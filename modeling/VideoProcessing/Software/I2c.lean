import VideoProcessing.Software.Access

/-!
# The I2C driver

`alt_avalon_i2c_master_tx` without interrupts, down to the registers of the
controller.  A transaction enables the controller, puts the address and the bytes
into its command FIFO, waits until it is idle and disables it; one that was not
acknowledged, lost the bus or found the controller enabled is repeated.

The controller may answer anything, so the results are about the paths of the
programs:

* `masterTx_sends`: what a transfer puts into the command FIFO;
* `within_masterTransmit`: a transaction of two bytes always returns.

The timeout of a transaction is 10000 polls for each byte, counted in 32 bits.
-/

namespace VideoProcessing

open Lib

/-- The status codes of the driver. -/
inductive I2cStatus
  | success
  | timeout
  | nackErr
  | arbLostErr
  | busy
deriving DecidableEq

namespace I2c

open Nios

/-- `ALT_AVALON_I2C_CTRL_EN_MSK`. -/
def ctrlEnMsk : BitVec 32 := 1

/-- `ALT_AVALON_I2C_CTRL_BUS_SPEED_MSK`. -/
def ctrlBusSpeedMsk : BitVec 32 := 1 <<< 1

/-- `ALT_AVALON_I2C_ISR_TX_READY_MSK`. -/
def isrTxReadyMsk : BitVec 32 := 1

/-- `ALT_AVALON_I2C_ISR_NACK_DET_MSK`. -/
def isrNackDetMsk : BitVec 32 := 1 <<< 2

/-- `ALT_AVALON_I2C_ISR_ARBLOST_DET_MSK`. -/
def isrArblostDetMsk : BitVec 32 := 1 <<< 3

/-- `ALT_AVALON_I2C_ISR_ALL_CLEARABLE_INTS_MSK`. -/
def isrAllClearableIntsMsk : BitVec 32 := 1 <<< 4 ||| isrArblostDetMsk ||| isrNackDetMsk

/-- `ALT_AVALON_I2C_STATUS_CORE_STATUS_MSK`. -/
def statusCoreStatusMsk : BitVec 32 := 1

/-- `alt_avalon_i2c_enable`; no callback is registered. -/
def enable : Nios I2cStatus := do
  let ctrl ← iordI2c .ctrl
  if ctrl &&& ctrlEnMsk ≠ 0 then pure .busy
  else do
    iormwI2c .ctrl ctrlEnMsk ctrlEnMsk
    pure .success

/-- `alt_avalon_i2c_disable`. -/
def disable : Nios Unit := iormwI2c .ctrl 0 ctrlEnMsk

/-- `alt_avalon_i2c_int_clear`. -/
def intClear (mask : BitVec 32) : Nios Unit := iowrI2c .isr mask

/-- `alt_avalon_i2c_check_nack`. -/
def checkNack (status : I2cStatus) : Nios I2cStatus := do
  let isr ← iordI2c .isr
  pure (if isr &&& isrNackDetMsk ≠ 0 then .nackErr else status)

/-- `alt_avalon_i2c_check_arblost`. -/
def checkArblost (status : I2cStatus) : Nios I2cStatus := do
  let isr ← iordI2c .isr
  pure (if isr &&& isrArblostDetMsk ≠ 0 then .arbLostErr else status)

/-- A word of the command FIFO. -/
def command (val : BitVec 8) (issueRestart issueStop : Bool) : BitVec 32 :=
  val.setWidth 32 ||| (BitVec.ofBool issueRestart).setWidth 32 <<< 9 |||
    (BitVec.ofBool issueStop).setWidth 32 <<< 8

/-- `alt_avalon_i2c_cmd_write`. -/
def cmdWrite (val : BitVec 8) (issueRestart issueStop : Bool) : Nios I2cStatus := do
  let ready ← Prog.pollFor (.iordI2c .isr) (fun isr => isr &&& isrTxReadyMsk ≠ 0) 10000
  if ready then do
    iowrI2c .tfrCmd (command val issueRestart issueStop)
    let status ← checkNack .success
    checkArblost status
  else pure .timeout

/-- `alt_avalon_i2c_send_address` in the 7-bit mode that `alt_avalon_i2c_init` sets. -/
def sendAddress (target : BitVec 32) (rwBit : BitVec 32) (issueRestart : Bool) :
    Nios I2cStatus :=
  cmdWrite ((target <<< 1 ||| rwBit).setWidth 8) issueRestart false

/-- The bytes of `alt_avalon_i2c_master_transmit`, the last one with the stop. -/
def sendBytes (issueStop : Bool) : List (BitVec 8) → Nios I2cStatus
  | [] => pure .success
  | [b] => cmdWrite b false issueStop
  | b :: bs => do
      let status ← cmdWrite b false false
      if status = .success then sendBytes issueStop bs else pure status

/-- The address, and the bytes after it. -/
def sendFrame (target : BitVec 32) (buffer : List (BitVec 8))
    (issueRestart issueStop : Bool) :
    Nios I2cStatus := do
  let status ← sendAddress target 0 issueRestart
  if status = .success then sendBytes issueStop buffer else pure status

/-- The start of a new transaction. -/
def begin (issueRestart : Bool) : Nios I2cStatus :=
  if issueRestart then pure .success
  else do
    let status ← enable
    if status = .success then do
      intClear isrAllClearableIntsMsk
      pure .success
    else pure status

/-- `alt_avalon_i2c_is_busy`, for the status word read. -/
def isBusy (r : BitVec 32) : Bool := r &&& statusCoreStatusMsk ≠ 0

/-- The polls of a loop that ends with `--timeout == 0`: all 2^32 of them for zero. -/
def countDown (timeout : BitVec 32) : Nat := (timeout - 1).toNat + 1

/-- The end of a transaction: wait until the controller is idle, then disable it. -/
def finish (size : Nat) (status : I2cStatus) : Nios I2cStatus := do
  let idle ← Prog.pollFor (.iordI2c .status) (fun r => !isBusy r)
    (countDown (BitVec.ofNat 32 size * 10000))
  let status ← checkNack (if idle then status else .timeout)
  disable
  pure status

/-- `alt_avalon_i2c_master_transmit`. -/
def masterTransmit (target : BitVec 32) (buffer : List (BitVec 8))
    (issueRestart issueStop : Bool) : Nios I2cStatus :=
  if buffer = [] then pure .success
  else do
    let status ← begin issueRestart
    if status ≠ .success then pure status
    else do
      let status ← sendFrame target buffer issueRestart issueStop
      if issueStop ∨ status ≠ .success then finish buffer.length status else pure status

/-- The transaction is repeated. -/
def again : I2cStatus → Bool
  | .arbLostErr => true
  | .nackErr => true
  | .busy => true
  | _ => false

/-- `alt_avalon_i2c_master_tx` without interrupts: `retry` counts down from 10000. -/
def masterTx (target : BitVec 32) (buffer : List (BitVec 8)) : Nios I2cStatus :=
  Prog.retry again (masterTransmit target buffer false true) 9999

/-- `ALT_AVALON_I2C_MASTER_CONFIG_t` without the address mode. -/
structure MasterConfig where
  speedMode : BitVec 32
  sclHcnt : BitVec 16
  sclLcnt : BitVec 16
  sdaCnt : BitVec 16

/-- `alt_avalon_i2c_master_config_get`. -/
def masterConfigGet : Nios MasterConfig := do
  let ctrl ← iordI2c .ctrl
  let high ← iordI2c .sclHigh
  let low ← iordI2c .sclLow
  let hold ← iordI2c .sdaHold
  pure ⟨(ctrl &&& ctrlBusSpeedMsk) >>> 1, high.setWidth 16, low.setWidth 16, hold.setWidth 16⟩

/-- `alt_avalon_i2c_master_config_speed_set`: `none` is `ALT_AVALON_I2C_RANGE`. -/
def masterConfigSpeedSet (ipFreqInHz speedInHz : BitVec 32) : Option MasterConfig :=
  if 400000 < speedInHz ∨ speedInHz < 1 ∨ speedInHz = 0 then none
  else
    let n := ipFreqInHz / (speedInHz <<< 1)
    let sclHcnt := n + 60
    let sclLcnt := n - 60
    some {
      speedMode := if 100000 < speedInHz then 1 else 0
      sclHcnt := sclHcnt.setWidth 16
      sclLcnt := sclLcnt.setWidth 16
      sdaCnt := (sclLcnt - sclLcnt / 2).setWidth 16 }

/-- `alt_avalon_i2c_master_config_set`. -/
def masterConfigSet (cfg : MasterConfig) : Nios Unit := do
  iormwI2c .ctrl (cfg.speedMode <<< 1) ctrlBusSpeedMsk
  iowrI2c .sclHigh (cfg.sclHcnt.setWidth 32)
  iowrI2c .sclLow (cfg.sclLcnt.setWidth 32)
  iowrI2c .sdaHold (cfg.sdaCnt.setWidth 32)

section Transactions

/-- What the I2C controller is told. -/
inductive Event
  | enable
  | disable
  | command (w : BitVec 32)
deriving DecidableEq

/-- The event of an access: a write to the control register or to the command FIFO. -/
def event : Access × BitVec 32 → Option Event
  | (.iowrI2c .ctrl v, _) => some (if v.getLsbD 0 then .enable else .disable)
  | (.iowrI2c .tfrCmd v, _) => some (.command v)
  | _ => none

/-- The commands that follow the address of a transaction. -/
def byteCommands : List (BitVec 8) → List (BitVec 32)
  | [] => []
  | [b] => [command b false true]
  | b :: bs => command b false false :: byteCommands bs

/-- The commands of a whole write transaction. -/
def frame (target : BitVec 32) (buffer : List (BitVec 8)) : List (BitVec 32) :=
  command ((target <<< 1).setWidth 8) false false :: byteCommands buffer

/-- The events of a transaction that got as far as the commands `ws`. -/
def attempt (ws : List (BitVec 32)) : List Event :=
  .enable :: ws.map .command ++ [.disable]

theorem event_ctrl (v r : BitVec 32) :
    event (.iowrI2c .ctrl v, r) = some (if v.getLsbD 0 then .enable else .disable) := rfl

/-- A read is no event. -/
theorem observes_iordI2c {R : Type} {reg : I2cReg} {k : BitVec 32 → Nios R}
    {P : List Event → R → Prop} (h : ∀ v, Prog.Observes event (k v) P) :
    Prog.Observes event ((iordI2c reg).bind k) P :=
  Prog.observes_act fun v => h v

theorem observes_enable :
    Prog.Observes event enable fun o st =>
      (o = [] ∧ st = .busy) ∨ (o = [.enable] ∧ st = .success) := by
  refine observes_iordI2c fun ctrl => ?_
  split
  · exact Prog.observes_ret (Or.inl ⟨rfl, rfl⟩)
  · refine observes_iordI2c fun r => Prog.observes_act fun _ => Prog.observes_ret (Or.inr ⟨?_, rfl⟩)
    have hbit : ((r &&& ~~~ctrlEnMsk) ||| (ctrlEnMsk &&& ctrlEnMsk)).getLsbD 0 = true := by
      simp [ctrlEnMsk]
    rw [event_ctrl, hbit]
    rfl

theorem observes_disable :
    Prog.Observes event disable fun o _ => o = [.disable] := by
  refine observes_iordI2c fun r => Prog.observes_act fun _ => Prog.observes_ret ?_
  have hbit : ((r &&& ~~~ctrlEnMsk) ||| (0 &&& ctrlEnMsk)).getLsbD 0 = false := by
    simp [ctrlEnMsk]
  rw [event_ctrl, hbit]
  rfl

/-- A command is written unless the FIFO stays full, and then there is no success. -/
theorem observes_cmdWrite (val : BitVec 8) (issueRestart issueStop : Bool) :
    Prog.Observes event (cmdWrite val issueRestart issueStop) fun o st =>
      (o = [] ∧ st ≠ .success) ∨ o = [.command (command val issueRestart issueStop)] := by
  refine Prog.observes_bind
    (Prog.observes_pollFor (P := fun o _ => o = []) (fun _ => rfl) _ _ fun _ => rfl) ?_
  rintro o ready rfl
  cases ready with
  | false => exact Prog.observes_ret (Or.inl ⟨rfl, by simp⟩)
  | true =>
      refine Prog.observes_act fun _ => observes_iordI2c fun _ => ?_
      exact observes_iordI2c fun _ => Prog.observes_ret (Or.inr rfl)

/-- The bytes are sent in order, and all of them when the transfer succeeds. -/
theorem observes_sendBytes (buffer : List (BitVec 8)) :
    Prog.Observes event (sendBytes true buffer) fun o st => ∃ ws, o = ws.map .command ∧
      ws <+: byteCommands buffer ∧ (st = .success → ws = byteCommands buffer) := by
  induction buffer with
  | nil => exact Prog.observes_ret ⟨[], rfl, List.prefix_rfl, fun _ => rfl⟩
  | cons b bs ih =>
      cases bs with
      | nil =>
          refine (observes_cmdWrite b false true).mono ?_
          rintro o st (⟨rfl, hst⟩ | rfl)
          · exact ⟨[], rfl, List.nil_prefix, fun h => absurd h hst⟩
          · exact ⟨[command b false true], rfl, List.prefix_rfl, fun _ => rfl⟩
      | cons b' bs =>
          refine Prog.observes_bind (observes_cmdWrite b false false) ?_
          rintro o st h
          split
          · next hst =>
              obtain ⟨-, hne⟩ | rfl := h
              · exact absurd hst hne
              · refine ih.mono ?_
                rintro o' st' ⟨ws, rfl, hpre, hall⟩
                refine ⟨command b false false :: ws, rfl, ?_, fun h => ?_⟩
                · exact (List.prefix_cons_inj _).2 hpre
                · rw [hall h]
                  rfl
          · next hst =>
              refine Prog.observes_ret ?_
              obtain ⟨rfl, -⟩ | rfl := h
              · exact ⟨[], rfl, List.nil_prefix, fun h => absurd h hst⟩
              · exact ⟨[command b false false], rfl, ⟨byteCommands (b' :: bs), rfl⟩,
                  fun h => absurd h hst⟩

theorem observes_finish (size : Nat) (status : I2cStatus) :
    Prog.Observes event (finish size status) fun o st =>
      o = [.disable] ∧ (st = .success → status = .success) := by
  refine Prog.observes_bind
    (Prog.observes_pollFor (P := fun o _ => o = []) (fun _ => rfl) _ _ fun _ => rfl) ?_
  rintro o idle rfl
  refine observes_iordI2c fun isr => Prog.observes_bind observes_disable ?_
  rintro o - rfl
  refine Prog.observes_ret ⟨rfl, ?_⟩
  split
  · exact fun h => absurd h (by simp)
  · cases idle with
    | true => exact id
    | false => exact fun h => absurd h (by simp)

theorem observes_sendFrame (target : BitVec 32) (buffer : List (BitVec 8)) :
    Prog.Observes event (sendFrame target buffer false true) fun o st =>
      ∃ ws, o = ws.map .command ∧ ws <+: frame target buffer ∧
        (st = .success → ws = frame target buffer) := by
  have haddr : (target <<< 1 ||| 0).setWidth 8 = (target <<< 1).setWidth 8 := by simp
  refine Prog.observes_bind (observes_cmdWrite _ false false) ?_
  rw [haddr]
  rintro o st h
  split
  · next hst =>
      obtain ⟨-, hne⟩ | rfl := h
      · exact absurd hst hne
      · refine (observes_sendBytes buffer).mono ?_
        rintro o' st' ⟨ws, rfl, hpre, hall⟩
        refine ⟨_ :: ws, rfl, (List.prefix_cons_inj _).2 hpre, fun h => ?_⟩
        rw [hall h]
        rfl
  · next hst =>
      refine Prog.observes_ret ?_
      obtain ⟨rfl, -⟩ | rfl := h
      · exact ⟨[], rfl, List.nil_prefix, fun h => absurd h hst⟩
      · exact ⟨[_], rfl, ⟨byteCommands buffer, rfl⟩, fun h => absurd h hst⟩

/-- One transaction: nothing when the controller is found enabled, else a beginning of
the frame between the enabling and the disabling of the controller. -/
theorem observes_masterTransmit (target : BitVec 32) {buffer : List (BitVec 8)}
    (hbuffer : buffer ≠ []) :
    Prog.Observes event (masterTransmit target buffer false true) fun o st =>
      (o = [] ∧ st = .busy) ∨ ∃ ws, o = attempt ws ∧ ws <+: frame target buffer ∧
        (st = .success → ws = frame target buffer) := by
  rw [masterTransmit, if_neg hbuffer]
  refine Prog.observes_bind (P := fun o st =>
    (o = [] ∧ st = .busy) ∨ (o = [.enable] ∧ st = .success)) ?_ ?_
  · refine Prog.observes_bind observes_enable ?_
    rintro o st h
    split
    · next hst =>
        obtain ⟨-, hbusy⟩ | ⟨rfl, -⟩ := h
        · exact absurd (hst.symm.trans hbusy) (by simp)
        · exact Prog.observes_act fun _ => Prog.observes_ret (Or.inr ⟨rfl, rfl⟩)
    · next hst =>
        obtain ⟨rfl, rfl⟩ | ⟨-, hok⟩ := h
        · exact Prog.observes_ret (Or.inl ⟨rfl, rfl⟩)
        · exact absurd hok hst
  · rintro o st (⟨rfl, rfl⟩ | ⟨rfl, rfl⟩)
    · exact Prog.observes_ret (Or.inl ⟨rfl, rfl⟩)
    · rw [if_neg (by simp)]
      refine Prog.observes_bind (observes_sendFrame target buffer) ?_
      rintro o st ⟨ws, rfl, hpre, hall⟩
      rw [if_pos (Or.inl rfl)]
      refine (observes_finish buffer.length st).mono ?_
      rintro o st' ⟨rfl, hst⟩
      exact Or.inr ⟨ws, by simp [attempt], hpre, fun h => hall (hst h)⟩

/-- What a transfer with retries leaves: at most `n` attempts, each a beginning of the
frame `ws`, and after a success the last one is the whole frame. -/
structure Sends (n : Nat) (ws : List (BitVec 32)) (o : List Event) (st : I2cStatus)
    (attempts : List (List (BitVec 32))) : Prop where
  events : o = attempts.flatMap attempt
  count : attempts.length ≤ n
  begins : ∀ a ∈ attempts, a <+: ws
  success : st = .success → attempts.getLast? = some ws

/-- One transaction is at most one attempt. -/
theorem sends_of_transmit {ws : List (BitVec 32)} {o : List Event} {st : I2cStatus}
    (h : (o = [] ∧ st = .busy) ∨
      ∃ a, o = attempt a ∧ a <+: ws ∧ (st = .success → a = ws)) :
    ∃ attempts, Sends 1 ws o st attempts := by
  obtain ⟨rfl, rfl⟩ | ⟨a, rfl, hpre, hall⟩ := h
  · exact ⟨[], rfl, Nat.zero_le 1, by simp, by simp⟩
  · refine ⟨[a], by simp, Nat.le_refl 1, by simpa using hpre, fun h => ?_⟩
    rw [hall h]
    rfl

/-- Attempts that failed, and then more. -/
theorem Sends.append {n m : Nat} {ws : List (BitVec 32)} {o o' : List Event}
    {st st' : I2cStatus} {as as' : List (List (BitVec 32))} (h : Sends n ws o st as)
    (h' : Sends m ws o' st' as') : Sends (n + m) ws (o ++ o') st' (as ++ as') where
  events := by rw [h.events, h'.events, List.flatMap_append]
  count := by
    rw [List.length_append]
    exact Nat.add_le_add h.count h'.count
  begins a ha := by
    rcases List.mem_append.1 ha with ha | ha
    · exact h.begins a ha
    · exact h'.begins a ha
  success hst := by
    rw [List.getLast?_append, h'.success hst]
    rfl

/-- The attempts of a transfer, one after the other. -/
theorem observes_masterTx (target : BitVec 32) {buffer : List (BitVec 8)}
    (hbuffer : buffer ≠ []) :
    Prog.Observes event (masterTx target buffer) fun o st =>
      ∃ attempts, Sends 10000 (frame target buffer) o st attempts := by
  have hone : Prog.Observes event (masterTransmit target buffer false true) fun o st =>
      ∃ attempts, Sends 1 (frame target buffer) o st attempts :=
    (observes_masterTransmit target hbuffer).mono fun _ _ => sends_of_transmit
  refine (Prog.observes_retry hone 9999).mono ?_
  rintro o st ⟨os, last, rfl, hlen, hos, as, hlast⟩
  have hfailed : ∀ os : List (List Event), (∀ x ∈ os, ∃ r', again r' = true ∧
      ∃ attempts, Sends 1 (frame target buffer) x r' attempts) →
      ∃ attempts, Sends os.length (frame target buffer) os.flatten .busy attempts := by
    intro os
    induction os with
    | nil => exact fun _ => ⟨[], rfl, Nat.le_refl 0, by simp, by simp⟩
    | cons x os ih =>
        intro hos
        obtain ⟨r', -, bs, hx⟩ := hos x List.mem_cons_self
        obtain ⟨cs, hrest⟩ := ih fun y hy => hos y (List.mem_cons_of_mem _ hy)
        refine ⟨bs ++ cs, ?_⟩
        rw [List.length_cons, Nat.add_comm]
        exact hx.append hrest
  obtain ⟨bs, hbs⟩ := hfailed os hos
  have hall := hbs.append hlast
  exact ⟨bs ++ as, hall.events, Nat.le_trans hall.count (Nat.succ_le_succ hlen), hall.begins,
    hall.success⟩

/-- **I2C transfers.**  Whatever the controller answers, `alt_avalon_i2c_master_tx` makes
at most 10000 attempts.  Each of them is a beginning of the frame (the address for
writing, the bytes, the stop with the last one), sent between the enabling and the
disabling of the controller, and when the transfer is reported as a success the last
attempt was the whole frame. -/
theorem masterTx_sends (target : BitVec 32) {buffer : List (BitVec 8)}
    (hbuffer : buffer ≠ []) {l : List (Access × BitVec 32)} {st : I2cStatus}
    (h : (masterTx target buffer).Path l st) :
    ∃ attempts, Sends 10000 (frame target buffer) (l.filterMap event) st attempts :=
  observes_masterTx target hbuffer l st h

/-- A controller that is ready, idle and acknowledged every time. -/
def obliging : Access → BitVec 32
  | .iordPllLocked => 1
  | .i2cOpen => 1
  | .iordI2c .isr => 1
  | _ => 0

/-- The first register of the transmitter, with a controller that obliges. -/
theorem masterTx_sends_first :
    ∃ attempts, Sends 10000 (frame 0x39 [0x41, 0x10])
      ([.enable, .command 0x72, .command 0x41, .command 0x110, .disable]) .success attempts :=
  masterTx_sends 0x39 (by decide)
    (Prog.path_replies obliging (masterTx 0x39 [0x41, 0x10]))

end Transactions

section Bounds

/-- An access and then at most `n` more. -/
theorem within_iordI2c {R : Type} {reg : I2cReg} {k : BitVec 32 → Nios R} {n : Nat}
    (h : ∀ v, (k v).Within n) : ((iordI2c reg).bind k).Within (n + 1) := h

theorem within_iormwI2c (reg : I2cReg) (data mask : BitVec 32) :
    (iormwI2c reg data mask).Within 2 :=
  within_iordI2c fun _ => fun _ => trivial

theorem within_cmdWrite (val : BitVec 8) (issueRestart issueStop : Bool) :
    (cmdWrite val issueRestart issueStop).Within (10000 + 3) := by
  refine (Prog.Within.pollFor _ _ _).bind fun ready => ?_
  cases ready with
  | true => exact fun _ => within_iordI2c fun _ => within_iordI2c fun _ => trivial
  | false => trivial

theorem within_sendBytes (buffer : List (BitVec 8)) :
    (sendBytes true buffer).Within (buffer.length * (10000 + 3)) := by
  induction buffer with
  | nil => trivial
  | cons b bs ih =>
      rw [List.length_cons, Nat.succ_mul, Nat.add_comm]
      cases bs with
      | nil => exact (within_cmdWrite b false true).mono (Nat.le_add_right _ _)
      | cons b' bs =>
          refine (within_cmdWrite b false false).bind fun st => ?_
          split
          · exact ih
          · trivial

/-- One transaction of two bytes. -/
theorem within_masterTransmit (target : BitVec 32) (reg data : BitVec 8) :
    (masterTransmit target [reg, data] false true).Within 50016 := by
  have hbegin : (begin false).Within 4 := by
    refine Prog.Within.bind (n := 3) (m := 1) (within_iordI2c fun ctrl => ?_) fun st => ?_
    · split
      · trivial
      · exact (within_iormwI2c _ _ _).bind (m := 0) fun _ => trivial
    · split
      · exact fun _ => trivial
      · trivial
  have hframe : (sendFrame target [reg, data] false true).Within 30009 := by
    refine Prog.Within.bind (n := 10003) (m := 20006) (within_cmdWrite _ _ _) fun st => ?_
    split
    · exact (within_sendBytes [reg, data]).mono (by simp)
    · trivial
  have hfinish : ∀ st, (finish 2 st).Within 20003 := by
    intro st
    refine Prog.Within.bind (n := 20000) (m := 3) (Prog.Within.pollFor _ _ _) fun idle => ?_
    exact within_iordI2c fun _ => (within_iormwI2c _ _ _).bind (m := 0) fun _ => trivial
  rw [masterTransmit, if_neg (by simp)]
  refine hbegin.bind (m := 50012) fun st => ?_
  split
  · trivial
  · refine hframe.bind (m := 20003) fun st => ?_
    split
    · exact hfinish st
    · trivial

theorem only_iormwI2c (reg : I2cReg) (data mask : BitVec 32) :
    (iormwI2c reg data mask).Only Access.Asks :=
  ⟨trivial, fun _ => ⟨trivial, fun _ => trivial⟩⟩

theorem only_cmdWrite (val : BitVec 8) (issueRestart issueStop : Bool) :
    (cmdWrite val issueRestart issueStop).Only Access.Asks := by
  refine (Prog.Only.pollFor trivial _ _).bind fun ready => ?_
  cases ready with
  | true => exact ⟨trivial, fun _ => ⟨trivial, fun _ => ⟨trivial, fun _ => trivial⟩⟩⟩
  | false => trivial

theorem only_sendBytes (buffer : List (BitVec 8)) :
    (sendBytes true buffer).Only Access.Asks := by
  induction buffer with
  | nil => trivial
  | cons b bs ih =>
      cases bs with
      | nil => exact only_cmdWrite b false true
      | cons b' bs =>
          refine (only_cmdWrite b false false).bind fun st => ?_
          split
          · exact ih
          · trivial

/-- A transaction talks to the controller alone. -/
theorem only_masterTransmit (target : BitVec 32) (reg data : BitVec 8) :
    (masterTransmit target [reg, data] false true).Only Access.Asks := by
  rw [masterTransmit, if_neg (by simp)]
  refine Prog.Only.bind (Prog.Only.bind ⟨trivial, fun ctrl => ?_⟩ fun st => ?_) fun st => ?_
  · change Prog.Only Access.Asks (if ctrl &&& ctrlEnMsk ≠ 0 then _ else _)
    split
    · trivial
    · exact (only_iormwI2c _ _ _).bind fun _ => trivial
  · split
    · exact ⟨trivial, fun _ => trivial⟩
    · trivial
  · split
    · trivial
    · refine Prog.Only.bind ((only_cmdWrite _ _ _).bind fun st => ?_) fun st => ?_
      · split
        · exact only_sendBytes [reg, data]
        · trivial
      · split
        · refine (Prog.Only.pollFor trivial _ _).bind fun idle => ⟨trivial, fun isr => ?_⟩
          exact (only_iormwI2c _ _ _).bind fun _ => trivial
        · trivial

end Bounds

end I2c

end VideoProcessing
