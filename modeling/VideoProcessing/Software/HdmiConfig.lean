import VideoProcessing.Software.I2c

/-!
# `hdmi_init`

`hdmi_init` waits for the PLL, opens the I2C controller and writes twelve registers
of the HDMI transmitter, each with one transfer of the I2C driver.

* `hdmiInit_path`: what it returns, and the transfers that it has made by then;
* `hdmiInit_within`: it always returns.
-/

namespace VideoProcessing

open Lib

open Nios

/-- `ADV7513_ADDR`. -/
def adv7513Addr : BitVec 32 := 0x39

/-- `hdmi_i2c_write`: the status of the transfer is not looked at. -/
def hdmiI2cWrite (reg data : BitVec 8) : Nios Unit := do
  let _ ← I2c.masterTx adv7513Addr [reg, data]
  pure ()

/-- The registers of the transmitter and their values, in the order of `hdmi_init`. -/
def adv7513Sequence : List (BitVec 8 × BitVec 8) :=
  [(0x41, 0x10), (0x16, 0x00), (0xAF, 0x06), (0x3C, 0x18), (0x98, 0x03), (0x9A, 0xE0),
    (0x9C, 0x30), (0x9D, 0x61), (0xA2, 0xA4), (0xA3, 0xA4), (0xE0, 0xD0), (0xF9, 0x00)]

/-- `hdmi_i2c_write` for one register after another. -/
def writeAll : List (BitVec 8 × BitVec 8) → Nios Unit
  | [] => pure ()
  | w :: ws => do
      hdmiI2cWrite w.1 w.2
      writeAll ws

/-- `I2C_HDMI_FREQ`. -/
def i2cHdmiFreq : BitVec 32 := 50000000

/-- The three calls of `hdmi_init` that set the speed of the bus. -/
def configureSpeed : Nios Unit := do
  let cfg ← I2c.masterConfigGet
  I2c.masterConfigSet ((I2c.masterConfigSpeedSet i2cHdmiFreq 100000).getD cfg)

/-- `hdmi_init`. -/
def hdmiInit : Nios Int := do
  let locked ← Prog.pollFor .iordPllLocked (fun pll => pll ≠ 0) 1000
  if locked then do
    let dev ← Prog.access .i2cOpen
    if dev = 0 then pure (-2)
    else do
      configureSpeed
      writeAll adv7513Sequence
      pure 0
  else pure (-1)

section Initialisation

open I2c

/-- The transfers of the register writes `ws`, each with the accesses of the driver and
the status that it returns: at most 10000 attempts at the frame of the register and its
value, and the whole frame in the last one when the transfer succeeded. -/
def Transfers (ws : List (BitVec 8 × BitVec 8))
    (txs : List (List (Access × BitVec 32) × I2cStatus)) : Prop :=
  List.Forall₂ (fun w tx => (masterTx adv7513Addr [w.1, w.2]).Path tx.1 tx.2 ∧
    ∃ attempts, Sends 10000 (frame adv7513Addr [w.1, w.2]) (tx.1.filterMap event) tx.2 attempts)
      ws txs

/-- One transfer after another. -/
theorem path_writeAll {ws : List (BitVec 8 × BitVec 8)} {l : List (Access × BitVec 32)}
    {u : Unit} (h : (writeAll ws).Path l u) :
    ∃ txs, l = (txs.map Prod.fst).flatten ∧ Transfers ws txs := by
  induction ws generalizing l with
  | nil =>
      obtain ⟨rfl, -⟩ := h
      exact ⟨[], rfl, .nil⟩
  | cons w ws ih =>
      obtain ⟨l₁, l₂, _, rfl, hwrite, hrest⟩ := Prog.path_bind.1 h
      obtain ⟨l₁, _, st, rfl, htx, rfl, -⟩ := Prog.path_bind.1 hwrite
      obtain ⟨txs, rfl, htxs⟩ := ih hrest
      have hsends := observes_masterTx adv7513Addr (List.cons_ne_nil w.1 [w.2]) l₁ st htx
      exact ⟨(l₁, st) :: txs, by simp, .cons ⟨htx, hsends⟩ htxs⟩

/-- The accesses that set the bus to 100 kHz: the registers are read, the speed bit is
cleared, and the clock is high for 310 cycles of `clk_50` and low for 190, with the data
held for 95. -/
def SetsSpeed (cfg : List (Access × BitVec 32)) : Prop :=
  ∃ ctrl v₁ v₂ v₃ v₄ v₅ v₆ v₇ v₈, cfg =
    [(.iordI2c .ctrl, v₁), (.iordI2c .sclHigh, v₂), (.iordI2c .sclLow, v₃),
      (.iordI2c .sdaHold, v₄), (.iordI2c .ctrl, ctrl),
      (.iowrI2c .ctrl (ctrl &&& ~~~ctrlBusSpeedMsk), v₅), (.iowrI2c .sclHigh 310, v₆),
      (.iowrI2c .sclLow 190, v₇), (.iowrI2c .sdaHold 95, v₈)]

theorem path_configureSpeed {l : List (Access × BitVec 32)} {t : Unit}
    (h : configureSpeed.Path l t) : SetsSpeed l := by
  obtain ⟨l₁, l₂, cfg, rfl, h₁, h₂⟩ := Prog.path_bind.1 h
  obtain ⟨v₁, _, rfl, v₂, _, rfl, v₃, _, rfl, v₄, _, rfl, rfl, -⟩ := h₁
  obtain ⟨ctrl, _, rfl, v₅, _, rfl, v₆, _, rfl, v₇, _, rfl, v₈, _, rfl, rfl, -⟩ := h₂
  have hspeed : masterConfigSpeedSet i2cHdmiFreq 100000 = some ⟨0, 310, 190, 95⟩ := by
    rw [masterConfigSpeedSet, if_neg (by decide)]
    rfl
  refine ⟨ctrl, v₁, v₂, v₃, v₄, v₅, v₆, v₇, v₈, ?_⟩
  rw [hspeed, Option.getD_some]
  simp

/-- **`hdmi_init`.**  It returns -1 after a thousand reads of `PLL_LOCKED` that were
zero and nothing else.  Else it stops reading at the first lock; it returns -2 when the
I2C controller is not found, and in all other cases, whatever became of the transfers,
it returns 0 after it has set the speed and made one transfer for each of the twelve
registers, in their order. -/
theorem hdmiInit_path {l : List (Access × BitVec 32)} {r : Int} (h : hdmiInit.Path l r) :
    (r = -1 ∧ l = List.replicate 1000 (.iordPllLocked, 0)) ∨
    ∃ n pll l', n < 1000 ∧ pll ≠ 0 ∧
      l = List.replicate n (.iordPllLocked, 0) ++ (.iordPllLocked, pll) :: l' ∧
      ((r = -2 ∧ l' = [(.i2cOpen, 0)]) ∨
        (r = 0 ∧ ∃ dev cfg txs, dev ≠ 0 ∧
          l' = (.i2cOpen, dev) :: (cfg ++ (txs.map Prod.fst).flatten) ∧
          SetsSpeed cfg ∧ Transfers adv7513Sequence txs)) := by
  obtain ⟨l₁, l₂, locked, rfl, hpoll, hrest⟩ := Prog.path_bind.1 h
  obtain ⟨vs, hvs, hcase⟩ := Prog.path_pollFor.1 hpoll
  have hzeros : vs.map (Prod.mk Access.iordPllLocked) =
      List.replicate vs.length (.iordPllLocked, 0) := by
    refine List.eq_replicate_iff.2 ⟨List.length_map _, ?_⟩
    intro x hx
    obtain ⟨v, hv, rfl⟩ := List.mem_map.1 hx
    rw [show v = 0 by simpa using hvs v hv]
  rcases hcase with ⟨rfl, hlen, rfl⟩ | ⟨rfl, hlen, pll, hpll, rfl⟩
  · obtain ⟨rfl, rfl⟩ := hrest
    left
    rw [hzeros, hlen, List.append_nil]
    exact ⟨rfl, rfl⟩
  · right
    refine ⟨vs.length, pll, l₂, hlen, by simpa using hpll, by rw [hzeros]; simp, ?_⟩
    obtain ⟨dev, l', rfl, hdev⟩ := hrest
    change Prog.Path (if dev = 0 then _ else _) l' r at hdev
    split at hdev
    · next hzero =>
        obtain ⟨rfl, rfl⟩ := hdev
        exact Or.inl ⟨rfl, by rw [hzero]⟩
    · next hdevne =>
        right
        obtain ⟨cfg, l'', _, rfl, hcfg, hwrite⟩ := Prog.path_bind.1 hdev
        obtain ⟨tx, _, _, rfl, htx, hend⟩ := Prog.path_bind.1 hwrite
        obtain ⟨rfl, rfl⟩ := hend
        obtain ⟨txs, rfl, htxs⟩ := path_writeAll htx
        exact ⟨rfl, dev, cfg, txs, hdevne, by simp, path_configureSpeed hcfg, htxs⟩

/-- With a controller that obliges, `hdmi_init` returns 0, and its transfers are the twelve
frames. -/
theorem hdmiInit_path_obliging :
    (hdmiInit.replies obliging).2 = 0 ∧ ∃ txs, Transfers adv7513Sequence txs ∧
      (txs.map Prod.fst).flatten.filterMap event =
        adv7513Sequence.flatMap fun w => attempt (frame adv7513Addr [w.1, w.2]) := by
  have hzero : (hdmiInit.replies obliging).2 = 0 := by decide +kernel
  have hhead : (hdmiInit.replies obliging).1.head? = some (.iordPllLocked, 1) := by
    decide +kernel
  have hevents : ((hdmiInit.replies obliging).1.drop 11).filterMap event =
      adv7513Sequence.flatMap fun w => attempt (frame adv7513Addr [w.1, w.2]) := by
    decide +kernel
  refine ⟨hzero, ?_⟩
  rcases hdmiInit_path (Prog.path_replies obliging hdmiInit) with
    ⟨h, -⟩ | ⟨n, pll, _, -, -, hl, ⟨h, -⟩ | ⟨-, dev, cfg, txs, -, rfl, hspeed, htxs⟩⟩
  · exact absurd (h.symm.trans hzero) (by decide)
  · exact absurd (h.symm.trans hzero) (by decide)
  · cases n with
    | zero =>
        have hdrop : (hdmiInit.replies obliging).1.drop 11 =
            (txs.map Prod.fst).flatten := by
          rw [hl]
          change (cfg ++ (txs.map Prod.fst).flatten).drop 9 = _
          obtain ⟨_, _, _, _, _, _, _, _, _, rfl⟩ := hspeed
          rfl
        rw [hdrop] at hevents
        exact ⟨txs, htxs, hevents⟩
    | succ n =>
        rw [hl] at hhead
        have hfirst := congrArg (Option.map Prod.snd) hhead
        exact absurd hfirst (by simp [List.replicate_succ])

theorem within_writeAll (ws : List (BitVec 8 × BitVec 8)) :
    (writeAll ws).Within (ws.length * 500160000) := by
  induction ws with
  | nil => trivial
  | cons w ws ih =>
      rw [List.length_cons, Nat.succ_mul, Nat.add_comm]
      refine Prog.Within.bind (n := 500160000) ?_ fun _ => ih
      exact ((within_masterTransmit _ w.1 w.2).retry again 9999).bind (m := 0) fun _ => trivial

/-- `hdmi_init` always returns. -/
theorem hdmiInit_within : hdmiInit.Within 6001921010 := by
  refine Prog.Within.bind (n := 1000) (m := 6001920010) (Prog.Within.pollFor _ _ _) fun locked => ?_
  cases locked with
  | false => trivial
  | true =>
      have hopen : (Prog.access .i2cOpen : Nios (BitVec 32)).Within 1 := fun _ => trivial
      refine hopen.bind (m := 6001920009) fun dev => ?_
      split
      · trivial
      · refine Prog.Within.bind (n := 9) (m := 6001920000) ?_ fun _ => ?_
        · exact within_iordI2c fun _ => within_iordI2c fun _ => within_iordI2c fun _ =>
            within_iordI2c fun _ => within_iordI2c fun _ =>
              fun _ => fun _ => fun _ => fun _ => trivial
        · exact (within_writeAll adv7513Sequence).bind (m := 0) fun _ => trivial

theorem only_writeAll (ws : List (BitVec 8 × BitVec 8)) :
    (writeAll ws).Only Access.Asks := by
  induction ws with
  | nil => trivial
  | cons w ws ih =>
      refine Prog.Only.bind ?_ fun _ => ih
      exact ((only_masterTransmit _ w.1 w.2).retry again 9999).bind fun _ => trivial

/-- `hdmi_init` reads the PIO and talks to the I2C controller, and does nothing else. -/
theorem hdmiInit_only : hdmiInit.Only Access.Asks := by
  refine (Prog.Only.pollFor trivial _ _).bind fun locked => ?_
  cases locked with
  | false => trivial
  | true =>
      refine ⟨trivial, fun dev => ?_⟩
      change Prog.Only Access.Asks (if dev = 0 then _ else _)
      split
      · trivial
      · have hconfig : configureSpeed.Only Access.Asks :=
          ⟨trivial, fun _ => ⟨trivial, fun _ => ⟨trivial, fun _ => ⟨trivial, fun _ =>
            ⟨trivial, fun _ => ⟨trivial, fun _ => ⟨trivial, fun _ => ⟨trivial, fun _ =>
              ⟨trivial, fun _ => trivial⟩⟩⟩⟩⟩⟩⟩⟩⟩
        refine hconfig.bind fun _ => ?_
        exact (only_writeAll adv7513Sequence).bind fun _ => trivial

end Initialisation

end VideoProcessing
