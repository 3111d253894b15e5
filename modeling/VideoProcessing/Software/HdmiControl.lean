import VideoProcessing.Video.HdmiSyncGen

/-!
# The read-modify-write functions of `hdmi_control.c`

`set_gamma_enable`, `dma_set_continuous` and `dma_start_single` read
`REG_DMA_CTRL`, change one bit and write the word back.  `Driver` runs a program
of such calls on the registers of `hdmi_sync_gen`: between the read and the write
of a call, and between calls, any number of cycles pass, the DMA is busy and
completes as it likes, and outside the calls software makes any other access that
does not write the register.

The same cycles without the accesses of the calls are the reference: a call
should differ from it in its own bit.  The word that is written back holds the
Done bit that was read, and writing 1 there acknowledges the completion.
-/

namespace VideoProcessing

open Lib

/-- `AS_DMA_START_MSK`. -/
def asDmaStartMsk : BitVec 32 := 1#32 <<< 2

/-- `AS_DMA_CONT_MSK`. -/
def asDmaContMsk : BitVec 32 := 1#32 <<< 1

/-- `AS_GAMMA_EN_MSK`. -/
def asGammaEnMsk : BitVec 32 := 1#32 <<< 0

/-- The word that `set_gamma_enable` writes back. -/
def setGammaEnable (enable : Int) (ctrl : BitVec 32) : BitVec 32 :=
  if enable ≠ 0 then ctrl ||| asGammaEnMsk else ctrl &&& ~~~asGammaEnMsk

/-- The word that `dma_start_single` writes back. -/
def dmaStartSingle (ctrl : BitVec 32) : BitVec 32 :=
  ctrl ||| asDmaStartMsk

/-- The word that `dma_set_continuous` writes back. -/
def dmaSetContinuous (enable : Int) (ctrl : BitVec 32) : BitVec 32 :=
  if enable ≠ 0 then ctrl ||| asDmaContMsk else ctrl &&& ~~~asDmaContMsk

namespace HdmiControl

/-- A call of one of the three functions. -/
inductive Op
  | setGammaEnable (enable : Int)
  | dmaSetContinuous (enable : Int)
  | dmaStartSingle
deriving DecidableEq

/-- The word that a call writes back after it has read `ctrl`. -/
def Op.value : Op → BitVec 32 → BitVec 32
  | setGammaEnable enable => VideoProcessing.setGammaEnable enable
  | dmaSetContinuous enable => VideoProcessing.dmaSetContinuous enable
  | dmaStartSingle => VideoProcessing.dmaStartSingle

/-- The value that a call gives the Gamma bit. -/
def Op.gamma : Op → Option Bool
  | setGammaEnable enable => some (decide (enable ≠ 0))
  | _ => none

/-- The value that a call gives the Cont bit. -/
def Op.cont : Op → Option Bool
  | dmaSetContinuous enable => some (decide (enable ≠ 0))
  | _ => none

/-- The call asks for a start pulse. -/
def Op.starts : Op → Bool
  | dmaStartSingle => true
  | _ => false

/-- One cycle: what the DMA and the rest of the software do, and whether the
processor gets to the next access of its calls. -/
structure Cycle where
  port : HdmiCsr.Inputs
  go : Bool
  other : port.avsWrite = true → port.avsAddress ≠ 1

/-- The inputs of the DMA and of the pixel domain alone. -/
def dmaOnly (i : HdmiCsr.Inputs) : HdmiCsr.Inputs :=
  { i with avsRead := false, avsWrite := false }

/-- `IORD` of `REG_DMA_CTRL`. -/
def iord (i : HdmiCsr.Inputs) : HdmiCsr.Inputs :=
  { i with avsAddress := 1, avsRead := true, avsWrite := false }

/-- `IOWR` of `REG_DMA_CTRL`. -/
def iowr (i : HdmiCsr.Inputs) (ctrl : BitVec 32) : HdmiCsr.Inputs :=
  { i with avsAddress := 1, avsRead := false, avsWrite := true, avsWritedata := ctrl }

/-- A call that has read the register: its local `ctrl`, and, for reference only,
whether the Done flag was set then. -/
structure Call where
  op : Op
  ctrl : BitVec 32
  doneAtRead : Bool

/-- The registers, the call in progress, and the calls before and after it. -/
structure Driver where
  csr : HdmiCsr
  call : Option Call
  todo : List Op
  finished : List Op

namespace Driver

/-- Before the first of the calls `ops`. -/
def start (s : HdmiCsr) (ops : List Op) : Driver where
  csr := s
  call := none
  todo := ops
  finished := []

/-- One cycle.  A word that is read arrives with `avs_readdatavalid`. -/
def step (d : Driver) (i : Cycle) : Driver :=
  match d.call with
  | some k =>
      if i.go then
        { d with
          csr := d.csr.step (iowr i.port (k.op.value k.ctrl))
          call := none
          finished := d.finished ++ [k.op] }
      else { d with csr := d.csr.step (dmaOnly i.port) }
  | none =>
      match d.todo with
      | op :: rest =>
          if i.go then
            { d with
              csr := d.csr.step (iord i.port)
              call := some
                ⟨op, (d.csr.step (iord i.port)).avsReaddataReg, d.csr.dmaDoneSticky⟩
              todo := rest }
          else { d with csr := d.csr.step i.port }
      | [] => { d with csr := d.csr.step i.port }

/-- The ports in the same cycle without the calls. -/
def without (d : Driver) (i : Cycle) : HdmiCsr.Inputs :=
  if d.call.isSome || (i.go && !d.todo.isEmpty) then dmaOnly i.port else i.port

/-- The call writes back in this cycle. -/
def Writes (d : Driver) (i : Cycle) (k : Call) : Prop :=
  d.call = some k ∧ i.go = true

/-- What a cycle can do. -/
theorem step_cases (d : Driver) (i : Cycle) :
    (∃ k, d.Writes i k ∧
      d.step i =
        { d with
          csr := d.csr.step (iowr i.port (k.op.value k.ctrl))
          call := none
          finished := d.finished ++ [k.op] } ∧
      d.without i = dmaOnly i.port) ∨
    (∃ k, d.call = some k ∧ i.go = false ∧
      d.step i = { d with csr := d.csr.step (dmaOnly i.port) } ∧
      d.without i = dmaOnly i.port) ∨
    (∃ op rest, d.call = none ∧
      d.step i =
        { d with
          csr := d.csr.step (iord i.port)
          call := some ⟨op, d.csr.readDataMux (iord i.port), d.csr.dmaDoneSticky⟩
          todo := rest } ∧
      d.without i = dmaOnly i.port) ∨
    (d.call = none ∧ d.step i = { d with csr := d.csr.step i.port } ∧
      d.without i = i.port) := by
  cases hc : d.call with
  | some k =>
      cases hg : i.go with
      | true =>
          left
          exact ⟨k, ⟨hc, hg⟩, by simp only [step, hc, hg, if_true], by simp [without, hc]⟩
      | false =>
          right
          left
          exact ⟨k, rfl, rfl, by simp only [step, hc, hg, Bool.false_eq_true, if_false],
            by simp [without, hc]⟩
  | none =>
      right
      right
      cases ht : d.todo with
      | nil =>
          right
          exact ⟨rfl, by simp only [step, hc, ht], by simp [without, hc, ht]⟩
      | cons op rest =>
          cases hg : i.go with
          | true =>
              left
              exact ⟨op, rest, rfl, by simp only [step, hc, ht, hg, if_true]; rfl,
                by simp [without, hc, ht, hg]⟩
          | false =>
              right
              exact ⟨rfl, by simp only [step, hc, ht, hg, Bool.false_eq_true, if_false],
                by simp [without, hc, hg]⟩

end Driver

/-- Everything in the module but the control register, its flags and the read
port: mode, LUT, bitmap, frame pointer and the synchronised VSync. -/
def others (s : HdmiCsr) : HdmiCsr :=
  { s with
    regGlobalCtrl := 0
    dmaStartPulse := false
    dmaDoneSticky := false
    avsReaddataReg := 0
    avsReaddatavalid := false }

section Registers

variable {s w : HdmiCsr} {p i : HdmiCsr.Inputs}

/-- The registers apart from the control register do not look at it. -/
theorem others_step_congr (h : others s = others w) (i : HdmiCsr.Inputs) :
    others (s.step i) = others (w.step i) := by
  obtain ⟨⟩ := s
  obtain ⟨⟩ := w
  simp only [others, HdmiCsr.mk.injEq] at h
  obtain ⟨rfl, -, rfl, rfl, rfl, rfl, rfl, rfl, -, -, -, -, rfl, rfl, rfl⟩ := h
  simp only [others, HdmiCsr.step, HdmiCsr.write, HdmiCsr.vsRise]
  cases i.avsWrite with
  | false => rfl
  | true => simp only [if_true]; split <;> rfl

/-- The accesses of a call leave the other registers as without them. -/
theorem others_iord (s : HdmiCsr) :
    others (s.step (iord p)) = others (s.step (dmaOnly p)) :=
  rfl

theorem others_iowr (s : HdmiCsr) (ctrl : BitVec 32) :
    others (s.step (iowr p ctrl)) = others (s.step (dmaOnly p)) :=
  rfl

/-- Without a write to it the control register stays. -/
theorem regGlobalCtrl_step (h : i.avsWrite = true → i.avsAddress ≠ 1) :
    (s.step i).regGlobalCtrl = s.regGlobalCtrl := by
  simp only [HdmiCsr.step]
  cases hw : i.avsWrite with
  | false => rfl
  | true =>
      have haddr : i.avsAddress.toNat ≠ 1 := fun h1 =>
        h hw (BitVec.eq_of_toNat_eq (h1.trans (by rfl)))
      simp only [if_true, HdmiCsr.write]
      split <;> first | rfl | exact absurd ‹_› haddr

theorem start_eq_false (h : i.avsWrite = true → i.avsAddress ≠ 1) : i.start = false := by
  rw [HdmiCsr.Inputs.start]
  cases hw : i.avsWrite with
  | false => rfl
  | true => rw [beq_eq_false_iff_ne.2 (h hw)]; rfl

theorem clearsDone_eq_false (h : i.avsWrite = true → i.avsAddress ≠ 1) :
    i.clearsDone = false := by
  rw [HdmiCsr.Inputs.clearsDone]
  cases hw : i.avsWrite with
  | false => rfl
  | true => rw [beq_eq_false_iff_ne.2 (h hw)]; rfl

/-- A write stores the two low bits. -/
theorem bits_iowr (s : HdmiCsr) (p : HdmiCsr.Inputs) (ctrl : BitVec 32) :
    (s.step (iowr p ctrl)).gammaEn = ctrl.getLsbD 0 ∧
      (s.step (iowr p ctrl)).dmaContEn = ctrl.getLsbD 1 := by
  have hctrl : (s.step (iowr p ctrl)).regGlobalCtrl =
      s.regGlobalCtrl.extractLsb' 2 30 ++ ctrl.setWidth 2 := rfl
  rw [HdmiCsr.gammaEn, HdmiCsr.dmaContEn, hctrl, BitVec.getLsbD_append,
    BitVec.getLsbD_append]
  simp

/-- What a call reads. -/
theorem bits_iord (s : HdmiCsr) (p : HdmiCsr.Inputs) :
    (s.readDataMux (iord p)).getLsbD 0 = s.gammaEn ∧
      (s.readDataMux (iord p)).getLsbD 1 = s.dmaContEn ∧
      (s.readDataMux (iord p)).getLsbD 2 = false ∧
      (s.readDataMux (iord p)).getLsbD 30 = s.dmaDoneSticky := by
  have hbits : ∀ busy done cont gamma : Bool,
      let r := BitVec.ofBool busy ++ BitVec.ofBool done ++ 0#28 ++ BitVec.ofBool cont ++
        BitVec.ofBool gamma
      r.getLsbD 0 = gamma ∧ r.getLsbD 1 = cont ∧ r.getLsbD 2 = false ∧
        r.getLsbD 30 = done := by
    decide
  exact hbits p.dmaBusy s.dmaDoneSticky s.dmaContEn s.gammaEn

end Registers

/-- What a call changes in the word that it read. -/
theorem Op.value_bits (op : Op) (ctrl : BitVec 32) :
    (op.value ctrl).getLsbD 0 = op.gamma.getD (ctrl.getLsbD 0) ∧
      (op.value ctrl).getLsbD 1 = op.cont.getD (ctrl.getLsbD 1) ∧
      (op.value ctrl).getLsbD 2 = (op.starts || ctrl.getLsbD 2) ∧
      (op.value ctrl).getLsbD 30 = ctrl.getLsbD 30 := by
  cases op with
  | setGammaEnable enable =>
      simp only [value, gamma, cont, starts, VideoProcessing.setGammaEnable, asGammaEnMsk]
      by_cases he : enable = 0 <;> simp [he]
  | dmaSetContinuous enable =>
      simp only [value, gamma, cont, starts, VideoProcessing.dmaSetContinuous,
        asDmaContMsk]
      by_cases he : enable = 0 <;> simp [he]
  | dmaStartSingle =>
      simp only [value, gamma, cont, starts, VideoProcessing.dmaStartSingle, asDmaStartMsk]
      simp

/-- The driver after the cycles `js`. -/
def after (s : HdmiCsr) (ops : List Op) (js : List Cycle) : Driver :=
  run Driver.step (Driver.start s ops) js

/-- The cycles of a run as they are without the calls. -/
def quiet (l : List (Driver × Cycle)) : List HdmiCsr.Inputs :=
  l.map fun e => e.1.without e.2

/-- The registers after the same cycles without the calls. -/
def reference (s : HdmiCsr) (ops : List Op) (js : List Cycle) : HdmiCsr :=
  run HdmiCsr.step s (quiet (log Driver.step (Driver.start s ops) js))

/-- The start pulses raised in a run. -/
def pulses (l : List (Driver × Cycle)) : Nat :=
  l.countP fun e => (e.1.step e.2).csr.dmaStartPulse

/-- After the cycles `js` the finished calls have changed their own bits, with one
start pulse for each `dma_start_single`, and nothing else. -/
structure OwnBitOnly (s : HdmiCsr) (ops : List Op) (js : List Cycle) : Prop where
  gamma : (after s ops js).csr.gammaEn =
    (((after s ops js).finished.filterMap Op.gamma).getLast?).getD s.gammaEn
  cont : (after s ops js).csr.dmaContEn =
    (((after s ops js).finished.filterMap Op.cont).getLast?).getD s.dmaContEn
  starts : pulses (log Driver.step (Driver.start s ops) js) =
    (after s ops js).finished.countP Op.starts
  done : (after s ops js).csr.dmaDoneSticky = (reference s ops js).dmaDoneSticky
  others : others (after s ops js).csr = others (reference s ops js)

/-- What holds in every run from `s`: all but the Done flag. -/
structure Keeps (s : HdmiCsr) (d : Driver) (l : List (Driver × Cycle)) : Prop where
  /-- The word of a call in progress holds the bits of the register, and Done as
  it was. -/
  word : ∀ k, d.call = some k →
    k.ctrl.getLsbD 0 = d.csr.gammaEn ∧ k.ctrl.getLsbD 1 = d.csr.dmaContEn ∧
      k.ctrl.getLsbD 2 = false ∧ k.ctrl.getLsbD 30 = k.doneAtRead ∧
      (k.doneAtRead = true → d.csr.dmaDoneSticky = true)
  gamma : d.csr.gammaEn = ((d.finished.filterMap Op.gamma).getLast?).getD s.gammaEn
  cont : d.csr.dmaContEn = ((d.finished.filterMap Op.cont).getLast?).getD s.dmaContEn
  starts : pulses l = d.finished.countP Op.starts
  others : others d.csr = others (run HdmiCsr.step s (quiet l))

variable {s : HdmiCsr} {d : Driver} {l : List (Driver × Cycle)}

theorem keeps_start (s : HdmiCsr) (ops : List Op) : Keeps s (Driver.start s ops) [] where
  word := fun k hk => by cases hk
  gamma := rfl
  cont := rfl
  starts := rfl
  others := rfl

theorem quiet_snoc (s : HdmiCsr) (l : List (Driver × Cycle)) (d : Driver) (i : Cycle) :
    run HdmiCsr.step s (quiet (l ++ [(d, i)])) =
      (run HdmiCsr.step s (quiet l)).step (d.without i) := by
  rw [quiet, List.map_append]
  exact run_snoc _ _ _ _

theorem pulses_snoc (l : List (Driver × Cycle)) (d : Driver) (i : Cycle) :
    pulses (l ++ [(d, i)]) = pulses l + (d.step i).csr.dmaStartPulse.toNat := by
  rw [pulses, List.countP_append, pulses]
  cases h : (d.step i).csr.dmaStartPulse <;> simp [h]

/-- The last value set, with one more call at the end. -/
theorem getLast_snoc {α : Type} (f : Op → Option α) (ops : List Op) (op : Op) (a : α) :
    (((ops ++ [op]).filterMap f).getLast?).getD a =
      (f op).getD (((ops.filterMap f).getLast?).getD a) := by
  rw [List.filterMap_append]
  cases h : f op with
  | none => simp [h]
  | some b => simp [h]

/-- Without a write to it the register keeps its bits, raises no pulse and does not
lose Done. -/
theorem bits_step (s : HdmiCsr) {p : HdmiCsr.Inputs}
    (hp : p.avsWrite = true → p.avsAddress ≠ 1) :
    (s.step p).gammaEn = s.gammaEn ∧ (s.step p).dmaContEn = s.dmaContEn ∧
      (s.step p).dmaStartPulse = false ∧
      (s.dmaDoneSticky = true → (s.step p).dmaDoneSticky = true) := by
  have hreg : (s.step p).regGlobalCtrl = s.regGlobalCtrl := regGlobalCtrl_step hp
  refine ⟨congrArg (BitVec.getLsbD · 0) hreg, congrArg (BitVec.getLsbD · 1) hreg, ?_, ?_⟩
  · rw [HdmiCsr.step_dmaStartPulse, start_eq_false hp]
  · intro hd
    rw [HdmiCsr.step_dmaDoneSticky_eq, clearsDone_eq_false hp, hd, Bool.or_true]
    rfl

/-- A cycle in which no call accesses the register. -/
theorem Keeps.step_quiet (h : Keeps s d l) {p : HdmiCsr.Inputs}
    (hp : p.avsWrite = true → p.avsAddress ≠ 1) (i : Cycle)
    (hstep : d.step i = { d with csr := d.csr.step p }) (hwithout : d.without i = p) :
    Keeps s (d.step i) (l ++ [(d, i)]) := by
  obtain ⟨hgamma, hcont, hpulse, hdone⟩ := bits_step d.csr hp
  refine ⟨?_, ?_, ?_, ?_, ?_⟩
  · rw [hstep]
    intro k hk
    obtain ⟨h0, h1, h2, h30, hk'⟩ := h.word k hk
    exact ⟨h0.trans hgamma.symm, h1.trans hcont.symm, h2, h30, fun hd => hdone (hk' hd)⟩
  · rw [hstep]
    exact hgamma.trans h.gamma
  · rw [hstep]
    exact hcont.trans h.cont
  · rw [pulses_snoc, hstep, hpulse]
    exact h.starts
  · rw [quiet_snoc, hwithout, hstep]
    exact others_step_congr h.others p

/-- A cycle in which a call reads the register: the word has the bits of the
register. -/
theorem Keeps.step_read (h : Keeps s d l) (i : Cycle) {op : Op} {rest : List Op}
    (hstep : d.step i =
      { d with
        csr := d.csr.step (iord i.port)
        call := some ⟨op, d.csr.readDataMux (iord i.port), d.csr.dmaDoneSticky⟩
        todo := rest })
    (hwithout : d.without i = dmaOnly i.port) : Keeps s (d.step i) (l ++ [(d, i)]) := by
  have hno : (iord i.port).avsWrite = true → (iord i.port).avsAddress ≠ 1 :=
    fun hw => absurd hw Bool.false_ne_true
  obtain ⟨hgamma, hcont, hpulse, hdone⟩ := bits_step d.csr hno
  obtain ⟨hb0, hb1, hb2, hb30⟩ := bits_iord d.csr i.port
  refine ⟨?_, ?_, ?_, ?_, ?_⟩
  · rw [hstep]
    intro k hk
    cases hk
    exact ⟨hb0.trans hgamma.symm, hb1.trans hcont.symm, hb2, hb30, hdone⟩
  · rw [hstep]
    exact hgamma.trans h.gamma
  · rw [hstep]
    exact hcont.trans h.cont
  · rw [pulses_snoc, hstep]
    dsimp only
    rw [hpulse]
    exact h.starts
  · rw [quiet_snoc, hwithout, hstep]
    exact (others_iord d.csr).trans (others_step_congr h.others _)

/-- A cycle in which a call writes its word back. -/
theorem Keeps.step_writeBack (h : Keeps s d l) (i : Cycle) {k : Call}
    (hk : d.call = some k)
    (hstep : d.step i =
      { d with
        csr := d.csr.step (iowr i.port (k.op.value k.ctrl))
        call := none
        finished := d.finished ++ [k.op] }) (hwithout : d.without i = dmaOnly i.port) :
    Keeps s (d.step i) (l ++ [(d, i)]) := by
  obtain ⟨h0, h1, h2, _, _⟩ := h.word k hk
  obtain ⟨hv0, hv1, hv2, _⟩ := k.op.value_bits k.ctrl
  obtain ⟨hb0, hb1⟩ := bits_iowr d.csr i.port (k.op.value k.ctrl)
  have hpulse : (d.csr.step (iowr i.port (k.op.value k.ctrl))).dmaStartPulse =
      k.op.starts := by
    rw [HdmiCsr.step_dmaStartPulse]
    change (k.op.value k.ctrl).getLsbD 2 = k.op.starts
    rw [hv2, h2, Bool.or_false]
  refine ⟨?_, ?_, ?_, ?_, ?_⟩
  · rw [hstep]
    intro k' hk'
    cases hk'
  · rw [hstep]
    dsimp only
    rw [hb0, hv0, h0, h.gamma, getLast_snoc]
  · rw [hstep]
    dsimp only
    rw [hb1, hv1, h1, h.cont, getLast_snoc]
  · rw [pulses_snoc, hstep]
    dsimp only
    rw [hpulse, h.starts, List.countP_append]
    cases hs : k.op.starts <;> simp [hs]
  · rw [quiet_snoc, hwithout, hstep]
    exact (others_iowr d.csr _).trans (others_step_congr h.others _)

theorem Keeps.step (h : Keeps s d l) (i : Cycle) :
    Keeps s (d.step i) (l ++ [(d, i)]) := by
  have hquiet : (dmaOnly i.port).avsWrite = true → (dmaOnly i.port).avsAddress ≠ 1 :=
    fun hw => absurd hw Bool.false_ne_true
  rcases d.step_cases i with ⟨k, ⟨hk, _⟩, hstep, hwithout⟩ | ⟨k, _, _, hstep, hwithout⟩ |
    ⟨op, rest, _, hstep, hwithout⟩ | ⟨_, hstep, hwithout⟩
  · exact h.step_writeBack i hk hstep hwithout
  · exact h.step_quiet hquiet i hstep hwithout
  · exact h.step_read i hstep hwithout
  · exact h.step_quiet i.other i hstep hwithout

theorem keeps_run (s : HdmiCsr) (ops : List Op) (js : List Cycle) :
    Keeps s (after s ops js) (log Driver.step (Driver.start s ops) js) :=
  log_invariant (P := Keeps s) (keeps_start s ops) (fun _ _ i h => h.step i) js

/-- The cycle writes a 1 to the Done bit, because Done was set at the read. -/
def acknowledges (d : Driver) (i : Cycle) : Bool :=
  match d.call with
  | some k => i.go && k.doneAtRead
  | none => false

theorem acknowledges_iff (d : Driver) (i : Cycle) :
    acknowledges d i = true ↔ ∃ k, d.Writes i k ∧ k.doneAtRead = true := by
  simp only [acknowledges, Driver.Writes]
  cases d.call with
  | none => simp
  | some k => simp [and_assoc]

/-- The Done flag with the calls. -/
theorem Keeps.done_step (h : Keeps s d l) (i : Cycle) :
    (d.step i).csr.dmaDoneSticky =
      (!acknowledges d i && (i.port.dmaDoneIn || d.csr.dmaDoneSticky)) := by
  have hquiet : (dmaOnly i.port).avsWrite = true → (dmaOnly i.port).avsAddress ≠ 1 :=
    fun hw => absurd hw Bool.false_ne_true
  have hread : (iord i.port).avsWrite = true → (iord i.port).avsAddress ≠ 1 :=
    fun hw => absurd hw Bool.false_ne_true
  rcases d.step_cases i with ⟨k, ⟨hk, hgo⟩, hstep, _⟩ | ⟨k, hk, hgo, hstep, _⟩ |
    ⟨op, rest, hk, hstep, _⟩ | ⟨hk, hstep, _⟩
  · obtain ⟨_, _, _, h30, _⟩ := h.word k hk
    obtain ⟨_, _, _, hv30⟩ := k.op.value_bits k.ctrl
    have hack : (iowr i.port (k.op.value k.ctrl)).clearsDone = acknowledges d i := by
      change (k.op.value k.ctrl).getLsbD 30 = _
      rw [hv30, h30, acknowledges, hk, hgo]
      rfl
    rw [hstep, HdmiCsr.step_dmaDoneSticky_eq, hack]
    rfl
  · have hack : acknowledges d i = false := by rw [acknowledges, hk, hgo]; rfl
    rw [hstep, HdmiCsr.step_dmaDoneSticky_eq, clearsDone_eq_false hquiet, hack]
    rfl
  · have hack : acknowledges d i = false := by rw [acknowledges, hk]
    rw [hstep, HdmiCsr.step_dmaDoneSticky_eq, clearsDone_eq_false hread, hack]
    rfl
  · have hack : acknowledges d i = false := by rw [acknowledges, hk]
    rw [hstep, HdmiCsr.step_dmaDoneSticky_eq, clearsDone_eq_false i.other, hack]

/-- The Done flag without the calls. -/
theorem done_without (w : HdmiCsr) (d : Driver) (i : Cycle) :
    (w.step (d.without i)).dmaDoneSticky = (i.port.dmaDoneIn || w.dmaDoneSticky) := by
  have hno : (d.without i).avsWrite = true → (d.without i).avsAddress ≠ 1 := by
    rw [Driver.without]
    split
    · exact fun hw => absurd hw Bool.false_ne_true
    · exact i.other
  have hin : (d.without i).dmaDoneIn = i.port.dmaDoneIn := by
    rw [Driver.without]
    split <;> rfl
  rw [HdmiCsr.step_dmaDoneSticky_eq, clearsDone_eq_false hno, hin, Bool.not_false,
    Bool.true_and]

/-- A run that acknowledges nothing by accident has the Done flag of the run
without the calls. -/
theorem done_run (s : HdmiCsr) (ops : List Op) (js : List Cycle)
    (hno : ∀ e ∈ log Driver.step (Driver.start s ops) js, acknowledges e.1 e.2 = false) :
    (after s ops js).csr.dmaDoneSticky = (reference s ops js).dmaDoneSticky := by
  have hinv := log_invariant_of (G := fun _ d i => acknowledges d i = false)
    (P := fun d l => Keeps s d l ∧
      d.csr.dmaDoneSticky = (run HdmiCsr.step s (quiet l)).dmaDoneSticky)
    ⟨keeps_start s ops, rfl⟩ ?_ js (guarded_of_log hno)
  · exact hinv.2
  · rintro d l i ⟨hk, hdone⟩ hack
    refine ⟨hk.step i, ?_⟩
    rw [hk.done_step, hack, quiet_snoc, done_without, hdone]
    rfl

/-- **The calls change their own bit only, unless Done was set when they read.**
From any state of the registers and for any program of calls, interleaved in any
way with the DMA and with other accesses: in every prefix of the run the calls
have changed what they should and nothing else, if and only if no call that has
written back had read a set Done flag. -/
theorem own_bit_only_iff (s : HdmiCsr) (ops : List Op) (is : List Cycle) :
    (∀ js, js <+: is → OwnBitOnly s ops js) ↔
      ∀ e ∈ log Driver.step (Driver.start s ops) is,
        ∀ k, e.1.Writes e.2 k → k.doneAtRead = false := by
  constructor
  · rintro hown ⟨d, i⟩ he k hw
    obtain ⟨pre, post, his, hd⟩ := (mem_log_iff _ _ _ _).1 he
    dsimp only at his hd hw
    have hk := keeps_run s ops pre
    change Keeps s (run Driver.step (Driver.start s ops) pre) _ at hk
    rw [← hd] at hk
    by_contra hset
    have hread : k.doneAtRead = true := by simpa using hset
    have hbefore := (hown pre ⟨i :: post, his.symm⟩).done
    have hafter := (hown (pre ++ [i]) ⟨post, by rw [his]; simp⟩).done
    have hlog : log Driver.step (Driver.start s ops) (pre ++ [i]) =
        log Driver.step (Driver.start s ops) pre ++ [(d, i)] := by
      rw [log_snoc, ← hd]
    have hdone : d.csr.dmaDoneSticky = true := (hk.word k hw.1).2.2.2.2 hread
    rw [reference, hlog, quiet_snoc, done_without, after, run_snoc, ← hd, hk.done_step,
      (acknowledges_iff d i).2 ⟨k, hw, hread⟩] at hafter
    rw [after, ← hd, hdone] at hbefore
    rw [reference] at hbefore
    rw [← hbefore, Bool.or_true] at hafter
    exact Bool.false_ne_true hafter
  · intro hno js hjs
    have hk := keeps_run s ops js
    refine ⟨hk.gamma, hk.cont, hk.starts, done_run s ops js ?_, hk.others⟩
    intro e he
    obtain ⟨post, rfl⟩ := hjs
    have hmem : e ∈ log Driver.step (Driver.start s ops) (js ++ post) := by
      rw [log_append]
      exact List.mem_append_left _ he
    rw [Bool.eq_false_iff, ne_eq, acknowledges_iff]
    rintro ⟨k, hw, hread⟩
    rw [hno e hmem k hw] at hread
    exact absurd hread (by decide)

/-- No access, no DMA activity. -/
def idlePort : HdmiCsr.Inputs := ⟨0, false, false, 0, false, false, false⟩

/-- The processor gets on with its calls. -/
def accessCycle : Cycle where
  port := idlePort
  go := true
  other := by decide

/-- After a completion, `set_gamma_enable(1)` loses it. -/
theorem gamma_loses_completion :
    let s := run HdmiCsr.step HdmiCsr.blank.reset [{ idlePort with dmaDoneIn := true }]
    s.dmaDoneSticky = true ∧
      ¬ OwnBitOnly s [.setGammaEnable 1] [accessCycle, accessCycle] :=
  ⟨by decide, fun h => absurd h.done (by decide)⟩

end HdmiControl
end VideoProcessing
