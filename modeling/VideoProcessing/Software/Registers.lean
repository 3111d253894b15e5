import VideoProcessing.Software.Soc

/-!
# The registers as software sees them

Of all the state of the board software controls the fields of `View`: the registers of
`hdmi_sync_gen` that it writes, how many start pulses it has asked for and how often it
has switched Cont off, and memory.
Nothing else on the board changes them, whatever the video DMA, the raster and the
clocks do (`view_idle`), and a write changes them as `View.iowr` says.

`Does I p w Q` is the weakest precondition of a program on views: from any board that
shows `w`, the program keeps `I` and ends in `Q`, whatever happens around its accesses.
-/

namespace VideoProcessing

open Lib

/-- What software controls. -/
structure View (τ : Type) where
  mode : BitVec 32
  gamma : Bool
  cont : Bool
  lutAddr : BitVec 8
  lut : BitVec 8 → BitVec 8
  bitmapAddr : BitVec 4
  bitmap : BitVec 4 → BitVec 16
  framePtr : BitVec 32
  starts : Nat
  stops : Nat
  board : Board τ

namespace View

variable {τ : Type}

/-- `IOWR` of register `reg` of `hdmi_sync_gen`. -/
def iowr (w : View τ) (reg : BitVec 3) (v : BitVec 32) : View τ :=
  match reg.toNat with
  | 0 => { w with mode := v }
  | 1 =>
      { w with
        gamma := v.getLsbD 0
        cont := v.getLsbD 1
        starts := w.starts + (v.getLsbD 2).toNat
        stops := w.stops + (w.cont && !v.getLsbD 1).toNat }
  | 2 => { w with lutAddr := v.setWidth 8 }
  | 3 => { w with lut := Function.update w.lut w.lutAddr (v.setWidth 8) }
  | 4 => { w with bitmapAddr := v.setWidth 4 }
  | 5 => { w with bitmap := Function.update w.bitmap w.bitmapAddr (v.setWidth 16) }
  | 6 => { w with framePtr := v }
  | _ => w

end View

namespace Soc

variable {τ : Type}

/-- The view of the control registers, given the rest of it. -/
def csrView (c : HdmiCsr) (starts stops : Nat) (board : Board τ) : View τ where
  mode := c.regMode
  gamma := c.gammaEn
  cont := c.dmaContEn
  lutAddr := c.regLutAddr.setWidth 8
  lut := c.lutMem
  bitmapAddr := c.regBitmapAddr.setWidth 4
  bitmap := c.charBitmap
  framePtr := c.regFramePtr
  starts := starts
  stops := stops
  board := board

/-- The view of the board. -/
def view (s : Soc τ) : View τ := csrView s.pipeline.csr s.starts s.stops s.board

section Csr

variable {c : HdmiCsr} {i : HdmiCsr.Inputs} {n k : Nat} {b : Board τ}

/-- Without a write nothing is seen. -/
theorem csrView_step_idle (h : i.avsWrite = false) :
    csrView (c.step i) (n + (c.step i).dmaStartPulse.toNat)
      (k + (c.dmaContEn && !(c.step i).dmaContEn).toNat) b = csrView c n k b := by
  have hpulse : (c.step i).dmaStartPulse = false := by
    rw [HdmiCsr.step_dmaStartPulse, HdmiCsr.Inputs.start, h]
    rfl
  have hcont : (c.step i).dmaContEn = c.dmaContEn := by
    simp only [HdmiCsr.step, h, HdmiCsr.dmaContEn, Bool.false_eq_true, if_false]
  rw [hpulse, hcont, Bool.and_not_self, Bool.toNat_false, Nat.add_zero, Nat.add_zero]
  simp only [csrView, HdmiCsr.step, h, HdmiCsr.gammaEn, HdmiCsr.dmaContEn,
    Bool.false_eq_true, if_false]

/-- The two control bits of a word written to the control register. -/
theorem control_bits (r w : BitVec 32) :
    (r.extractLsb' 2 30 ++ w.setWidth 2).getLsbD 0 = w.getLsbD 0 ∧
      (r.extractLsb' 2 30 ++ w.setWidth 2).getLsbD 1 = w.getLsbD 1 := by
  rw [BitVec.getLsbD_append, BitVec.getLsbD_append]
  simp

/-- What a write changes. -/
theorem csrView_step_write (h : i.avsWrite = true) :
    csrView (c.step i) (n + (c.step i).dmaStartPulse.toNat)
        (k + (c.dmaContEn && !(c.step i).dmaContEn).toNat) b =
      (csrView c n k b).iowr i.avsAddress i.avsWritedata := by
  have hbits := control_bits c.regGlobalCtrl i.avsWritedata
  have hpulse : (c.step i).dmaStartPulse =
      (decide (i.avsAddress.toNat = 1) && i.avsWritedata.getLsbD 2) := by
    have hone : (i.avsAddress == 1) = decide (i.avsAddress.toNat = 1) := by
      rw [Bool.eq_iff_iff, beq_iff_eq, decide_eq_true_eq, ← BitVec.toNat_inj]
      rfl
    rw [HdmiCsr.step_dmaStartPulse, HdmiCsr.Inputs.start, h, hone, Bool.true_and]
  rw [hpulse]
  by_cases hreg : i.avsAddress.toNat = 1
  · rw [View.iowr, hreg]
    simp only [csrView, HdmiCsr.step, h, if_true, HdmiCsr.write, hreg, decide_true,
      Bool.true_and]
    simp only [HdmiCsr.gammaEn, HdmiCsr.dmaContEn, hbits.1, hbits.2]
  · rw [decide_eq_false hreg, Bool.false_and, Bool.toNat_false, Nat.add_zero]
    simp only [csrView, HdmiCsr.step, h, if_true, HdmiCsr.write, View.iowr]
    generalize i.avsAddress.toNat = reg at hreg ⊢
    split <;> first
      | exact absurd rfl hreg
      | rfl
      | simp [HdmiCsr.gammaEn, HdmiCsr.dmaContEn, funext_iff, Function.update_apply]

end Csr

variable {s s' : Soc τ} {e : Event} {p : Port}

/-- An edge with an access `f` shows what the write of `f`, if it is one, changes. -/
theorem view_step (f : VideoPipeline.ClkIn → VideoPipeline.ClkIn) (hp : e.port = some p) :
    (s.step f e).view =
      if (f (s.clkIn p)).sWrite then
        s.view.iowr (f (s.clkIn p)).sAddress (f (s.clkIn p)).sWritedata
      else s.view := by
  obtain ⟨vs, hcsr⟩ := s.step_csr f hp
  have hview : (s.step f e).view =
      csrView (s.step f e).pipeline.csr
        (s.starts + (s.step f e).pipeline.csr.dmaStartPulse.toNat)
        (s.stops + (s.pipeline.csr.dmaContEn && !(s.step f e).pipeline.csr.dmaContEn).toNat)
        s.board := by
    change csrView _ (s.starts + (e.port.isSome && _).toNat) _ _ = _
    rw [hp]
    rfl
  rw [hview, hcsr]
  cases hw : (f (s.clkIn p)).sWrite with
  | false => exact csrView_step_idle hw
  | true => exact csrView_step_write hw

/-- Nothing on the board changes what software controls. -/
theorem view_idle (s : Soc τ) (e : Event) : (s.idle e).view = s.view := by
  cases hp : e.port with
  | some p => exact view_step id hp
  | none =>
      have hcsr := step_csr_of_none s id hp
      change csrView (s.step id e).pipeline.csr (s.starts + (e.port.isSome && _).toNat)
        (s.stops + (s.pipeline.csr.dmaContEn && !(s.step id e).pipeline.csr.dmaContEn).toNat) _ =
          _
      rw [hp, hcsr, Bool.and_not_self]
      rfl

/-- A write of a control register. -/
theorem view_writes (reg : BitVec 3) (v : BitVec 32) (hp : e.port = some p) :
    (s.step (writes reg v) e).view = s.view.iowr reg v :=
  view_step (writes reg v) hp

/-- A read of a control register. -/
theorem view_reads (reg : BitVec 3) (hp : e.port = some p) :
    (s.step (reads reg) e).view = s.view :=
  view_step (reads reg) hp

/-- The word that a read returns. -/
theorem readdata_reads (reg : BitVec 3) (hp : e.port = some p) :
    ∃ i : HdmiCsr.Inputs, i.avsAddress = reg ∧
      (s.step (reads reg) e).pipeline.csr.avsReaddataReg =
        s.pipeline.csr.readDataMux i := by
  obtain ⟨vs, hcsr⟩ := s.step_csr (reads reg) hp
  refine ⟨s.pipeline.csrIn (reads reg (s.clkIn p)) vs, rfl, ?_⟩
  rw [hcsr]
  rfl

/-- What software reads in the control register of the DMA: the control bits, and no
start. -/
structure Control (w : View τ) (ctrl : BitVec 32) : Prop where
  gamma : ctrl.getLsbD 0 = w.gamma
  cont : ctrl.getLsbD 1 = w.cont
  start : ctrl.getLsbD 2 = false

theorem control_readDataMux {i : HdmiCsr.Inputs} (h : i.avsAddress = 1) :
    Control s.view (s.pipeline.csr.readDataMux i) := by
  have hbits : ∀ busy done cont gamma : Bool,
      let r := BitVec.ofBool busy ++ BitVec.ofBool done ++ 0#28 ++ BitVec.ofBool cont ++
        BitVec.ofBool gamma
      r.getLsbD 0 = gamma ∧ r.getLsbD 1 = cont ∧ r.getLsbD 2 = false := by
    decide
  have haddr : i.avsAddress.toNat = 1 := by
    rw [h]
    rfl
  obtain ⟨h0, h1, h2⟩ :=
    hbits i.dmaBusy s.pipeline.csr.dmaDoneSticky s.view.cont s.view.gamma
  rw [HdmiCsr.readDataMux, haddr]
  exact ⟨h0, h1, h2⟩

theorem mode_readDataMux {i : HdmiCsr.Inputs} (h : i.avsAddress = 0) :
    s.pipeline.csr.readDataMux i = s.view.mode := by
  have haddr : i.avsAddress.toNat = 0 := by
    rw [h]
    rfl
  rw [HdmiCsr.readDataMux, haddr]
  rfl

section Programs

/-- From any board that shows `w` the program keeps `I` and ends in `Q`. -/
structure Does (P : Platform τ) {R : Type} (I : View τ → Prop) (p : Nios R) (w : View τ)
    (Q : R → View τ → Prop) : Prop where
  start : ∀ s : Soc τ, s.view = w →
    wp (device P) (fun s => I s.view) (fun r s => Q r s.view) p s

variable {P : Platform τ} {R R' : Type} {I : View τ → Prop} {w : View τ}
  {Q : R → View τ → Prop}

theorem stable_view (F : View τ → Prop) : Stable (device P) fun s => F s.view := by
  intro s e h
  change F (s.idle e).view
  rw [view_idle]
  exact h

theorem does_ret {r : R} (hI : I w) (hQ : Q r w) : Does P I (.ret r) w Q := by
  constructor
  rintro s rfl
  exact wp_ret (stable_view I) (stable_view (Q r)) hI hQ

/-- One access: what it shows afterwards decides how the program goes on. -/
theorem does_act {a : Access} {k : BitVec 32 → Nios R} (hI : I w)
    (h : ∀ (s s' : Soc τ) e p v, s.view = w → e.port = some p →
      s.access P e p a = some (v, s') → Does P I (k v) s'.view Q) :
    Does P I (.act a k) w Q := by
  constructor
  rintro s rfl
  refine wp_act (P := fun t => t.view = s.view) (stable_view fun w => w = s.view)
    (fun t ht => by rw [ht]; exact hI) ?_ rfl
  intro t e v t' ht hact
  obtain ⟨p, hp, haccess⟩ := act_eq_some hact
  exact (h t t' e p v ht hp haccess).start t' rfl

/-- An access to which only the answer matters. -/
theorem does_ask {a : Access} {k : BitVec 32 → Nios R}
    (ha : ∀ (s : Soc τ) e p, e.port = some p → ∃ v, s.access P e p a = some (v, s.idle e))
    (hI : I w) (h : ∀ v, Does P I (k v) w Q) : Does P I (.act a k) w Q := by
  refine does_act hI ?_
  rintro s s' e p v rfl hp haccess
  obtain ⟨v', hv'⟩ := ha s e p hp
  rw [haccess] at hv'
  rw [(Prod.mk.inj (Option.some.inj hv')).2, view_idle]
  exact h v

theorem does_iowr {reg : BitVec 3} {v : BitVec 32} {k : Unit → Nios R} (hI : I w)
    (h : Does P I (k ()) (w.iowr reg v) Q) :
    Does P I ((Nios.iowrHdmi reg v).bind k) w Q := by
  refine does_act hI ?_
  rintro s s' e p v' rfl hp haccess
  obtain ⟨-, rfl⟩ := Prod.mk.inj (Option.some.inj haccess)
  rw [view_writes reg v hp]
  exact h

theorem does_iordCtrl {k : BitVec 32 → Nios R} (hI : I w)
    (h : ∀ ctrl, Control w ctrl → Does P I (k ctrl) w Q) :
    Does P I ((Nios.iordHdmi Console.regDmaCtrl).bind k) w Q := by
  refine does_act hI ?_
  rintro s s' e p v rfl hp haccess
  obtain ⟨rfl, rfl⟩ := Prod.mk.inj (Option.some.inj haccess)
  obtain ⟨i, hi, hread⟩ := readdata_reads (s := s) Console.regDmaCtrl hp
  rw [view_reads _ hp, hread]
  exact h _ (control_readDataMux hi)

theorem does_iordMode {k : BitVec 32 → Nios R} (hI : I w) (h : Does P I (k w.mode) w Q) :
    Does P I ((Nios.iordHdmi Console.regPatternMode).bind k) w Q := by
  refine does_act hI ?_
  rintro s s' e p v rfl hp haccess
  obtain ⟨rfl, rfl⟩ := Prod.mk.inj (Option.some.inj haccess)
  obtain ⟨i, hi, hread⟩ := readdata_reads (s := s) Console.regPatternMode hp
  rw [view_reads _ hp, hread, mode_readDataMux hi]
  exact h

theorem does_window {v : BitVec 32} {k : Unit → Nios R} (hI : I w)
    (h : Does P I (k ()) { w with board := { w.board with window := v } } Q) :
    Does P I ((Nios.iowrSpanExtender 0 v).bind k) w Q := by
  refine does_act hI ?_
  rintro s s' e p v' rfl hp haccess
  obtain ⟨-, rfl⟩ := Prod.mk.inj (Option.some.inj haccess)
  have hview : ({ s.idle e with board := { s.board with window := v } } : Soc τ).view =
      { s.view with board := { s.board with window := v } } := by
    rw [← view_idle s e]
    rfl
  rw [if_pos rfl, hview]
  exact h

theorem does_store {addr v : BitVec 32} {k : Unit → Nios R} (hI : I w)
    (h : Does P I (k ()) { w with board := w.board.store addr v } Q) :
    Does P I ((Nios.store addr v).bind k) w Q := by
  refine does_act hI ?_
  rintro s s' e p v' rfl hp haccess
  obtain ⟨-, rfl⟩ := Prod.mk.inj (Option.some.inj haccess)
  have hview : ({ s.idle e with board := s.board.store addr v } : Soc τ).view =
      { s.view with board := s.board.store addr v } := by
    rw [← view_idle s e]
    rfl
  rw [hview]
  exact h

/-- A self-test leaves memory as it likes, and the window to what the menu sets next. -/
theorem does_test {a : Access} (ha : a = .ocmToDdrTest ∨ a = .ddrToDdrTest)
    {k : BitVec 32 → Nios R} (hI : I w)
    (h : ∀ v b, Does P I (k v) { w with board := b } Q) : Does P I (.act a k) w Q := by
  refine does_act hI ?_
  rintro s s' e p v rfl hp haccess
  have hview : ∃ b, s' = { s.idle e with board := b } := by
    rcases ha with rfl | rfl <;>
    · obtain ⟨r, -, hr⟩ := Option.map_eq_some_iff.1 haccess
      exact ⟨r.2, (Prod.mk.inj hr).2.symm⟩
  obtain ⟨b, rfl⟩ := hview
  have hboard : ({ s.idle e with board := b } : Soc τ).view =
      { s.view with board := b } := by
    rw [← view_idle s e]
    rfl
  rw [hboard]
  exact h v b

/-- The upper half of the window's base is not wired. -/
theorem does_windowHigh {v : BitVec 32} {k : Unit → Nios R} (hI : I w)
    (h : Does P I (k ()) w Q) :
    Does P I ((Nios.iowrSpanExtender 4 v).bind k) w Q := by
  refine does_act hI ?_
  rintro s s' e p v' rfl hp haccess
  obtain ⟨-, rfl⟩ := Prod.mk.inj (Option.some.inj haccess)
  rw [if_neg (by decide)]
  change Does P I (k ()) (s.idle e).view Q
  rw [view_idle]
  exact h

theorem does_bind {p : Nios R} {f : R → Nios R'} {Q : R' → View τ → Prop}
    (h : Does P I p w fun r w' => Does P I (f r) w' Q) : Does P I (p.bind f) w Q := by
  constructor
  intro s hs
  refine wp_bind (wp_mono (fun _ h => h) ?_ (h.start s hs))
  exact fun r t ht => ht.start t rfl

theorem Does.mono {I' : View τ → Prop} {Q' : R → View τ → Prop} {p : Nios R}
    (h : Does P I p w Q) (hI : ∀ w, I w → I' w) (hQ : ∀ r w, Q r w → Q' r w) :
    Does P I' p w Q' where
  start s hs := wp_mono (fun t => hI t.view) (fun r t => hQ r t.view) (h.start s hs)

theorem does_upTo {body : Nat → Nios Unit} (F : Nat → View τ → Prop) {n : Nat}
    (hI : ∀ w, F 0 w → I w)
    (hbody : ∀ i w, i < n → F i w → Does P I (body i) w fun _ => F (i + 1)) (h0 : F 0 w) :
    Does P I (Prog.upTo n body) w fun _ => F n := by
  constructor
  rintro s rfl
  refine wp_upTo (fun i (t : Soc τ) => F i t.view) ?_ ?_ h0
  · exact fun t ht => (does_ret (hI _ ht) ht).start t rfl
  · exact fun i t hi ht => (hbody i t.view hi ht).start t rfl

/-- Accesses to the PIO and to the I2C controller show nothing. -/
theorem does_asks {p : Nios R} (hp : p.Only Access.Asks) (hI : I w) :
    Does P I p w fun _ w' => w' = w := by
  constructor
  rintro s rfl
  have hkeeps :
      wp (device P) (fun t => t.view = s.view) (fun _ t => t.view = s.view) p s := by
    refine wp_keeps (T := Access.Asks) (stable_view fun w => w = s.view) ?_ hp rfl
    intro t e a v t' ha ht hact
    obtain ⟨p, hport, haccess⟩ := act_eq_some hact
    have hidle : t' = t.idle e := by
      cases a <;> first
        | exact ha.elim
        | exact (Prod.mk.inj (Option.some.inj haccess)).2.symm
    rw [hidle, view_idle]
    exact ht
  exact wp_mono (fun t (ht : t.view = s.view) => ht ▸ hI) (fun _ _ ht => ht) hkeeps

end Programs

end Soc
end VideoProcessing
