import Mathlib.Logic.Function.Iterate
import VideoProcessing.Video.VsyncSync

/-!
# Runs in which only the raster moves

Between two events of interest a run of `video_pipeline` may last hundreds of
thousands of cycles in which the two clocks alternate and nothing but the raster
changes.  `run_rounds` gives the state after such a stretch in closed form.
-/

namespace VideoProcessing

open Lib

namespace SimpleDcfifo

variable {dw aw : Nat}

/-- A `wrclk` edge without a write, when the read pointer is known. -/
theorem WrSide.edge_still {t : WrSide dw aw} {g : BitVec (aw + 1)}
    (h1 : t.rdPtrGraySync1 = g) (h2 : t.rdPtrGraySync2 = g) (data : BitVec dw) :
    t.edge g false data = t := by
  cases t
  simp_all [WrSide.edge, WrSide.accepts]

/-- A `rdclk` edge without a read, when the write pointer is known. -/
theorem RdSide.edge_still {t : RdSide dw aw} {g : BitVec (aw + 1)}
    (h1 : t.wrPtrGraySync1 = g) (h2 : t.wrPtrGraySync2 = g) (mem : BitVec aw → BitVec dw) :
    t.edge g mem false = t := by
  cases t
  simp_all [RdSide.edge, RdSide.accepts]

end SimpleDcfifo

namespace VideoPipeline

open HdmiPixel (vsAt vsStart)

/-- `n` rounds of a `clk_50` edge and a `clk_hdmi` edge. -/
def rounds (c : ClkIn) : Nat → List Event
  | 0 => []
  | n + 1 => .clk50 c :: .clkHdmi :: rounds c n

/-- The position of the raster, counted from the first pixel. -/
def pos (s : HdmiPixel) : Nat := 1120 * s.vCnt.toNat + s.hCnt.toNat

/-- The pixel registers at `(h, v)`, well after the end of the line's sync. -/
def blankAt (h v : BitVec 12) (vs toggle : Bool) : HdmiPixel where
  hCnt := h
  vCnt := v
  visibleD1 := false
  hsD1 := false
  vsD1 := vs
  hdmiD := 0
  hdmiDe := false
  hdmiHs := true
  hdmiVs := !vs
  vsToggle := toggle

/-- The `clk_50` edge `c` changes no register, and no pixel clock that does not read
changes the FIFO. -/
def still (c : ClkIn) (s : VideoPipeline) : Bool :=
  !c.sRead && !c.sWrite && (s.dmaFifo.bus.returned (s.busCycle c)).isNone &&
    !s.dmaFifo.bus.triggers (s.busCycle c) &&
    decide (s.dmaFifo.bus.step DmaFifo.frameSizeWords (s.busCycle c) = s.dmaFifo.bus) &&
    s.dmaFifo.fifo.wr.rdPtrGraySync1 == s.dmaFifo.fifo.rd.rdPtrGray &&
    s.dmaFifo.fifo.wr.rdPtrGraySync2 == s.dmaFifo.fifo.rd.rdPtrGray &&
    s.dmaFifo.fifo.rd.wrPtrGraySync1 == s.dmaFifo.fifo.wr.wrPtrGray &&
    s.dmaFifo.fifo.rd.wrPtrGraySync2 == s.dmaFifo.fifo.wr.wrPtrGray &&
    !s.csr.dmaStartPulse && !s.dmaFifo.bus.dma.dmaDone && !s.csr.avsReaddatavalid &&
    shiftIn s.csr.vsSyncSh (s.pixel.vsWire params) == s.csr.vsSyncSh && !s.csr.vsRise &&
    shiftIn s.vsyncToggleSync50 s.pixel.vsToggle == s.vsyncToggleSync50

variable {s : VideoPipeline} {c : ClkIn}

/-- A quiet `clk_50` edge of the control registers. -/
theorem csr_step_still {t : HdmiCsr} {i : HdmiCsr.Inputs} (hr : i.avsRead = false)
    (hw : i.avsWrite = false) (hd : i.dmaDoneIn = false) (hstart : t.dmaStartPulse = false)
    (hvalid : t.avsReaddatavalid = false) (hsh : shiftIn t.vsSyncSh i.vsWire = t.vsSyncSh)
    (hrise : t.vsRise = false) : t.step i = t := by
  cases t
  simp_all [HdmiCsr.step]

/-- A still state is left alone by the `clk_50` edge. -/
theorem step_clk50_still (h : still c s = true) : s.step (.clk50 c) = s := by
  simp only [still, Bool.and_eq_true, Bool.not_eq_true', decide_eq_true_eq, beq_iff_eq,
    Option.isNone_iff_eq_none] at h
  obtain ⟨⟨⟨⟨⟨⟨⟨⟨⟨⟨⟨⟨⟨⟨hr, hw⟩, hret⟩, _⟩, hbus⟩, hsync1⟩, hsync2⟩, _⟩, _⟩, hstart⟩, hdone⟩,
    hvalid⟩, hsh⟩, hrise⟩, htog⟩ := h
  have hcsr : s.csr.step (s.csrIn c (s.pixel.vsWire params)) = s.csr :=
    csr_step_still hr hw hdone hstart hvalid hsh hrise
  have hen : VideoDmaMaster.fifoWrEn (s.dmaFifo.inputs (s.dmaIn c)) = false := by
    change (s.dmaFifo.bus.returned (s.busCycle c)).isSome = false
    rw [hret]
    rfl
  have hwr : s.dmaFifo.fifo.wr.edge s.dmaFifo.fifo.rd.rdPtrGray
      (VideoDmaMaster.fifoWrEn (s.dmaFifo.inputs (s.dmaIn c)))
      (VideoDmaMaster.fifoWrData (s.dmaFifo.inputs (s.dmaIn c))) = s.dmaFifo.fifo.wr := by
    rw [hen]
    exact SimpleDcfifo.WrSide.edge_still hsync1 hsync2 _
  change VideoPipeline.mk
    ⟨s.dmaFifo.bus.step DmaFifo.frameSizeWords (s.busCycle c), ⟨s.dmaFifo.fifo.wr.edge _ _ _, _⟩⟩
    (s.csr.step _) s.pixel (shiftIn _ _) = s
  rw [hbus, hwr, hcsr, htog]

/-- A pixel clock of a still state moves the raster only. -/
theorem step_clkHdmi_still (h : still c s = true) (hrd : s.streamRdEn = false) :
    s.step .clkHdmi = { s with pixel := s.pixelNext } := by
  simp only [still, Bool.and_eq_true, beq_iff_eq] at h
  obtain ⟨⟨⟨⟨⟨⟨⟨⟨_, hsync1⟩, hsync2⟩, _⟩, _⟩, _⟩, _⟩, _⟩, _⟩ := h
  change VideoPipeline.mk
    ⟨s.dmaFifo.bus, ⟨s.dmaFifo.fifo.wr, s.dmaFifo.fifo.rd.edge _ _ s.streamRdEn⟩⟩ s.csr
    s.pixelNext s.vsyncToggleSync50 = _
  rw [hrd, SimpleDcfifo.RdSide.edge_still hsync1 hsync2]

/-- In a still state no frame is triggered and no word is returned. -/
theorem quiet_of_still (h : still c s = true) :
    s.triggers (.clk50 c) = false ∧ s.dmaFifo.bus.returned (s.busCycle c) = none := by
  simp only [still, Bool.and_eq_true, Bool.not_eq_true', Option.isNone_iff_eq_none] at h
  obtain ⟨⟨⟨⟨⟨⟨⟨⟨⟨⟨⟨⟨⟨_, hret⟩, ht⟩, _⟩, _⟩, _⟩, _⟩, _⟩, _⟩, _⟩, _⟩, _⟩, _⟩, _⟩ := h
  exact ⟨ht, hret⟩

/-- Stillness looks at the VSync level and the toggle only. -/
theorem still_congr {p : HdmiPixel} (hw : p.vsWire params = s.pixel.vsWire params)
    (ht : p.vsToggle = s.pixel.vsToggle) :
    still c { s with pixel := p } = still c s := by
  unfold still
  simp only [hw, ht]
  rfl

section Position

variable {p : HdmiPixel}

theorem pos_vsWire (h : p.Raster params) :
    p.vsWire params = decide (608160 ≤ pos p ∧ pos p < 613760) := by
  have hh : p.hCnt.toNat < 1120 := h.h_lt
  rw [HdmiPixel.vsWire, Bool.eq_iff_iff, Bool.and_eq_true, decide_eq_true_eq,
    decide_eq_true_eq, decide_eq_true_eq]
  change 543 ≤ p.vCnt.toNat ∧ p.vCnt.toNat < 548 ↔ _
  unfold pos
  omega

theorem pos_flips (h : p.Raster params) (hne : pos p ≠ 608160) :
    p.flips params = false := by
  rw [Bool.eq_false_iff]
  intro hf
  obtain ⟨hz, hv⟩ := h.flips_iff.1 hf
  have hv' : p.vCnt.toNat = 543 := hv
  unfold pos at hne
  omega

theorem pos_not_visible (h : p.Raster params) (hpos : 604800 ≤ pos p) :
    p.visible params = false := by
  have hh : p.hCnt.toNat < 1120 := h.h_lt
  rw [HdmiPixel.visible, Bool.and_eq_false_iff, decide_eq_false_iff_not]
  right
  rw [decide_eq_false_iff_not]
  change ¬ p.vCnt.toNat < 540
  unfold pos at hpos
  omega

theorem pos_step (h : p.Raster params) (hpos : pos p + 1 < 630560) (t : HdmiCsr)
    (d : BitVec 24) : pos (p.step params t d) = pos p + 1 := by
  have hh : p.hCnt.toNat < 1120 := h.h_lt
  have hstep : (p.step params t d).hCnt.toNat =
      if p.hCnt.toNat = 1119 then 0 else p.hCnt.toNat + 1 := h.step_hCnt t d
  have vstep : (p.step params t d).vCnt.toNat =
      if p.hCnt.toNat = 1119 then if p.vCnt.toNat = 562 then 0 else p.vCnt.toNat + 1
      else p.vCnt.toNat := h.step_vCnt t d
  unfold pos at hpos ⊢
  rw [hstep, vstep]
  split
  · rw [if_neg (by omega)]
    omega
  · omega

end Position

/-- From position `a` to position `b` the VSync level does not change. -/
def LevelKept (a b : Nat) : Prop :=
  b < 608160 ∨ (608160 < a ∧ b < 613760) ∨ (613760 ≤ a ∧ b < 630560)

/-- An event of a stretch in which only the raster moves. -/
structure Quiet (s : VideoPipeline) (c : ClkIn) (x : VideoPipeline × Event) : Prop where
  same : x.1 = { s with pixel := x.1.pixel }
  noRead : x.1.streamRdEn = false
  noRise : x.1.vsyncRise x.2 = false
  noTrigger : x.1.triggers x.2 = false
  noWord : ∀ c', x.2.clkIn = some c' → x.1.dmaFifo.bus.returned (x.1.busCycle c') = none
  event : x.2 = .clk50 c ∨ x.2 = .clkHdmi

/-- The pixel registers after `n` pixel clocks that change nothing else. -/
def pixelAfter (s : VideoPipeline) (n : Nat) : HdmiPixel :=
  (fun p : HdmiPixel => p.step params s.csr s.streamDataIn)^[n] s.pixel

/-- After `n` rounds from a still state only the raster has moved. -/
theorem run_rounds (h : still c s = true) (hr : s.pixel.Raster params) (n : Nat)
    (hz : LevelKept (pos s.pixel) (pos s.pixel + n))
    (hread : s.csr.mode ≠ 8 ∨ 604800 ≤ pos s.pixel) :
    run step s (rounds c n) = { s with pixel := s.pixelAfter n } ∧
      (s.pixelAfter n).Raster params ∧ pos (s.pixelAfter n) = pos s.pixel + n ∧
      (s.pixelAfter n).vsToggle = s.pixel.vsToggle ∧
      ∀ x ∈ log step s (rounds c n), Quiet s c x := by
  induction n generalizing s with
  | zero => exact ⟨rfl, hr, rfl, rfl, fun x hx => absurd hx (by simp [rounds])⟩
  | succ n ih =>
      have hpos : pos s.pixelNext = pos s.pixel + 1 :=
        pos_step hr (by unfold LevelKept at hz; omega) _ _
      have hr' : s.pixelNext.Raster params := hr.step _ _
      have hw : s.pixelNext.vsWire params = s.pixel.vsWire params := by
        rw [pos_vsWire hr, pos_vsWire hr', decide_eq_decide]
        unfold LevelKept at hz
        omega
      have htog : s.pixelNext.vsToggle = s.pixel.vsToggle := by
        rw [pixelNext_vsToggle, pos_flips hr (by unfold LevelKept at hz; omega),
          Bool.xor_false]
      have hrd : s.streamRdEn = false := by
        rw [streamRdEn, HdmiPixel.streamRdEn]
        rcases hread with hm | hpos'
        · rw [beq_false_of_ne hm, Bool.and_false]
        · rw [pos_not_visible hr hpos', Bool.false_and, Bool.false_and]
      have hstill' : still c { s with pixel := s.pixelNext } = true := by
        rw [still_congr hw htog]
        exact h
      have hz' : LevelKept (pos s.pixelNext) (pos s.pixelNext + n) := by
        unfold LevelKept at hz ⊢
        omega
      obtain ⟨hrun, hrp, hpp, htp, hlog⟩ := ih hstill' hr' hz'
        (hread.imp_right fun hp => by change 604800 ≤ pos s.pixelNext; omega)
      have hone : step (step s (.clk50 c)) .clkHdmi = { s with pixel := s.pixelNext } := by
        rw [step_clk50_still h, step_clkHdmi_still h hrd]
      refine ⟨?_, hrp, ?_, htp.trans htog, ?_⟩
      · rw [rounds, run_cons, run_cons, hone]
        exact hrun
      · refine hpp.trans ?_
        change pos s.pixelNext + n = _
        omega
      · rw [rounds, log_cons, log_cons, hone, step_clk50_still h]
        intro x hx
        rw [List.mem_cons, List.mem_cons] at hx
        obtain ⟨htrig, hret⟩ := quiet_of_still h
        rcases hx with rfl | rfl | hx
        · refine ⟨rfl, hrd, rfl, htrig, ?_, Or.inl rfl⟩
          intro c' hc'
          rw [← Option.some.inj hc']
          exact hret
        · refine ⟨rfl, hrd, ?_, rfl, fun c' hc' => absurd hc' (by simp [Event.clkIn]),
            Or.inr rfl⟩
          change (true && (!s.pixel.vsWire params && s.pixelNext.vsWire params)) = false
          rw [hw]
          cases s.pixel.vsWire params <;> rfl
        · have hq := hlog x hx
          exact ⟨hq.same, hq.noRead, hq.noRise, hq.noTrigger, hq.noWord, hq.event⟩

/-- A pixel clock in the back porch of a line. -/
theorem step_back {p : HdmiPixel} (hr : p.Raster params) (hlo : 1040 ≤ p.hCnt.toNat)
    (hhi : p.hCnt.toNat ≤ 1118) (t : HdmiCsr) (d : BitVec 24) :
    p.step params t d =
      { p with
        hCnt := p.hCnt + 1
        visibleD1 := false
        hsD1 := false
        vsD1 := p.vsWire params
        hdmiD := 0
        hdmiDe := false
        hdmiHs := !p.hsD1
        hdmiVs := !p.vsWire params } := by
  have hne : ¬ p.hCnt.toNat = params.hTotal - 1 := by
    change ¬ p.hCnt.toNat = 1119
    omega
  have hd : p.vsD1 = p.vsWire params := by
    rw [hr.vsD1, if_neg (by omega)]
    rfl
  have hv1 : p.visibleD1 = false := by
    rw [hr.visibleD1, decide_eq_false_iff_not]
    rintro ⟨_, hc, _⟩
    have hc' : p.hCnt.toNat ≤ 960 := hc
    omega
  have hvis : p.visible params = false := by
    rw [HdmiPixel.visible, Bool.and_eq_false_iff, decide_eq_false_iff_not]
    left
    change ¬ p.hCnt.toNat < 960
    omega
  have hhs : p.hsWire params = false := by
    rw [HdmiPixel.hsWire, Bool.and_eq_false_iff, decide_eq_false_iff_not (p := _ < _)]
    right
    change ¬ p.hCnt.toNat < 1040
    omega
  simp only [HdmiPixel.step, if_neg hne, hd, hv1, hvis, hhs, Bool.and_not_self,
    Bool.false_eq_true, if_false]

/-- Two pixel clocks in the back porch fill all pixel registers. -/
theorem step_step_blank {p : HdmiPixel} (hr : p.Raster params) (hlo : 1040 ≤ p.hCnt.toNat)
    (hhi : p.hCnt.toNat ≤ 1117) (t t' : HdmiCsr) (d d' : BitVec 24) :
    (p.step params t d).step params t' d' =
      blankAt (p.hCnt + 2) p.vCnt (p.vsWire params) p.vsToggle := by
  have hone : (p.hCnt + 1).toNat = p.hCnt.toNat + 1 :=
    BitVec.toNat_add_of_lt (y := 1#12) (by simp; omega)
  have hr' := hr.step t d
  rw [step_back hr hlo (by omega)] at hr' ⊢
  rw [step_back hr' (by change 1040 ≤ (p.hCnt + 1).toNat; omega)
    (by change (p.hCnt + 1).toNat ≤ 1118; omega), blankAt, BitVec.add_assoc]
  rfl

/-- A stretch that ends in the back porch of a line leaves known pixel registers. -/
theorem run_rounds_blank (h : still c s = true) (hr : s.pixel.Raster params) (n : Nat)
    (hc vc : BitVec 12) (hend : pos s.pixel + n = 1120 * vc.toNat + hc.toNat)
    (hlo : 1042 ≤ hc.toNat) (hhi : hc.toNat ≤ 1119) (hn : 2 ≤ n)
    (hz : LevelKept (pos s.pixel) (pos s.pixel + n))
    (hread : s.csr.mode ≠ 8 ∨ 604800 ≤ pos s.pixel) :
    run step s (rounds c n) =
        { s with pixel := blankAt hc vc (s.pixel.vsWire params) s.pixel.vsToggle } ∧
      ∀ x ∈ log step s (rounds c n), Quiet s c x := by
  obtain ⟨m, rfl⟩ : ∃ m, n = m + 2 := ⟨n - 2, by omega⟩
  obtain ⟨hrun, _, _, _, hlog⟩ := run_rounds h hr (m + 2) hz hread
  have hz' : LevelKept (pos s.pixel) (pos s.pixel + m) := by
    unfold LevelKept at hz ⊢
    omega
  obtain ⟨_, hrm, hpm, htm, _⟩ := run_rounds h hr m hz' hread
  refine ⟨?_, hlog⟩
  have hhm : (s.pixelAfter m).hCnt.toNat < 1120 := hrm.h_lt
  have hh : (s.pixelAfter m).hCnt.toNat + 2 = hc.toNat := by
    unfold pos at hpm hend
    omega
  have hv : (s.pixelAfter m).vCnt = vc := by
    apply BitVec.eq_of_toNat_eq
    unfold pos at hpm hend
    omega
  have hh' : (s.pixelAfter m).hCnt + 2 = hc := by
    apply BitVec.eq_of_toNat_eq
    rw [← hh]
    exact BitVec.toNat_add_of_lt (y := 2#12) (by simp; omega)
  have hw : (s.pixelAfter m).vsWire params = s.pixel.vsWire params := by
    rw [pos_vsWire hrm, pos_vsWire hr, decide_eq_decide, hpm]
    unfold LevelKept at hz'
    omega
  have hp : s.pixelAfter (m + 2) =
      blankAt hc vc (s.pixel.vsWire params) s.pixel.vsToggle := by
    rw [pixelAfter, Function.iterate_succ_apply', Function.iterate_succ_apply',
      ← pixelAfter, step_step_blank hrm (by omega) (by omega), hh', hv, hw, htm]
  rw [hrun, hp]

section Rounds

@[simp] theorem coveredRun_rounds (b : Bool) (c : ClkIn) (n : Nat) :
    coveredRun b (rounds c n) = true := by
  induction n generalizing b with
  | zero => rfl
  | succ n ih => exact ih false

@[simp] theorem coveredRun_clk50 (b : Bool) (c : ClkIn) (n : Nat) :
    coveredRun b (List.replicate n (.clk50 c)) = true := by
  induction n generalizing b with
  | zero => rfl
  | succ n ih => exact ih true

theorem raster_run (h : s.pixel.Raster params) (es : List Event) :
    (run step s es).pixel.Raster params :=
  run_invariant (P := fun s : VideoPipeline => s.pixel.Raster params) h
    (fun s e h => by
      cases e with
      | clk50 c => exact h
      | clkHdmi => exact h.step _ _
      | both c rdMask wrMask vsNew toggleNew => exact h.step _ _) es

end Rounds

/-- The slave stalls. -/
def stallIn : ClkIn := { quietIn with mWaitrequest := true, ret := none }

/-- The slave accepts a command. -/
def acceptIn : ClkIn := { quietIn with ret := none }

/-- The slave returns the word `d`. -/
def dataIn (d : BitVec 32) : ClkIn := { quietIn with mWaitrequest := true, ret := some d }

/-- Software writes a control register. -/
def writeIn (address : BitVec 3) (data : BitVec 32) : ClkIn :=
  { stallIn with sAddress := address, sWrite := true, sWritedata := data }

section Pieces

/-!
A long run in pieces: events that are computed one by one, and rests in which only the
raster moves.  `Piece.checks` is computed, and `run_pieces` tells what it says about the
whole run.
-/

/-- Events one by one, `n` edges of `clk_50` that change nothing, or `n` rounds of rest
up to column `hc` of line `vc`. -/
inductive Piece
  | events (es : List Event)
  | hold (n : Nat)
  | rest (n : Nat) (hc vc : BitVec 12)

namespace Piece

/-- The events of a piece. -/
def unfold : Piece → List Event
  | .events es => es
  | .hold n => List.replicate n (.clk50 stallIn)
  | .rest n _ _ => rounds stallIn n

/-- The state after a piece. -/
def apply (s : VideoPipeline) : Piece → VideoPipeline
  | .events es => run step s es
  | .hold _ => s
  | .rest _ hc vc =>
      { s with pixel := blankAt hc vc (s.pixel.vsWire params) s.pixel.vsToggle }

instance (a b : Nat) : Decidable (LevelKept a b) :=
  inferInstanceAs (Decidable (_ ∨ _ ∧ _ ∨ _ ∧ _))

/-- The rest may begin in this state, and it ends in the back porch of a line. -/
def restful (s : VideoPipeline) (n : Nat) (hc vc : BitVec 12) : Bool :=
  still stallIn s && decide (pos s.pixel + n = 1120 * vc.toNat + hc.toNat) &&
    decide (1042 ≤ hc.toNat ∧ hc.toNat ≤ 1119 ∧ 2 ≤ n) &&
    decide (LevelKept (pos s.pixel) (pos s.pixel + n)) &&
    decide (s.csr.mode ≠ 8 ∨ 604800 ≤ pos s.pixel)

/-- `f` holds at every event, in a rest because `r` holds of the state it begins in. -/
def checks (f : VideoPipeline × Event → Bool) (r : VideoPipeline → Bool)
    (s : VideoPipeline) :
    Piece → Bool
  | .events es => (log step s es).all f
  | .hold _ => still stallIn s && !s.streamRdEn && r s
  | .rest n hc vc => restful s n hc vc && r s

/-- The log of the events that are not at rest. -/
def active (s : VideoPipeline) : Piece → List (VideoPipeline × Event)
  | .events es => log step s es
  | .hold _ => []
  | .rest _ _ _ => []

/-- Every pixel clock of the piece has its `clk_50` edge, wherever the piece begins. -/
def covered : Piece → Bool
  | .events es => coveredRun false es && coveredRun true es
  | .hold _ => true
  | .rest _ _ _ => true

end Piece

/-- The events of the pieces. -/
def unfoldAll (ps : List Piece) : List Event := ps.flatMap Piece.unfold

/-- The state after the pieces. -/
def applyAll (s : VideoPipeline) (ps : List Piece) : VideoPipeline :=
  ps.foldl Piece.apply s

def checksAll (f : VideoPipeline × Event → Bool) (r : VideoPipeline → Bool)
    (s : VideoPipeline) : List Piece → Bool
  | [] => true
  | p :: ps => p.checks f r s && checksAll f r (p.apply s) ps

def activeAll (s : VideoPipeline) : List Piece → List (VideoPipeline × Event)
  | [] => []
  | p :: ps => p.active s ++ activeAll (p.apply s) ps

variable {f : VideoPipeline × Event → Bool} {r : VideoPipeline → Bool}

/-- `clk_50` edges in a still state. -/
theorem run_hold (h : still c s = true) (hread : s.streamRdEn = false) (n : Nat) :
    run step s (List.replicate n (.clk50 c)) = s ∧
      ∀ x ∈ log step s (List.replicate n (.clk50 c)), Quiet s c x := by
  obtain ⟨htrig, hret⟩ := quiet_of_still h
  induction n with
  | zero => exact ⟨rfl, fun x hx => absurd hx List.not_mem_nil⟩
  | succ n ih =>
      rw [List.replicate_succ, run_cons, log_cons, step_clk50_still h]
      refine ⟨ih.1, fun x hx => ?_⟩
      rcases List.mem_cons.1 hx with rfl | hx
      · refine ⟨rfl, hread, rfl, htrig, ?_, Or.inl rfl⟩
        intro c' hc'
        rw [← Option.some.inj hc']
        exact hret
      · exact ih.2 x hx

theorem run_piece (hf : ∀ s x, r s = true → Quiet s stallIn x → f x = true)
    (hr : s.pixel.Raster params) (p : Piece) (h : p.checks f r s = true) :
    run step s p.unfold = p.apply s ∧ (∀ x ∈ log step s p.unfold, f x = true) ∧
      ∀ {α : Type} (g : VideoPipeline × Event → Option α),
        (∀ s x, Quiet s stallIn x → g x = none) →
        (log step s p.unfold).filterMap g = (p.active s).filterMap g := by
  cases p with
  | events es => exact ⟨rfl, List.all_eq_true.1 h, fun g _ => rfl⟩
  | hold n =>
      simp only [Piece.checks, Bool.and_eq_true, Bool.not_eq_true'] at h
      obtain ⟨hrun, hlog⟩ := run_hold h.1.1 h.1.2 n
      refine ⟨hrun, fun x hx => hf s x h.2 (hlog x hx), fun g hg => ?_⟩
      rw [Piece.active, List.filterMap_nil, List.filterMap_eq_nil_iff]
      exact fun x hx => hg s x (hlog x hx)
  | rest n hc vc =>
      simp only [Piece.checks, Piece.restful, Bool.and_eq_true, decide_eq_true_eq] at h
      obtain ⟨⟨⟨⟨⟨hstill, hend⟩, hlo, hhi, hn⟩, hz⟩, hread⟩, hrest⟩ := h
      obtain ⟨hrun, hlog⟩ := run_rounds_blank hstill hr n hc vc hend hlo hhi hn hz hread
      refine ⟨hrun, fun x hx => hf s x hrest (hlog x hx), fun g hg => ?_⟩
      rw [Piece.active, List.filterMap_nil, List.filterMap_eq_nil_iff]
      exact fun x hx => hg s x (hlog x hx)

/-- The state after the pieces, what holds at every event, and what the rests leave out. -/
theorem run_pieces (hf : ∀ s x, r s = true → Quiet s stallIn x → f x = true)
    (hr : s.pixel.Raster params) (ps : List Piece) (h : checksAll f r s ps = true) :
    run step s (unfoldAll ps) = applyAll s ps ∧ (∀ x ∈ log step s (unfoldAll ps), f x = true) ∧
      ∀ {α : Type} (g : VideoPipeline × Event → Option α),
        (∀ s x, Quiet s stallIn x → g x = none) →
        (log step s (unfoldAll ps)).filterMap g = (activeAll s ps).filterMap g := by
  induction ps generalizing s with
  | nil => exact ⟨rfl, fun x hx => absurd hx List.not_mem_nil, fun g _ => rfl⟩
  | cons p ps ih =>
      rw [checksAll, Bool.and_eq_true] at h
      obtain ⟨hrun, hall, hgather⟩ := run_piece hf hr p h.1
      have hr' : (p.apply s).pixel.Raster params := by
        rw [← hrun]
        exact raster_run hr p.unfold
      obtain ⟨hruns, halls, hgathers⟩ := ih hr' h.2
      have hunfold : unfoldAll (p :: ps) = p.unfold ++ unfoldAll ps := rfl
      rw [hunfold, run_append, log_append, hrun]
      refine ⟨hruns, ?_, ?_⟩
      · intro x hx
        rcases List.mem_append.1 hx with hx | hx
        · exact hall x hx
        · exact halls x hx
      · intro α g hg
        rw [activeAll, List.filterMap_append, List.filterMap_append, hgather g hg,
          hgathers g hg]

theorem coveredRun_pieces (ps : List Piece) (h : ps.all Piece.covered = true) (b : Bool) :
    coveredRun b (unfoldAll ps) = true := by
  induction ps generalizing b with
  | nil => rfl
  | cons p ps ih =>
      rw [List.all_cons, Bool.and_eq_true] at h
      change coveredRun b (p.unfold ++ unfoldAll ps) = true
      rw [coveredRun_append, ih h.2, Bool.and_true]
      cases p with
      | events es =>
          have hcov := h.1
          rw [Piece.covered, Bool.and_eq_true] at hcov
          cases b with
          | false => exact hcov.1
          | true => exact hcov.2
      | hold n => exact coveredRun_clk50 b stallIn n
      | rest n hc vc => exact coveredRun_rounds b stallIn n

end Pieces

section FirstFrame

/-!
A run through the first frame after a reset: nothing happens until the first VSync,
where software selects mode 8 and sets Cont; the slave returns some bursts and then
stalls up to a position of the first line.  `left` says whether the FIFO holds a burst of
an earlier frame that the reset cut off.
-/

/-- A Start and the first burst of its frame. -/
def fetchLeft : List Event :=
  [.clk50 (writeIn 1 4), .clk50 stallIn, .clk50 stallIn, .clk50 acceptIn] ++
    List.replicate 64 (.clk50 (dataIn 7))

/-- After the reset. -/
def fresh (left : Bool) : VideoPipeline :=
  if left then (run step (init (fun _ => 0) HdmiCsr.blank) fetchLeft).reset
  else init (fun _ => 0) HdmiCsr.blank

/-- From the cycle after the pulse: `n` bursts of the frame, whose words are `word`. -/
def fetch (word : Nat → BitVec 32) (n : Nat) : List Event :=
  [.clkHdmi, .clk50 stallIn] ++
    (List.range n).flatMap (fun b => .clk50 acceptIn ::
      (List.range 64).map fun k => .clk50 (dataIn (word (64 * b + k)))) ++
    rounds stallIn 4

/-- One burst of nines. -/
def fetchFrame : List Event := fetch (fun _ => 9) 1

/-- Up to the pulse of the first VSync; software does `select` in the line before. -/
def beforePulse (select : List Event) : List Piece :=
  [.events (rounds stallIn 3), .rest 608137 1100 542, .events (select ++ rounds stallIn 23)]

/-- From the pulse, with the events `fetched` after it, into the first line, with the
events `last` from 19 pixels before the line on. -/
def afterPulse (fetched last : List Event) : List Piece :=
  [.events (.clk50 stallIn :: fetched), .rest 5572 1100 547, .events (rounds stallIn 30),
    .rest 16770 1100 562, .events last]

/-- Mode 8 and Cont. -/
def selectStream : List Event := [.clk50 (writeIn 0 8), .clk50 (writeIn 1 2)]

/-- The run to the pulse of the first VSync. -/
def toTrigger : List Event := unfoldAll (beforePulse selectStream)

/-- From the pulse to the second pixel. -/
def toSecondPixel : List Piece :=
  afterPulse fetchFrame (rounds stallIn 21 ++ [.clk50 stallIn])

/-- The run from the cycle after the pulse to the second pixel. -/
def toPixel : List Event := fetchFrame ++ unfoldAll toSecondPixel.tail

def atPulse (left : Bool) : VideoPipeline :=
  applyAll (fresh left) (beforePulse selectStream)

theorem raster_fresh (left : Bool) : (fresh left).pixel.Raster params := by
  cases left
  · exact HdmiPixel.raster_reset params
  · exact HdmiPixel.raster_reset params

theorem run_toTrigger (left : Bool) : run step (fresh left) toTrigger = atPulse left := by
  have hchecks : ∀ left : Bool, checksAll (fun _ => true) (fun _ => true) (fresh left)
      (beforePulse selectStream) = true := by
    decide +kernel
  exact (run_pieces (fun _ _ _ _ => rfl) (raster_fresh left) _ (hchecks left)).1

theorem raster_atPulse (left : Bool) : (atPulse left).pixel.Raster params := by
  rw [← run_toTrigger]
  exact raster_run (raster_fresh left) _

/-- Mode 8, Cont, no gamma. -/
def streaming (t : HdmiCsr) : Bool := t.mode == 8 && t.dmaContEn && !t.gammaEn

/-- What holds at every event of the frame. -/
def frameCheck (x : VideoPipeline × Event) : Bool :=
  streaming x.1.csr &&
    !(x.2.ticksHdmi && x.1.streamRdEn && x.1.dmaFifo.fifo.rd.rdempty) && !x.1.vsyncRise x.2

theorem gammaEn_of_frameCheck {x : VideoPipeline × Event} (h : frameCheck x = true) :
    x.1.csr.gammaEn = false := by
  simp only [frameCheck, streaming, Bool.and_eq_true, Bool.not_eq_true'] at h
  exact h.1.1.2

theorem frameCheck_quiet {x : VideoPipeline × Event} (h : Quiet s c x)
    (hs : streaming s.csr = true) : frameCheck x = true := by
  have hcsr : x.1.csr = s.csr := by rw [h.same]
  rw [frameCheck, hcsr, hs, h.noRead, h.noRise]
  simp

/-- The frame is held to its second pixel. -/
theorem run_afterPulse (left : Bool) :
    run step (atPulse left) (.clk50 stallIn :: toPixel) =
        applyAll (atPulse left) toSecondPixel ∧
      ∀ x ∈ log step (atPulse left) (.clk50 stallIn :: toPixel), frameCheck x = true := by
  have hchecks : ∀ left : Bool, checksAll frameCheck (fun s => streaming s.csr)
      (atPulse left) toSecondPixel = true := by
    decide +kernel
  obtain ⟨hrun, hall, -⟩ := run_pieces (fun _ x hs hx => frameCheck_quiet hx hs)
    (raster_atPulse left) _ (hchecks left)
  exact ⟨hrun, hall⟩

theorem frameCheck_log (left : Bool) :
    ∀ x ∈ log step (atPulse left) (.clk50 stallIn :: toPixel), frameCheck x = true :=
  (run_afterPulse left).2

/-- One more pixel clock shows the first position: the word left over, if there is
one. -/
theorem shows_first (left : Bool) :
    let s := run step (atPulse left) (.clk50 stallIn :: toPixel)
    frameCheck (s, .clkHdmi) = true ∧ s.pixel.hCnt = 1 ∧ s.pixel.vCnt = 0 ∧
      (s.step .clkHdmi).pixel.hCnt = 2 ∧ (s.step .clkHdmi).pixel.vCnt = 0 ∧
      (s.step .clkHdmi).pixel.hdmiD = if left then 7 else 9 := by
  have hfacts : ∀ left : Bool,
      let s := applyAll (atPulse left) toSecondPixel
      frameCheck (s, .clkHdmi) = true ∧ s.pixel.hCnt = 1 ∧ s.pixel.vCnt = 0 ∧
        (s.step .clkHdmi).pixel.hCnt = 2 ∧ (s.step .clkHdmi).pixel.vCnt = 0 ∧
        (s.step .clkHdmi).pixel.hdmiD = if left then 7 else 9 := by
    decide +kernel
  rw [(run_afterPulse left).1]
  exact hfacts left

/-- The slave returns 9 for the first word of the frame, whatever the FIFO holds. -/
theorem pushed_first (left : Bool) :
    (DmaBus.pushed (busLog (log step (atPulse left) (.clk50 stallIn :: toPixel)))).head? =
      some ((atPulse left).csr.shadowPtr, 9) := by
  have hfacts : ∀ left : Bool,
      (DmaBus.pushed (busLog (log step (atPulse left) (.clk50 stallIn :: fetchFrame)))).head? =
        some ((atPulse left).csr.shadowPtr, 9) := by
    decide +kernel
  rw [toPixel, ← List.cons_append, log_append, busLog_append, DmaBus.pushed_append,
    List.head?_append, hfacts]
  rfl

/-- The pulse triggers a frame, and no other is triggered up to its second pixel. -/
theorem noTrigger_after (left : Bool) :
    (atPulse left).triggers (.clk50 stallIn) = true ∧
      ∀ x ∈ log step ((atPulse left).step (.clk50 stallIn)) toPixel,
        x.1.triggers x.2 = false := by
  have hchecks : ∀ left : Bool, (atPulse left).triggers (.clk50 stallIn) = true ∧
      checksAll (fun x => !x.1.triggers x.2) (fun _ => true)
        ((atPulse left).step (.clk50 stallIn))
        (.events fetchFrame :: toSecondPixel.tail) = true := by
    decide +kernel
  have hr : ((atPulse left).step (.clk50 stallIn)).pixel.Raster params :=
    raster_run (raster_atPulse left) [.clk50 stallIn]
  obtain ⟨-, hall, -⟩ := run_pieces (fun _ x _ hx => by rw [hx.noTrigger]; rfl) hr _
    (hchecks left).2
  refine ⟨(hchecks left).1, fun x hx => ?_⟩
  have hno := hall x hx
  rwa [Bool.not_eq_true'] at hno

/-- Every pixel clock of the run has its `clk_50` edge, also the next one. -/
theorem covered_firstFrame :
    (∀ b, coveredRun b toTrigger = true) ∧
      ∀ b, coveredRun b (.clk50 stallIn :: toPixel ++ [.clkHdmi]) = true := by
  have hcov : (beforePulse selectStream).all Piece.covered = true ∧
      toSecondPixel.all Piece.covered = true := by
    decide +kernel
  refine ⟨coveredRun_pieces _ hcov.1, fun b => ?_⟩
  have hlast : ∀ b (es : List Event), seenRun b (es ++ [.clk50 stallIn]) = true := by
    intro b es
    rw [seenRun_append]
    rfl
  have hends : .clk50 stallIn :: toPixel =
      ((.clk50 stallIn :: fetchFrame) ++ (rounds stallIn 5572 ++ (rounds stallIn 30 ++
        (rounds stallIn 16770 ++ rounds stallIn 21)))) ++ [.clk50 stallIn] := by
    simp only [toPixel, toSecondPixel, afterPulse, unfoldAll, List.tail_cons,
      List.flatMap_cons, List.flatMap_nil, Piece.unfold, List.append_assoc,
      List.cons_append, List.append_nil]
  have hrun := coveredRun_pieces _ hcov.2 b
  rw [show unfoldAll toSecondPixel = .clk50 stallIn :: toPixel from rfl] at hrun
  rw [coveredRun_append, hrun, hends, hlast]
  rfl

end FirstFrame

end VideoPipeline
end VideoProcessing
