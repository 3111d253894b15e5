import VideoProcessing.Lib.Synchronizer
import VideoProcessing.Video.Pipeline

/-!
# VSync crosses the clocks

VSync reaches `clk_50` twice: as a level, whose rising edge loads `shadow_ptr`,
and as a toggle, whose edge is the pulse that triggers the DMA.  The toggle flips
one pixel clock after the level rises, and in this pixel clock a `clk_50` edge
samples the level, so the level chain is one sample ahead of the toggle chain
(`Synced.lead`): the load takes effect before the pulse is sampled.
-/

namespace VideoProcessing

open Lib

/-- A three-stage synchroniser shifts its samples in. -/
theorem shiftIn_push (r : BitVec 3) (x : Bool) (i : Nat) (hi : i < 3) :
    (shiftIn r x).getLsbD i = push x r.getLsbD i := by
  match i, hi with
  | 0, _ => exact shiftIn_zero r x
  | 1, _ => exact shiftIn_one r x
  | 2, _ => exact shiftIn_two r x

namespace VideoPipeline

open HdmiPixel (vsAt vsStart)

/-- VSync rises in the pixel domain. -/
def vsyncRise (s : VideoPipeline) (e : Event) : Bool :=
  e.ticksHdmi && (!s.pixel.vsWire params && s.pixelNext.vsWire params)

/-- `shadow_ptr` is loaded. -/
def shadowLoad (s : VideoPipeline) (e : Event) : Bool :=
  e.ticks50 && s.csr.vsRise

/-- The DMA samples a high `vsync_edge_sync`. -/
def vsyncPulse (s : VideoPipeline) (e : Event) : Bool :=
  e.ticks50 && s.vsyncEdgeSync

/-- The number of VSyncs of a log. -/
def rises (l : List (VideoPipeline × Event)) : Nat :=
  l.countP fun p => p.1.vsyncRise p.2

/-- The number of VSync pulses sampled by the DMA in a log. -/
def pulses (l : List (VideoPipeline × Event)) : Nat :=
  l.countP fun p => p.1.vsyncPulse p.2

/-- The frame pointers loaded in a log, oldest first. -/
def captured (l : List (VideoPipeline × Event)) : List (BitVec 32) :=
  l.filterMap fun p => if p.1.shadowLoad p.2 then some p.1.csr.regFramePtr else none

section Snoc

variable (l : List (VideoPipeline × Event)) (s : VideoPipeline) (e : Event)

theorem rises_snoc : rises (l ++ [(s, e)]) = rises l + (s.vsyncRise e).toNat := by
  simp only [rises, List.countP_append, List.countP_singleton]
  cases s.vsyncRise e <;> rfl

theorem pulses_snoc : pulses (l ++ [(s, e)]) = pulses l + (s.vsyncPulse e).toNat := by
  simp only [pulses, List.countP_append, List.countP_singleton]
  cases s.vsyncPulse e <;> rfl

theorem captured_snoc :
    captured (l ++ [(s, e)]) =
      captured l ++ if s.shadowLoad e then [s.csr.regFramePtr] else [] := by
  simp only [captured, List.filterMap_append]
  cases h : s.shadowLoad e <;> simp [h]

end Snoc

/-- The toggle has flipped and the chain does not show it in its last stage. -/
def inFlight (s : VideoPipeline) : Bool :=
  s.vsyncToggleSync50.getLsbD 2 ^^ s.pixel.vsToggle

/-- The samples of the VSync wire since its last change, at least. -/
def levelAge (s : VideoPipeline) (seen : Bool) : Nat :=
  if vsAt params s.pixel.vCnt.toNat = vsAt params (s.pixel.vCnt.toNat - 1) then 3
  else s.pixel.hCnt.toNat + seen.toNat

/-- The samples of the toggle since its last flip, at least. -/
def toggleAge (s : VideoPipeline) (seen : Bool) : Nat :=
  if s.pixel.hCnt.toNat = 0 then 3 else s.pixel.hCnt.toNat - 1 + seen.toNat

/-- The two chains and the raster; `seen` says that the running pixel clock has
had its `clk_50` edge. -/
structure Synced (s : VideoPipeline) (seen : Bool) : Prop where
  raster : s.pixel.Raster params
  level : Follows 3 (s.pixel.vsWire params) s.csr.vsSyncSh.getLsbD (s.levelAge seen)
  toggle : Follows 3 s.pixel.vsToggle s.vsyncToggleSync50.getLsbD (s.toggleAge seen)
  place : s.inFlight = true → s.pixel.vCnt.toNat = vsStart params
  /-- After a flip the level chain is one sample ahead. -/
  lead : s.pixel.vCnt.toNat = vsStart params → 1 ≤ s.pixel.hCnt.toNat →
    (s.vsyncToggleSync50.getLsbD 0 = s.pixel.vsToggle → s.csr.vsSyncSh.getLsbD 1 = true) ∧
    (s.vsyncToggleSync50.getLsbD 1 = s.pixel.vsToggle → s.csr.vsSyncSh.getLsbD 2 = true)

theorem synced_reset (s0 : VideoPipeline) : Synced s0.reset true where
  raster := HdmiPixel.raster_reset params
  level := ⟨fun _ _ _ => BitVec.getLsbD_zero, fun _ _ _ => BitVec.getLsbD_zero⟩
  toggle := ⟨fun _ _ _ => BitVec.getLsbD_zero, fun _ _ _ => BitVec.getLsbD_zero⟩
  place hf := absurd hf (by simp [inFlight, reset, HdmiPixel.reset])
  lead _ hpos := absurd hpos (by simp [reset, HdmiPixel.reset])

variable {s : VideoPipeline} {seen : Bool} {e : Event}

theorem hTotal_eq : params.hTotal = 1120 := rfl

/-- The VSync wire is high at the first line of the pulse, where it has risen. -/
theorem vsWire_of_vsStart (hv : s.pixel.vCnt.toNat = vsStart params) :
    s.pixel.vsWire params = true := by
  rw [HdmiPixel.vsWire_eq, hv]
  rfl

theorem levelAge_of_vsStart (hv : s.pixel.vCnt.toNat = vsStart params) :
    s.levelAge seen = s.pixel.hCnt.toNat + seen.toNat := by
  rw [levelAge, hv]
  rfl

/-- A toggle in flight has flipped at most three samples ago. -/
theorem Synced.inFlight_hCnt (h : Synced s seen) (hf : s.inFlight = true) :
    1 ≤ s.pixel.hCnt.toNat ∧ s.pixel.hCnt.toNat ≤ 3 := by
  by_contra hc
  have hlast := h.toggle.settled 2 (by omega) (by unfold toggleAge; split <;> omega)
  rw [inFlight, hlast] at hf
  simp at hf

/-- A level about to change is known to the whole chain. -/
theorem levelAge_of_wrap (hwrap : s.pixel.hCnt.toNat = params.hTotal - 1) :
    3 ≤ s.levelAge seen := by
  have hT := hTotal_eq
  unfold levelAge
  split <;> omega

/-- The age of the level after the end of a line. -/
theorem Synced.levelAge_wrap (h : Synced s seen)
    (hwrap : s.pixel.hCnt.toNat = params.hTotal - 1) (s' : VideoPipeline)
    (hs' : s'.pixel = s.pixelNext) (b : Bool) :
    (s'.pixel.vsWire params = s.pixel.vsWire params ∧ s'.levelAge b = 3) ∨
      s'.levelAge b = b.toNat := by
  have hh := h.raster.step_hCnt s.csr s.streamDataIn
  have hpred := h.raster.vsAt_pred hwrap s.csr s.streamDataIn
  rw [if_pos hwrap] at hh
  rw [levelAge, HdmiPixel.vsWire_eq, hs', pixelNext, hpred, hh, Nat.zero_add]
  split
  · left
    exact ⟨by assumption, rfl⟩
  · right
    rfl

/-- The level and its age within a line. -/
theorem Synced.levelAge_line (h : Synced s seen)
    (hwrap : s.pixel.hCnt.toNat ≠ params.hTotal - 1) (s' : VideoPipeline)
    (hs' : s'.pixel = s.pixelNext) {b : Bool} {k : Nat}
    (hb : b.toNat + 1 ≤ seen.toNat + k) :
    s'.pixel.vsWire params = s.pixel.vsWire params ∧
      s'.levelAge b ≤ s.levelAge seen + k := by
  have hh := h.raster.step_hCnt s.csr s.streamDataIn
  have hv := h.raster.step_vCnt s.csr s.streamDataIn
  rw [if_neg hwrap] at hh hv
  rw [HdmiPixel.vsWire_eq, HdmiPixel.vsWire_eq, levelAge, levelAge, hs', pixelNext, hh, hv]
  refine ⟨rfl, ?_⟩
  split <;> omega

/-- The level chain follows the VSync wire. -/
theorem Synced.level_step (h : Synced s seen) (hcov : e.covered seen = true) :
    Follows 3 ((s.step e).pixel.vsWire params) (s.step e).csr.vsSyncSh.getLsbD
      ((s.step e).levelAge e.seen) := by
  cases e with
  | clk50 c =>
      refine (h.level.push.congr (shiftIn_push _ _)).mono ?_
      change (s.step (.clk50 c)).levelAge true ≤ s.levelAge seen + 1
      unfold levelAge
      change (if vsAt params s.pixel.vCnt.toNat = vsAt params (s.pixel.vCnt.toNat - 1) then 3
        else s.pixel.hCnt.toNat + 1) ≤ _
      split <;> omega
  | clkHdmi =>
      have hseen : seen = true := hcov
      by_cases hwrap : s.pixel.hCnt.toNat = params.hTotal - 1
      · rcases h.levelAge_wrap hwrap (s.step .clkHdmi) rfl false with
          ⟨hwire, hage⟩ | hage
        · change Follows 3 _ _ ((s.step .clkHdmi).levelAge false)
          rw [hwire, hage]
          exact h.level.mono (levelAge_of_wrap hwrap)
        · exact (h.level.change (levelAge_of_wrap hwrap) _).mono (by exact Nat.le_of_eq hage)
      · obtain ⟨hwire, hage⟩ := h.levelAge_line hwrap (s.step .clkHdmi) rfl
          (b := false) (k := 0) (by simp [hseen])
        rw [hwire]
        exact h.level.mono hage
  | both c rdMask wrMask vsNew toggleNew =>
      let s' := s.step (.both c rdMask wrMask vsNew toggleNew)
      change Follows 3 (s'.pixel.vsWire params) (shiftIn s.csr.vsSyncSh
        (if vsNew then s'.pixel.vsWire params else s.pixel.vsWire params)).getLsbD
        (s'.levelAge (vsNew && toggleNew))
      by_cases hwrap : s.pixel.hCnt.toNat = params.hTotal - 1
      · rcases h.levelAge_wrap hwrap s' rfl (vsNew && toggleNew) with
          ⟨hwire, hage⟩ | hage
        · rw [hwire, hage, ite_self]
          refine (h.level.push.congr (shiftIn_push _ _)).mono ?_
          exact Nat.le_succ_of_le (levelAge_of_wrap hwrap)
        · refine ((h.level.push_change (levelAge_of_wrap hwrap) ?_).congr
            (shiftIn_push _ _)).mono ?_
          · cases vsNew <;> simp
          · rw [hage]
            cases vsNew <;> cases toggleNew <;> simp
      · obtain ⟨hwire, hage⟩ := h.levelAge_line hwrap s' rfl
          (b := vsNew && toggleNew) (k := 1) (by
            simp only [Event.covered] at hcov
            cases vsNew <;> cases toggleNew <;> simp_all)
        rw [hwire, ite_self]
        exact (h.level.push.congr (shiftIn_push _ _)).mono hage

/-- The age of the toggle after a pixel clock without a flip. -/
theorem Synced.toggleAge_pixel (h : Synced s seen) {s' : VideoPipeline}
    (hs' : s'.pixel = s.pixelNext) {b : Bool} {k : Nat}
    (hb : b.toNat + 1 ≤ seen.toNat + k) :
    s'.toggleAge b ≤ s.toggleAge seen + k := by
  have hh := h.raster.step_hCnt s.csr s.streamDataIn
  rw [← pixelNext, ← hs'] at hh
  have hT := hTotal_eq
  have hle := Bool.toNat_le b
  unfold toggleAge
  by_cases hwrap : s.pixel.hCnt.toNat = params.hTotal - 1
  · rw [if_pos hwrap] at hh
    rw [if_pos hh, if_neg (by omega)]
    omega
  · rw [if_neg hwrap] at hh
    rw [if_neg (by omega)]
    split <;> omega

/-- A pixel clock that flips the toggle: the chain is settled. -/
theorem Synced.flip (h : Synced s seen) (hf : s.pixel.flips params = true) :
    s.pixel.hCnt.toNat = 0 ∧ s.pixel.vCnt.toNat = vsStart params ∧
      s.pixelNext.hCnt.toNat = 1 ∧ s.pixelNext.vCnt.toNat = vsStart params ∧
      s.toggleAge seen = 3 := by
  have hT := hTotal_eq
  obtain ⟨hz, hstart⟩ := h.raster.flips_iff.1 hf
  refine ⟨hz, hstart, ?_, ?_, ?_⟩
  · rw [pixelNext, h.raster.step_hCnt, if_neg (by omega), hz]
  · rw [pixelNext, h.raster.step_vCnt, if_neg (by omega), hstart]
  · rw [toggleAge, if_pos hz]

theorem pixelNext_vsToggle (s : VideoPipeline) :
    s.pixelNext.vsToggle = (s.pixel.vsToggle ^^ s.pixel.flips params) :=
  HdmiPixel.step_vsToggle _ _ _

/-- The toggle chain follows the VSync toggle. -/
theorem Synced.toggle_step (h : Synced s seen) (hcov : e.covered seen = true) :
    Follows 3 (s.step e).pixel.vsToggle (s.step e).vsyncToggleSync50.getLsbD
      ((s.step e).toggleAge e.seen) := by
  have htog := s.pixelNext_vsToggle
  cases e with
  | clk50 c =>
      refine (h.toggle.push.congr (shiftIn_push _ _)).mono ?_
      change (if s.pixel.hCnt.toNat = 0 then 3 else s.pixel.hCnt.toNat - 1 + 1) ≤ _
      unfold toggleAge
      split <;> omega
  | clkHdmi =>
      have hseen : seen = true := hcov
      change Follows 3 s.pixelNext.vsToggle s.vsyncToggleSync50.getLsbD
        ((s.step .clkHdmi).toggleAge false)
      rw [htog]
      cases hf : s.pixel.flips params with
      | true =>
          obtain ⟨_, _, hone, _, hage⟩ := h.flip hf
          have hnew : (s.step .clkHdmi).toggleAge false = 0 := by
            change (if s.pixelNext.hCnt.toNat = 0 then 3 else s.pixelNext.hCnt.toNat - 1 + 0) = 0
            rw [hone]
            rfl
          rw [hnew]
          exact h.toggle.change (Nat.le_of_eq hage.symm) _
      | false =>
          rw [Bool.xor_false]
          exact h.toggle.mono (h.toggleAge_pixel (k := 0) rfl (by simp [hseen]))
  | both c rdMask wrMask vsNew toggleNew =>
      let s' := s.step (.both c rdMask wrMask vsNew toggleNew)
      change Follows 3 s.pixelNext.vsToggle (shiftIn s.vsyncToggleSync50
        (if toggleNew then s.pixelNext.vsToggle else s.pixel.vsToggle)).getLsbD
        (s'.toggleAge (vsNew && toggleNew))
      cases hf : s.pixel.flips params with
      | true =>
          obtain ⟨_, _, hone, _, hage⟩ := h.flip hf
          have hnew : s'.toggleAge (vsNew && toggleNew) = (vsNew && toggleNew).toNat := by
            change (if s.pixelNext.hCnt.toNat = 0 then 3
              else s.pixelNext.hCnt.toNat - 1 + (vsNew && toggleNew).toNat) = _
            rw [hone, if_neg (by decide), Nat.sub_self, Nat.zero_add]
          rw [hnew]
          refine ((h.toggle.push_change (Nat.le_of_eq hage.symm) ?_).congr
            (shiftIn_push _ _)).mono ?_
          · cases toggleNew <;> simp
          · cases vsNew <;> cases toggleNew <;> simp
      | false =>
          have hsame : s.pixelNext.vsToggle = s.pixel.vsToggle := by
            rw [htog, hf, Bool.xor_false]
          rw [hsame, ite_self]
          refine (h.toggle.push.congr (shiftIn_push _ _)).mono ?_
          refine h.toggleAge_pixel rfl ?_
          simp only [Event.covered] at hcov
          cases vsNew <;> cases toggleNew <;> simp_all

/-- The stages of the toggle chain fill in order. -/
theorem Synced.inFlight_of_one (h : Synced s seen)
    (h1 : (s.vsyncToggleSync50.getLsbD 1 ^^ s.pixel.vsToggle) = true) :
    s.inFlight = true := by
  rw [inFlight]
  by_contra h2
  rw [Bool.not_eq_true, bne_eq_false_iff_eq] at h2
  rw [h.toggle.order 1 (by omega) h2, Bool.xor_self] at h1
  exact absurd h1 (by decide)

/-- A pixel clock without a flip leaves a toggle in flight on its line. -/
theorem Synced.place_pixel (h : Synced s seen) (hf : s.inFlight = true) :
    s.pixelNext.vCnt.toNat = vsStart params := by
  have hT := hTotal_eq
  have hle := (h.inFlight_hCnt hf).2
  rw [pixelNext, h.raster.step_vCnt, if_neg (by omega)]
  exact h.place hf

theorem Synced.place_step (h : Synced s seen) (hf : (s.step e).inFlight = true) :
    (s.step e).pixel.vCnt.toNat = vsStart params := by
  have htog := s.pixelNext_vsToggle
  cases e with
  | clk50 c =>
      have h1 : (s.vsyncToggleSync50.getLsbD 1 ^^ s.pixel.vsToggle) = true := by
        rw [← shiftIn_two s.vsyncToggleSync50 s.pixel.vsToggle]
        exact hf
      exact h.place (h.inFlight_of_one h1)
  | clkHdmi =>
      cases hfl : s.pixel.flips params with
      | true => exact (h.flip hfl).2.2.2.1
      | false =>
          rw [hfl, Bool.xor_false] at htog
          refine h.place_pixel ?_
          rw [inFlight, ← htog]
          exact hf
  | both c rdMask wrMask vsNew toggleNew =>
      cases hfl : s.pixel.flips params with
      | true => exact (h.flip hfl).2.2.2.1
      | false =>
          rw [hfl, Bool.xor_false] at htog
          refine h.place_pixel (h.inFlight_of_one ?_)
          rw [← htog, ← shiftIn_two s.vsyncToggleSync50
            (if toggleNew then s.pixelNext.vsToggle else s.pixel.vsToggle)]
          exact hf

/-- In the line of the flip a `clk_50` edge keeps the level chain ahead. -/
theorem Synced.lead_sample (h : Synced s seen) (hv : s.pixel.vCnt.toNat = vsStart params)
    (hpos : 1 ≤ s.pixel.hCnt.toNat) (x y : Bool) :
    (shiftIn s.csr.vsSyncSh x).getLsbD 1 = true ∧
      ((shiftIn s.vsyncToggleSync50 y).getLsbD 1 = s.pixel.vsToggle →
        (shiftIn s.csr.vsSyncSh x).getLsbD 2 = true) := by
  rw [shiftIn_one, shiftIn_one, shiftIn_two]
  refine ⟨?_, (h.lead hv hpos).1⟩
  rw [h.level.settled 0 (by omega) (by rw [levelAge_of_vsStart hv]; omega),
    vsWire_of_vsStart hv]

/-- A position in the line of the flip comes from the one before it. -/
theorem Synced.line_pixel (h : Synced s seen)
    (hv : s.pixelNext.vCnt.toNat = vsStart params) (hpos : 1 ≤ s.pixelNext.hCnt.toNat) :
    s.pixel.vCnt.toNat = vsStart params := by
  rw [pixelNext, h.raster.step_hCnt] at hpos
  rw [pixelNext, h.raster.step_vCnt] at hv
  by_cases hwrap : s.pixel.hCnt.toNat = params.hTotal - 1
  · rw [if_pos hwrap] at hpos
    omega
  · rw [if_neg hwrap] at hv
    exact hv

/-- Without a flip a position of this line is not its first one. -/
theorem Synced.pos_of_not_flips (h : Synced s seen)
    (hv : s.pixel.vCnt.toNat = vsStart params) (hf : s.pixel.flips params = false) :
    1 ≤ s.pixel.hCnt.toNat := by
  by_contra hz
  rw [h.raster.flips_iff.2 ⟨by omega, hv⟩] at hf
  exact absurd hf (by decide)

/-- The level chain stays ahead of the toggle chain. -/
theorem Synced.lead_step (h : Synced s seen) (hcov : e.covered seen = true)
    (hv : (s.step e).pixel.vCnt.toNat = vsStart params)
    (hpos : 1 ≤ (s.step e).pixel.hCnt.toNat) :
    ((s.step e).vsyncToggleSync50.getLsbD 0 = (s.step e).pixel.vsToggle →
        (s.step e).csr.vsSyncSh.getLsbD 1 = true) ∧
      ((s.step e).vsyncToggleSync50.getLsbD 1 = (s.step e).pixel.vsToggle →
        (s.step e).csr.vsSyncSh.getLsbD 2 = true) := by
  have htog := s.pixelNext_vsToggle
  cases e with
  | clk50 c =>
      obtain ⟨hone, htwo⟩ :=
        h.lead_sample hv hpos (s.pixel.vsWire params) s.pixel.vsToggle
      exact ⟨fun _ => hone, htwo⟩
  | clkHdmi =>
      have hv0 := h.line_pixel hv hpos
      change (s.vsyncToggleSync50.getLsbD 0 = s.pixelNext.vsToggle → _) ∧
        (s.vsyncToggleSync50.getLsbD 1 = s.pixelNext.vsToggle → _)
      rw [htog]
      cases hf : s.pixel.flips params with
      | true =>
          obtain ⟨_, _, _, _, hage⟩ := h.flip hf
          rw [h.toggle.settled 0 (by omega) (by omega),
            h.toggle.settled 1 (by omega) (by omega)]
          simp
      | false =>
          rw [Bool.xor_false]
          exact h.lead hv0 (h.pos_of_not_flips hv0 hf)
  | both c rdMask wrMask vsNew toggleNew =>
      have hv0 := h.line_pixel hv hpos
      change ((shiftIn s.vsyncToggleSync50 _).getLsbD 0 = s.pixelNext.vsToggle →
          (shiftIn s.csr.vsSyncSh _).getLsbD 1 = true) ∧
        ((shiftIn s.vsyncToggleSync50 _).getLsbD 1 = s.pixelNext.vsToggle →
          (shiftIn s.csr.vsSyncSh _).getLsbD 2 = true)
      cases hf : s.pixel.flips params with
      | true =>
          obtain ⟨hz, _, _, _, hage⟩ := h.flip hf
          have h0 := h.toggle.settled 0 (by omega) (by omega)
          rw [hf, Bool.xor_true] at htog
          rw [shiftIn_zero, shiftIn_one, shiftIn_one, h0, htog]
          refine ⟨fun hnew => ?_, fun hold => absurd hold (by simp)⟩
          have hnew' : toggleNew = true := by
            by_contra hn
            rw [if_neg hn] at hnew
            exact absurd hnew (by simp)
          have hseen : seen = true := by
            simpa [Event.covered, hnew'] using hcov
          rw [h.level.settled 0 (by omega) (by rw [levelAge_of_vsStart hv0, hseen]; simp),
            vsWire_of_vsStart hv0]
      | false =>
          rw [hf, Bool.xor_false] at htog
          rw [htog]
          obtain ⟨hone, htwo⟩ := h.lead_sample hv0 (h.pos_of_not_flips hv0 hf)
            (if vsNew then s.pixelNext.vsWire params else s.pixel.vsWire params)
            (if toggleNew then s.pixelNext.vsToggle else s.pixel.vsToggle)
          rw [htog] at htwo
          exact ⟨fun _ => hone, htwo⟩

theorem Synced.step (h : Synced s seen) (hcov : e.covered seen = true) :
    Synced (s.step e) e.seen where
  raster := by
    cases e with
    | clk50 c => exact h.raster
    | clkHdmi => exact h.raster.step _ _
    | both c rdMask wrMask vsNew toggleNew => exact h.raster.step _ _
  level := h.level_step hcov
  toggle := h.toggle_step hcov
  place := h.place_step
  lead := h.lead_step hcov

/-- A VSync that has not loaded `shadow_ptr` yet. -/
def owesLoad (s : VideoPipeline) : Bool :=
  s.pixel.vsWire params && !s.csr.vsSyncSh.getLsbD 2

/-- A VSync whose pulse has not been sampled yet. -/
def owesPulse (s : VideoPipeline) : Bool :=
  s.pixel.flips params || s.inFlight

/-- A level about to change is known to all stages. -/
theorem Synced.settled_of_change (h : Synced s seen)
    (hne : s.pixelNext.vsWire params ≠ s.pixel.vsWire params) :
    s.csr.vsSyncSh.getLsbD 1 = s.pixel.vsWire params ∧
      s.csr.vsSyncSh.getLsbD 2 = s.pixel.vsWire params := by
  have hwrap : s.pixel.hCnt.toNat = params.hTotal - 1 := by
    by_contra hc
    exact hne (h.raster.vsWire_step hc _ _)
  have hage : 3 ≤ s.levelAge seen := levelAge_of_wrap hwrap
  exact ⟨h.level.settled 1 (by omega) (by omega), h.level.settled 2 (by omega) (by omega)⟩

/-- Every rise of VSync is followed by one load. -/
theorem Synced.owesLoad_step (h : Synced s seen) (e : Event) :
    (s.step e).owesLoad.toNat + (s.shadowLoad e).toNat =
      s.owesLoad.toNat + (s.vsyncRise e).toNat := by
  have hord := h.level.order 1 (by omega)
  have hch := h.settled_of_change
  cases e with
  | clk50 c =>
      change (s.pixel.vsWire params && !(shiftIn s.csr.vsSyncSh _).getLsbD 2).toNat +
        (true && (s.csr.vsSyncSh.getLsbD 1 && !s.csr.vsSyncSh.getLsbD 2)).toNat =
        (s.pixel.vsWire params && !s.csr.vsSyncSh.getLsbD 2).toNat + 0
      rw [shiftIn_two]
      revert hord
      cases s.pixel.vsWire params <;> cases s.csr.vsSyncSh.getLsbD 1 <;>
        cases s.csr.vsSyncSh.getLsbD 2 <;> simp
  | clkHdmi =>
      change (s.pixelNext.vsWire params && !s.csr.vsSyncSh.getLsbD 2).toNat + 0 =
        (s.pixel.vsWire params && !s.csr.vsSyncSh.getLsbD 2).toNat +
          (true && (!s.pixel.vsWire params && s.pixelNext.vsWire params)).toNat
      revert hch
      cases s.pixel.vsWire params <;> cases s.pixelNext.vsWire params <;>
        cases s.csr.vsSyncSh.getLsbD 2 <;> simp
  | both c rdMask wrMask vsNew toggleNew =>
      change (s.pixelNext.vsWire params && !(shiftIn s.csr.vsSyncSh _).getLsbD 2).toNat +
        (true && (s.csr.vsSyncSh.getLsbD 1 && !s.csr.vsSyncSh.getLsbD 2)).toNat =
        (s.pixel.vsWire params && !s.csr.vsSyncSh.getLsbD 2).toNat +
          (true && (!s.pixel.vsWire params && s.pixelNext.vsWire params)).toNat
      rw [shiftIn_two]
      revert hord hch
      cases s.pixel.vsWire params <;> cases s.pixelNext.vsWire params <;>
        cases s.csr.vsSyncSh.getLsbD 1 <;> cases s.csr.vsSyncSh.getLsbD 2 <;> simp

theorem Synced.raster_next (h : Synced s seen) : s.pixelNext.Raster params :=
  h.raster.step _ _

/-- VSync rises exactly when the toggle is about to flip. -/
theorem Synced.rise_eq_flips (h : Synced s seen) :
    (!s.pixel.vsWire params && s.pixelNext.vsWire params) = s.pixelNext.flips params := by
  rw [Bool.eq_iff_iff, h.raster_next.flips_iff]
  exact h.raster.rise_iff _ _

/-- Before a flip, and before a rise, the toggle chain is settled. -/
theorem Synced.settled_toggle (h : Synced s seen)
    (hf : s.pixel.flips params = true ∨ s.pixelNext.flips params = true) :
    s.vsyncToggleSync50.getLsbD 1 = s.pixel.vsToggle ∧
      s.vsyncToggleSync50.getLsbD 2 = s.pixel.vsToggle := by
  have hT := hTotal_eq
  have hage : 3 ≤ s.toggleAge seen := by
    rcases hf with hf | hf
    · exact Nat.le_of_eq (h.flip hf).2.2.2.2.symm
    · have hz := (h.raster_next.flips_iff.1 hf).1
      rw [pixelNext, h.raster.step_hCnt] at hz
      by_cases hwrap : s.pixel.hCnt.toNat = params.hTotal - 1
      · unfold toggleAge
        split <;> omega
      · rw [if_neg hwrap] at hz
        omega
  exact ⟨h.toggle.settled 1 (by omega) (by omega),
    h.toggle.settled 2 (by omega) (by omega)⟩

/-- A rise of VSync and a flip of the toggle are one pixel clock apart. -/
theorem Synced.not_rise_and_flip (h : Synced s seen) :
    s.pixel.flips params = true → s.pixelNext.flips params = false := by
  intro hf
  rw [Bool.eq_false_iff]
  intro hr
  have hz := (h.raster_next.flips_iff.1 hr).1
  have hone := (h.flip hf).2.2.1
  omega

/-- Every rise of VSync is followed by one pulse. -/
theorem Synced.owesPulse_step (h : Synced s seen) (e : Event) :
    (s.step e).owesPulse.toNat + (s.vsyncPulse e).toNat =
      s.owesPulse.toNat + (s.vsyncRise e).toNat := by
  have hord := h.toggle.order 1 (by omega)
  have hset := h.settled_toggle
  have hnot := h.not_rise_and_flip
  have hrise := h.rise_eq_flips
  have htog := s.pixelNext_vsToggle
  cases e with
  | clk50 c =>
      change (s.pixel.flips params ||
          ((shiftIn s.vsyncToggleSync50 _).getLsbD 2 ^^ s.pixel.vsToggle)).toNat +
        (true && (s.vsyncToggleSync50.getLsbD 2 ^^ s.vsyncToggleSync50.getLsbD 1)).toNat =
        (s.pixel.flips params ||
          (s.vsyncToggleSync50.getLsbD 2 ^^ s.pixel.vsToggle)).toNat + 0
      rw [shiftIn_two]
      revert hord hset
      cases s.pixel.flips params <;> cases s.pixel.vsToggle <;>
        cases s.vsyncToggleSync50.getLsbD 1 <;> cases s.vsyncToggleSync50.getLsbD 2 <;> simp
  | clkHdmi =>
      change (s.pixelNext.flips params ||
          (s.vsyncToggleSync50.getLsbD 2 ^^ s.pixelNext.vsToggle)).toNat + 0 =
        (s.pixel.flips params ||
          (s.vsyncToggleSync50.getLsbD 2 ^^ s.pixel.vsToggle)).toNat +
          (true && (!s.pixel.vsWire params && s.pixelNext.vsWire params)).toNat
      rw [hrise, htog]
      revert hset hnot
      cases s.pixel.flips params <;> cases s.pixelNext.flips params <;>
        cases s.pixel.vsToggle <;> cases s.vsyncToggleSync50.getLsbD 2 <;> simp
  | both c rdMask wrMask vsNew toggleNew =>
      change (s.pixelNext.flips params ||
          ((shiftIn s.vsyncToggleSync50 _).getLsbD 2 ^^ s.pixelNext.vsToggle)).toNat +
        (true && (s.vsyncToggleSync50.getLsbD 2 ^^ s.vsyncToggleSync50.getLsbD 1)).toNat =
        (s.pixel.flips params ||
          (s.vsyncToggleSync50.getLsbD 2 ^^ s.pixel.vsToggle)).toNat +
          (true && (!s.pixel.vsWire params && s.pixelNext.vsWire params)).toNat
      rw [hrise, htog, shiftIn_two]
      revert hord hset hnot
      cases s.pixel.flips params <;> cases s.pixelNext.flips params <;>
        cases s.pixel.vsToggle <;> cases s.vsyncToggleSync50.getLsbD 1 <;>
        cases s.vsyncToggleSync50.getLsbD 2 <;> simp

/-- A VSync that owes its load owes its pulse: the load comes first. -/
theorem Synced.owesPulse_of_owesLoad (h : Synced s seen) (hl : s.owesLoad = true) :
    s.owesPulse = true := by
  rw [owesLoad, Bool.and_eq_true, Bool.not_eq_true'] at hl
  obtain ⟨hw, h2⟩ := hl
  have hv : s.pixel.vCnt.toNat = vsStart params := by
    by_contra hne
    have hage : s.levelAge seen = 3 := by
      rw [levelAge, if_pos]
      rw [HdmiPixel.vsWire_eq] at hw
      cases hp : vsAt params (s.pixel.vCnt.toNat - 1) with
      | true => exact hw
      | false =>
          exact absurd ((HdmiPixel.vsAt_rise params _).1 (by rw [hw, hp]; rfl)) hne
    rw [h.level.settled 2 (by omega) (by omega), hw] at h2
    exact absurd h2 (by decide)
  rw [owesPulse]
  cases hf : s.pixel.flips params with
  | true => rfl
  | false =>
      have hlead := (h.lead hv (h.pos_of_not_flips hv hf)).2
      rw [Bool.false_or, inFlight]
      by_contra hc
      rw [Bool.not_eq_true, bne_eq_false_iff_eq] at hc
      rw [hlead (h.toggle.order 1 (by omega) hc)] at h2
      exact absurd h2 (by decide)

/-- A sampled pulse belongs to a VSync that has loaded its pointer. -/
theorem Synced.of_pulse (h : Synced s seen) (hp : s.vsyncEdgeSync = true) :
    s.owesPulse = true ∧ s.owesLoad = false ∧
      s.vsyncToggleSync50.getLsbD 1 = s.pixel.vsToggle := by
  have hord := h.toggle.order 1 (by omega)
  have hone : s.vsyncToggleSync50.getLsbD 1 = s.pixel.vsToggle ∧ s.inFlight = true := by
    rw [vsyncEdgeSync] at hp
    rw [inFlight]
    revert hord hp
    cases s.pixel.vsToggle <;> cases s.vsyncToggleSync50.getLsbD 1 <;>
      cases s.vsyncToggleSync50.getLsbD 2 <;> simp
  obtain ⟨hone, hfl⟩ := hone
  have hlead := (h.lead (h.place hfl) (h.inFlight_hCnt hfl).1).2 hone
  refine ⟨by rw [owesPulse, hfl, Bool.or_true], ?_, hone⟩
  rw [owesLoad, hlead, Bool.not_true, Bool.and_false]

/-- The pulse lasts one `clk_50` cycle. -/
theorem Synced.pulse_ends (h : Synced s seen) (hp : s.vsyncPulse e = true) :
    (s.step e).vsyncEdgeSync = false := by
  rw [vsyncPulse, Bool.and_eq_true] at hp
  have hone := (h.of_pulse hp.2).2.2
  have hzero := h.toggle.order 0 (by omega) hone
  have hnext : ∀ x : Bool,
      ((shiftIn s.vsyncToggleSync50 x).getLsbD 2 ^^
        (shiftIn s.vsyncToggleSync50 x).getLsbD 1) = false := by
    intro x
    rw [shiftIn_two, shiftIn_one, hone, hzero, Bool.xor_self]
  cases e with
  | clk50 c => exact hnext _
  | clkHdmi => exact absurd hp.1 (by decide)
  | both c rdMask wrMask vsNew toggleNew => exact hnext _

/-- A load belongs to a VSync that owes it. -/
theorem Synced.of_load (h : Synced s seen) (hl : s.csr.vsRise = true) :
    s.owesLoad = true := by
  have hord := h.level.order 1 (by omega)
  rw [HdmiCsr.vsRise] at hl
  rw [owesLoad]
  revert hord hl
  cases s.pixel.vsWire params <;> cases s.csr.vsSyncSh.getLsbD 1 <;>
    cases s.csr.vsSyncSh.getLsbD 2 <;> simp

end VideoPipeline
end VideoProcessing
