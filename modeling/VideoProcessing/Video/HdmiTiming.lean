import VideoProcessing.Video.HdmiSyncGen

/-!
# The raster of `hdmi_sync_gen`

`Raster` is the invariant of the pixel counters and of the delayed VSync.  One
pixel clock moves the counters to the next position of the raster; the VSync
level changes only at the start of a line and rises only at the first line of
the sync pulse.
-/

namespace VideoProcessing
namespace HdmiPixel

open Lib

variable (p : HdmiParams)

/-- The VSync level of a line. -/
def vsAt (v : Nat) : Bool :=
  v ≥ p.vVisible + p.vFront && v < p.vVisible + p.vFront + p.vSync

/-- The first line of the VSync pulse. -/
def vsStart : Nat := p.vVisible + p.vFront

theorem vsWire_eq (s : HdmiPixel) : s.vsWire p = vsAt p s.vCnt.toNat := rfl

/-- The counters stay in the raster; `vs_d1` and `visible_d1` are one pixel clock
behind them and `hdmi_de` is two. -/
structure Raster (s : HdmiPixel) : Prop where
  h_lt : s.hCnt.toNat < p.hTotal
  v_lt : s.vCnt.toNat < p.vTotal
  vsD1 : s.vsD1 =
    vsAt p (if s.hCnt.toNat = 0 then s.vCnt.toNat - 1 else s.vCnt.toNat)
  visibleD1 : s.visibleD1 = decide (1 ≤ s.hCnt.toNat ∧ s.hCnt.toNat ≤ p.hVisible ∧
    s.vCnt.toNat < p.vVisible)
  hdmiDe : s.hdmiDe = decide (2 ≤ s.hCnt.toNat ∧ s.hCnt.toNat ≤ p.hVisible + 1 ∧
    s.vCnt.toNat < p.vVisible)

theorem vsAt_zero : vsAt p 0 = false := by
  have := p.vFront_pos
  simp only [vsAt, Bool.and_eq_false_iff, decide_eq_false_iff_not]
  left
  omega

theorem vsAt_last : vsAt p (p.vTotal - 1) = false := by
  have := p.vTotal_eq
  have := p.vBack_pos
  simp only [vsAt, Bool.and_eq_false_iff, decide_eq_false_iff_not]
  right
  omega

/-- The level rises into the first line of the pulse only. -/
theorem vsAt_rise (v : Nat) : (vsAt p v && !vsAt p (v - 1)) = true ↔ v = vsStart p := by
  have := p.vFront_pos
  have := p.vSync_pos
  simp only [vsAt, vsStart, Bool.and_eq_true, Bool.not_eq_true', Bool.and_eq_false_iff,
    decide_eq_true_eq, decide_eq_false_iff_not]
  omega

theorem raster_reset : Raster p reset where
  h_lt := by
    have := p.hTotal_eq
    have := p.hFront_pos
    change 0 < p.hTotal
    omega
  v_lt := by
    have := p.vTotal_eq
    have := p.vFront_pos
    change 0 < p.vTotal
    omega
  vsD1 := (vsAt_zero p).symm
  visibleD1 := rfl
  hdmiDe := rfl

variable {p} {s : HdmiPixel}

/-- The next column. -/
theorem Raster.step_hCnt (h : Raster p s) (c : HdmiCsr) (d : BitVec 24) :
    (s.step p c d).hCnt.toNat =
      if s.hCnt.toNat = p.hTotal - 1 then 0 else s.hCnt.toNat + 1 := by
  have hlt := h.h_lt
  have hmax := p.hTotal_lt
  simp only [step]
  split
  · rfl
  · exact BitVec.toNat_add_of_lt (y := 1#12) (by simp; omega)

/-- The next line. -/
theorem Raster.step_vCnt (h : Raster p s) (c : HdmiCsr) (d : BitVec 24) :
    (s.step p c d).vCnt.toNat =
      if s.hCnt.toNat = p.hTotal - 1 then
        if s.vCnt.toNat = p.vTotal - 1 then 0 else s.vCnt.toNat + 1
      else s.vCnt.toNat := by
  have hlt := h.v_lt
  have hmax := p.vTotal_lt
  simp only [step]
  split
  · split
    · rfl
    · exact BitVec.toNat_add_of_lt (y := 1#12) (by simp; omega)
  · rfl

theorem Raster.step (h : Raster p s) (c : HdmiCsr) (d : BitVec 24) :
    Raster p (s.step p c d) where
  h_lt := by
    have := h.h_lt
    rw [h.step_hCnt]
    split <;> omega
  v_lt := by
    have := h.v_lt
    rw [h.step_vCnt]
    split
    · split <;> omega
    · omega
  vsD1 := by
    have hd : (s.step p c d).vsD1 = vsAt p s.vCnt.toNat := rfl
    rw [hd, h.step_hCnt, h.step_vCnt]
    by_cases hh : s.hCnt.toNat = p.hTotal - 1
    · rw [if_pos hh, if_pos hh, if_pos rfl]
      by_cases hv : s.vCnt.toNat = p.vTotal - 1
      · rw [if_pos hv, hv, vsAt_last, Nat.zero_sub, vsAt_zero]
      · rw [if_neg hv, Nat.add_sub_cancel]
    · rw [if_neg hh, if_neg hh, if_neg (by omega)]
  visibleD1 := by
    have hd : (s.step p c d).visibleD1 = s.visible p := rfl
    have htotal := p.hTotal_eq
    have hfront := p.hFront_pos
    rw [hd, h.step_hCnt, h.step_vCnt, visible, Bool.eq_iff_iff, Bool.and_eq_true,
      decide_eq_true_eq, decide_eq_true_eq, decide_eq_true_eq]
    split <;> omega
  hdmiDe := by
    have hd : (s.step p c d).hdmiDe = s.visibleD1 := rfl
    have htotal := p.hTotal_eq
    have hfront := p.hFront_pos
    have hsync := p.hSync_pos
    rw [hd, h.visibleD1, h.step_hCnt, h.step_vCnt, decide_eq_decide]
    split <;> omega

/-- At the end of a line the VSync level is that of the line before the next. -/
theorem Raster.vsAt_pred (h : Raster p s) (hh : s.hCnt.toNat = p.hTotal - 1)
    (c : HdmiCsr) (d : BitVec 24) :
    vsAt p ((s.step p c d).vCnt.toNat - 1) = s.vsWire p := by
  have hd := (h.step c d).vsD1
  rw [h.step_hCnt, if_pos hh, if_pos rfl] at hd
  exact hd.symm

/-- Within a line the VSync level stays. -/
theorem Raster.vsWire_step (h : Raster p s) (hh : s.hCnt.toNat ≠ p.hTotal - 1)
    (c : HdmiCsr) (d : BitVec 24) : (s.step p c d).vsWire p = s.vsWire p := by
  rw [vsWire_eq, vsWire_eq, h.step_vCnt, if_neg hh]

/-- A pixel clock that raises VSync leads to the start of the first line of the
pulse. -/
theorem Raster.rise_iff (h : Raster p s) (c : HdmiCsr) (d : BitVec 24) :
    (!s.vsWire p && (s.step p c d).vsWire p) = true ↔
      (s.step p c d).hCnt.toNat = 0 ∧ (s.step p c d).vCnt.toNat = vsStart p := by
  have hstart : 0 < vsStart p := by
    have := p.vFront_pos
    unfold vsStart
    omega
  rw [vsWire_eq, vsWire_eq, h.step_hCnt, h.step_vCnt]
  by_cases hh : s.hCnt.toNat = p.hTotal - 1
  · rw [if_pos hh, if_pos hh]
    by_cases hv : s.vCnt.toNat = p.vTotal - 1
    · rw [if_pos hv, vsAt_zero, Bool.and_false]
      constructor
      · intro hf
        exact absurd hf (by decide)
      · rintro ⟨_, hz⟩
        omega
    · rw [if_neg hv, Bool.and_comm]
      have hrise := vsAt_rise p (s.vCnt.toNat + 1)
      rw [Nat.add_sub_cancel] at hrise
      rw [hrise]
      simp
  · rw [if_neg hh, if_neg hh]
    constructor
    · intro hf
      cases hv : vsAt p s.vCnt.toNat <;> simp [hv] at hf
    · rintro ⟨hz, _⟩
      omega

/-- The toggle is about to flip: VSync has risen in the last pixel clock. -/
def flips (s : HdmiPixel) (p : HdmiParams) : Bool :=
  s.vsWire p && !s.vsD1

theorem step_vsToggle (s : HdmiPixel) (c : HdmiCsr) (d : BitVec 24) :
    (s.step p c d).vsToggle = (s.vsToggle ^^ s.flips p) := by
  simp only [HdmiPixel.step, flips]
  cases s.vsWire p && !s.vsD1 <;> simp

/-- The toggle flips right after the start of the first line of the pulse. -/
theorem Raster.flips_iff (h : Raster p s) :
    s.flips p = true ↔ s.hCnt.toNat = 0 ∧ s.vCnt.toNat = vsStart p := by
  rw [flips, vsWire_eq, h.vsD1]
  by_cases hh : s.hCnt.toNat = 0
  · rw [if_pos hh, vsAt_rise]
    simp [hh]
  · rw [if_neg hh]
    simp [hh]

section Runs

/-- What the pixel domain sees at one `clk_pixel` edge: the registers of the CSR
domain and `stream_data_in`. -/
structure Clk where
  csr : HdmiCsr
  streamDataIn : BitVec 24

/-- One `clk_pixel` edge as a transition over its inputs. -/
def clk (p : HdmiParams) (s : HdmiPixel) (i : Clk) : HdmiPixel :=
  s.step p i.csr i.streamDataIn

theorem raster_run (ins : List Clk) : Raster p (run (clk p) reset ins) :=
  run_invariant (raster_reset p) (fun _ i h => h.step i.csr i.streamDataIn) ins

end Runs

end HdmiPixel
end VideoProcessing
