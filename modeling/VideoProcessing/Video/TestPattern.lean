import Mathlib.Tactic.IntervalCases
import Mathlib.Tactic.SplitIfs
import VideoProcessing.Video.HdmiTiming

/-!
# Where the test patterns appear

`visible_d1` and `hdmi_de` put two registers between the counters and the data
enable, but `hdmi_d` is the only register between the counters and the pixel: the
pixel shown at the data enable of column `x` is computed when `h_cnt` is already
`x + 1`.  `pattern_iff` says at which positions this cannot be seen.
-/

namespace VideoProcessing

/-- A colour channel on the way to the output: through the LUT when gamma is
enabled. -/
def HdmiCsr.look (c : HdmiCsr) (v : BitVec 8) : BitVec 8 :=
  if c.gammaEn then c.lutMem v else v

namespace HdmiPixel

open Lib

/-- A pixel domain whose counters are at `(x, y)`. -/
def counters (x y : Nat) : HdmiPixel :=
  { reset with
    hCnt := BitVec.ofNat 12 x
    vCnt := BitVec.ofNat 12 y }

/-- The pattern function: `pre_gamma_d` with `h_cnt = x` and `v_cnt = y`. -/
def pattern (p : HdmiParams) (c : HdmiCsr) (streamDataIn : BitVec 24) (x y : Nat) :
    BitVec 24 :=
  (counters x y).preGammaD p c streamDataIn

section Formulas

/-- The grey ramp of mode 3, with the blanking value to the right of the line. -/
def ramp (x : Nat) : BitVec 8 :=
  if x < 960 then BitVec.ofNat 8 (255 * x / 959) else 0

/-- The grid of mode 4, with no line to the right of the visible columns. -/
def grid (x y : Nat) : BitVec 8 :=
  if x < 960 ∧ (x % 60 = 0 ∨ y % 60 = 0) then 0xFF else 0

/-- The bars of mode 6; the last one goes on to the right of the line. -/
def bar (x : Nat) : BitVec 8 :=
  BitVec.ofNat 8 (32 * min 7 (8 * x / 960))

/-- The bit of the character tile at `(x, y)`. -/
def tileBit (bitmap : BitVec 4 → BitVec 16) (x y : Nat) : Bool :=
  (bitmap (BitVec.ofNat 4 (y / 4))).getLsbD (15 - x / 4 % 16)

/-- A channel of mode 7: the value where the tile has a bit, else zero. -/
def cell (bitmap : BitVec 4 → BitVec 16) (x y v : Nat) : BitVec 8 :=
  if tileBit bitmap x y then BitVec.ofNat 8 v else 0

end Formulas

/-- The pattern looks the same at `(x, y)` and one column to the right: the
channels of the two positions have the same output value. -/
def SameAtNext (c : HdmiCsr) (x y : Nat) : Prop :=
  match c.mode.toNat with
  | 3 => c.look (ramp (x + 1)) = c.look (ramp x)
  | 4 => c.look (grid (x + 1) y) = c.look (grid x y)
  | 6 => c.look (bar (x + 1)) = c.look (bar x)
  | 7 =>
      c.look (cell c.charBitmap (x + 1) y (x + 1 + y)) =
        c.look (cell c.charBitmap x y (x + y)) ∧
      c.look (cell c.charBitmap (x + 1) y ((x + 1) / 4)) =
        c.look (cell c.charBitmap x y (x / 4)) ∧
      c.look (cell c.charBitmap (x + 1) y (y / 4)) =
        c.look (cell c.charBitmap x y (y / 4))
  | _ => True

section Channels

variable (r g b : BitVec 8)

theorem channel_red : (r ++ g ++ b).extractLsb' 16 8 = r := by
  rw [BitVec.extractLsb'_append_eq_of_le (by decide)]
  exact BitVec.extractLsb'_append_eq_left

theorem channel_green : (r ++ g ++ b).extractLsb' 8 8 = g := by
  rw [BitVec.extractLsb'_append_eq_of_le (by decide)]
  exact BitVec.extractLsb'_append_eq_right

theorem channel_blue : (r ++ g ++ b).extractLsb' 0 8 = b :=
  BitVec.extractLsb'_append_eq_right

/-- Pixels are equal when their channels are. -/
theorem channels_inj (r' g' b' : BitVec 8) :
    r ++ g ++ b = r' ++ g' ++ b' ↔ r = r' ∧ g = g' ∧ b = b' := by
  constructor
  · intro h
    have hr := congrArg (BitVec.extractLsb' 16 8) h
    have hg := congrArg (BitVec.extractLsb' 8 8) h
    have hb := congrArg (BitVec.extractLsb' 0 8) h
    rw [channel_red, channel_red] at hr
    rw [channel_green, channel_green] at hg
    rw [channel_blue, channel_blue] at hb
    exact ⟨hr, hg, hb⟩
  · rintro ⟨rfl, rfl, rfl⟩
    rfl

/-- The LUT works on each channel. -/
theorem outputColor_channels (c : HdmiCsr) :
    outputColor c.gammaEn c.lutMem (r ++ g ++ b) = c.look r ++ c.look g ++ c.look b := by
  cases hg : c.gammaEn with
  | false => simp [outputColor, HdmiCsr.look, hg]
  | true =>
      simp only [outputColor, HdmiCsr.look, hg, if_true, gammaD]
      rw [channel_red, channel_green, channel_blue]

/-- A grey pixel looks like another when its level does. -/
theorem outputColor_grey_iff (c : HdmiCsr) (v w : BitVec 8) :
    outputColor c.gammaEn c.lutMem (v ++ v ++ v) =
      outputColor c.gammaEn c.lutMem (w ++ w ++ w) ↔ c.look v = c.look w := by
  rw [outputColor_channels, outputColor_channels, channels_inj]
  simp

end Channels

section Counters

variable {x y : Nat}

theorem counters_hCnt (hx : x < 4096) : (counters x y).hCnt.toNat = x := by
  simp only [counters, BitVec.toNat_ofNat]
  exact Nat.mod_eq_of_lt hx

theorem counters_vCnt (hy : y < 4096) : (counters x y).vCnt.toNat = y := by
  simp only [counters, BitVec.toNat_ofNat]
  exact Nat.mod_eq_of_lt hy

/-- `gray` at a column. -/
theorem gray_counters (hx : x < 4096) : (counters x y).gray HdmiParams.qhd = ramp x := by
  rw [gray, counters_hCnt hx, ramp, Nat.mul_comm]
  rfl

/-- `grid_line` at a position of a visible row. -/
theorem gridLine_counters (hx : x < 4096) (hy : y < 540) :
    (if (counters x y).gridLine HdmiParams.qhd then 0xFF#8 else 0) = grid x y := by
  have hvisible : (counters x y).visible HdmiParams.qhd = decide (x < 960) := by
    have hh : HdmiParams.qhd.hVisible = 960 := rfl
    have hv : HdmiParams.qhd.vVisible = 540 := rfl
    rw [visible, counters_hCnt hx, counters_vCnt (by omega), hh, hv]
    simp [hy]
  rw [gridLine, hvisible, counters_hCnt hx, counters_vCnt (by omega), grid]
  simp

/-- `bar_idx` at a column is the eighth of the line it is in. -/
theorem gray8Val_counters (hx : x < 4096) :
    (counters x y).gray8Val HdmiParams.qhd = bar x := by
  have hbar : (counters x y).barIdx HdmiParams.qhd =
      BitVec.ofNat 3 (min 7 (8 * x / 960)) := by
    rw [barIdx, counters_hCnt hx]
    have hv : HdmiParams.qhd.hVisible = 960 := rfl
    rw [hv, ← BitVec.toNat_inj]
    split_ifs <;> simp only [BitVec.ofNat_eq_ofNat, BitVec.toNat_ofNat] <;> omega
  have hval : ∀ k ≤ 7, BitVec.ofNat 3 k ++ 0#5 = BitVec.ofNat 8 (32 * k) := by decide
  rw [gray8Val, hbar, bar]
  exact hval _ (by omega)

/-- `char_pixel` at a position. -/
theorem charPixel_counters (hx : x < 4096) (hy : y < 4096) (c : HdmiCsr) :
    (counters x y).charPixel c = tileBit c.charBitmap x y := by
  have hrow : (counters x y).vCnt.extractLsb' 2 4 = BitVec.ofNat 4 (y / 4) := by
    rw [← BitVec.toNat_inj, BitVec.extractLsb'_toNat, counters_vCnt hy, BitVec.toNat_ofNat,
      Nat.shiftRight_eq_div_pow]
  have hcol : ((counters x y).hCnt.extractLsb' 2 4).toNat = x / 4 % 16 := by
    rw [BitVec.extractLsb'_toNat, counters_hCnt hx, Nat.shiftRight_eq_div_pow]
  rw [charPixel, tileBit, hrow, hcol]

/-- The pixel of a mode without the stream depends on the counters only. -/
theorem preGammaD_eq_pattern (p : HdmiParams) {s : HdmiPixel} (hx : s.hCnt.toNat = x)
    (hy : s.vCnt.toNat = y) {c : HdmiCsr} (hmode : c.mode.toNat ≤ 7) (d d' : BitVec 24) :
    s.preGammaD p c d = pattern p c d' x y := by
  have hh : s.hCnt = (counters x y).hCnt := by
    rw [← BitVec.toNat_inj, hx, counters_hCnt (hx ▸ s.hCnt.isLt)]
  have hv : s.vCnt = (counters x y).vCnt := by
    rw [← BitVec.toNat_inj, hy, counters_vCnt (hy ▸ s.vCnt.isLt)]
  simp only [pattern, preGammaD, gray, gridLine, visible, gray8Val, barIdx, charColor,
    charPixel, hh, hv]
  split
  case h_9 hm => omega
  all_goals rfl

/-- The colour of mode 7, channel by channel. -/
theorem charColor_counters (hx : x < 4096) (hy : y < 4096) (c : HdmiCsr) :
    (counters x y).charColor c =
      cell c.charBitmap x y (x + y) ++ cell c.charBitmap x y (x / 4) ++
        cell c.charBitmap x y (y / 4) := by
  have hr : (counters x y).hCnt.setWidth 8 + (counters x y).vCnt.setWidth 8 =
      BitVec.ofNat 8 (x + y) := by
    rw [← BitVec.toNat_inj]
    simp [counters_hCnt hx, counters_vCnt hy]
  have hg : (counters x y).hCnt.extractLsb' 2 8 = BitVec.ofNat 8 (x / 4) := by
    rw [← BitVec.toNat_inj, BitVec.extractLsb'_toNat, counters_hCnt hx, BitVec.toNat_ofNat,
      Nat.shiftRight_eq_div_pow]
  have hb : (counters x y).vCnt.extractLsb' 2 8 = BitVec.ofNat 8 (y / 4) := by
    rw [← BitVec.toNat_inj, BitVec.extractLsb'_toNat, counters_vCnt hy, BitVec.toNat_ofNat,
      Nat.shiftRight_eq_div_pow]
  rw [charColor, charPixel_counters hx hy, hr, hg, hb]
  simp only [cell]
  cases tileBit c.charBitmap x y <;> simp

/-- Two columns of a row look the same exactly when the channels of the mode's
pattern do. -/
theorem outputColor_pattern_iff {c : HdmiCsr} (hmode : c.mode.toNat ≤ 7) (hx : x < 960)
    (hy : y < 540) (d : BitVec 24) :
    outputColor c.gammaEn c.lutMem (pattern HdmiParams.qhd c d (x + 1) y) =
      outputColor c.gammaEn c.lutMem (pattern HdmiParams.qhd c d x y) ↔
        SameAtNext c x y := by
  have hx0 : x < 4096 := by omega
  have hx1 : x + 1 < 4096 := by omega
  have hy0 : y < 4096 := by omega
  have hgrid : ∀ x' < 4096,
      (if (counters x' y).gridLine HdmiParams.qhd then (0xFFFFFF : BitVec 24) else 0) =
        grid x' y ++ grid x' y ++ grid x' y := by
    intro x' hx'
    rw [← gridLine_counters hx' hy]
    cases (counters x' y).gridLine HdmiParams.qhd <;> rfl
  simp only [pattern, preGammaD, SameAtNext]
  generalize hm : c.mode.toNat = mode at hmode ⊢
  interval_cases mode
  case «3» =>
      simp only
      rw [gray_counters hx0, gray_counters hx1, outputColor_grey_iff]
  case «4» =>
      simp only
      rw [hgrid _ hx0, hgrid _ hx1, outputColor_grey_iff]
  case «6» =>
      simp only
      rw [gray8Val_counters hx0, gray8Val_counters hx1, outputColor_grey_iff]
  case «7» =>
      simp only
      rw [charColor_counters hx0 hy0, charColor_counters hx1 hy0, outputColor_channels,
        outputColor_channels, channels_inj]
  all_goals simp

end Counters

section GammaOff

/-- The positions at which two columns of a pattern have the same colour. -/
def SameColour (c : HdmiCsr) (x y : Nat) : Prop :=
  match c.mode.toNat with
  | 3 => x ≠ 959 ∧ 255 * (x + 1) / 959 = 255 * x / 959
  | 4 => if x = 959 then y % 60 ≠ 0 else y % 60 = 0 ∨ x % 60 ≠ 0 ∧ (x + 1) % 60 ≠ 0
  | 6 => x = 959 ∨ (x + 1) % 120 ≠ 0
  | 7 => tileBit c.charBitmap x y = false ∧ tileBit c.charBitmap (x + 1) y = false
  | _ => True

variable {x y : Nat}

theorem ramp_succ_iff (hx : x < 960) :
    ramp (x + 1) = ramp x ↔ x ≠ 959 ∧ 255 * (x + 1) / 959 = 255 * x / 959 := by
  have hval : ∀ z < 960, 255 * z / 959 < 256 := by
    intro z hz
    omega
  rw [ramp, ramp, if_pos hx, ← BitVec.toNat_inj, BitVec.toNat_ofNat,
    Nat.mod_eq_of_lt (hval x hx)]
  by_cases hlast : x = 959
  · subst hlast
    simp
  · rw [if_pos (by omega), BitVec.toNat_ofNat, Nat.mod_eq_of_lt (hval (x + 1) (by omega))]
    simp [hlast]

theorem grid_succ_iff (hx : x < 960) :
    grid (x + 1) y = grid x y ↔
      if x = 959 then y % 60 ≠ 0 else y % 60 = 0 ∨ x % 60 ≠ 0 ∧ (x + 1) % 60 ≠ 0 := by
  have hlevel : ∀ P Q : Prop, [Decidable P] → [Decidable Q] →
      ((if P then (0xFF : BitVec 8) else 0) = (if Q then 0xFF else 0) ↔ (P ↔ Q)) := by
    intro P Q _ _
    by_cases hP : P <;> by_cases hQ : Q <;> simp [hP, hQ]
  rw [grid, grid, hlevel]
  split <;> omega

theorem bar_succ_iff (hx : x < 960) :
    bar (x + 1) = bar x ↔ x = 959 ∨ (x + 1) % 120 ≠ 0 := by
  have hlt : ∀ z, 32 * min 7 (8 * z / 960) < 256 := by
    intro z
    omega
  rw [bar, bar, ← BitVec.toNat_inj, BitVec.toNat_ofNat, BitVec.toNat_ofNat,
    Nat.mod_eq_of_lt (hlt _), Nat.mod_eq_of_lt (hlt _)]
  omega

/-- The only black bit of the tile is at `(0, 0)`, and the next one is set with it. -/
theorem cell_succ_iff (bitmap : BitVec 4 → BitVec 16) (hx : x < 960) :
    (cell bitmap (x + 1) y (x + 1 + y) = cell bitmap x y (x + y) ∧
      cell bitmap (x + 1) y ((x + 1) / 4) = cell bitmap x y (x / 4) ∧
      cell bitmap (x + 1) y (y / 4) = cell bitmap x y (y / 4)) ↔
    tileBit bitmap x y = false ∧ tileBit bitmap (x + 1) y = false := by
  have hfirst : x = 0 → tileBit bitmap (x + 1) y = tileBit bitmap x y := by
    rintro rfl
    rfl
  have hblack : tileBit bitmap x y ≠ tileBit bitmap (x + 1) y → x ≠ 0 := by
    intro hne hx0
    exact hne (hfirst hx0).symm
  simp only [cell]
  cases h0 : tileBit bitmap x y <;> cases h1 : tileBit bitmap (x + 1) y <;>
    simp [h0, h1] at hblack <;> simp [← BitVec.toNat_inj] <;> omega

/-- Without gamma the two columns look the same when they have the same colour. -/
theorem sameAtNext_iff_sameColour {c : HdmiCsr} (hgamma : c.gammaEn = false)
    (hx : x < 960) :
    SameAtNext c x y ↔ SameColour c x y := by
  have hlook : ∀ v, c.look v = v := by
    intro v
    simp [HdmiCsr.look, hgamma]
  simp only [SameAtNext, SameColour, hlook]
  split
  · exact ramp_succ_iff hx
  · exact grid_succ_iff hx
  · exact bar_succ_iff hx
  · exact cell_succ_iff c.charBitmap hx
  · exact Iff.rfl

end GammaOff

section Runs

variable {p : HdmiParams}

/-- Outside the data enable the pixel is black. -/
theorem blanking (ins : List Clk) :
    (run (clk p) reset ins).hdmiDe = false → (run (clk p) reset ins).hdmiD = 0 := by
  refine run_invariant (P := fun s : HdmiPixel => s.hdmiDe = false → s.hdmiD = 0)
    (fun _ => rfl) ?_ ins
  intro s i _ hde
  have hvisible : s.visibleD1 = false := hde
  simp [clk, step, hvisible]

/-- Two clocks after a visible position the data enable is high, and the pixel is
the pattern at the next column. -/
theorem Raster.two_clocks {s : HdmiPixel} (h : Raster p s) (hvisible : s.visible p = true)
    (i₁ : Clk) {i₂ : Clk} (hmode : i₂.csr.mode.toNat ≤ 7) (d : BitVec 24) :
    (run (clk p) s [i₁, i₂]).hdmiDe = true ∧
    (run (clk p) s [i₁, i₂]).hdmiD = outputColor i₂.csr.gammaEn i₂.csr.lutMem
      (pattern p i₂.csr d (s.hCnt.toNat + 1) s.vCnt.toNat) := by
  have htotal := p.hTotal_eq
  have hfront := p.hFront_pos
  have hcol : s.hCnt.toNat ≠ p.hTotal - 1 := by
    simp only [visible, Bool.and_eq_true, decide_eq_true_eq] at hvisible
    omega
  have hh := h.step_hCnt i₁.csr i₁.streamDataIn
  have hv := h.step_vCnt i₁.csr i₁.streamDataIn
  rw [if_neg hcol] at hh hv
  have hd : (run (clk p) s [i₁, i₂]).hdmiD = if s.visible p then
      outputColor i₂.csr.gammaEn i₂.csr.lutMem
        ((s.step p i₁.csr i₁.streamDataIn).preGammaD p i₂.csr i₂.streamDataIn) else 0 := rfl
  refine ⟨hvisible, ?_⟩
  rw [hd, if_pos hvisible, preGammaD_eq_pattern p hh hv hmode _ d]

/-- **The pixels of the test patterns.**  In every run of `clk_pixel` from reset
the pixel is black outside `hdmi_de`; and two clocks after the counters are at a
visible position `hdmi_de` is high, and in the modes 0 to 7 `hdmi_d` is the
pattern at that position exactly when the pattern looks the same one column to
the right; without gamma that is when the two columns have the same colour. -/
theorem pattern_iff (ins : List Clk) (i₁ i₂ : Clk)
    (hvisible : (run (clk HdmiParams.qhd) reset ins).visible HdmiParams.qhd = true)
    (hmode : i₂.csr.mode.toNat ≤ 7) (d : BitVec 24) :
    let s := run (clk HdmiParams.qhd) reset ins
    let t := run (clk HdmiParams.qhd) reset (ins ++ [i₁, i₂])
    (∀ js, (run (clk HdmiParams.qhd) reset js).hdmiDe = false →
      (run (clk HdmiParams.qhd) reset js).hdmiD = 0) ∧
    t.hdmiDe = true ∧
    (t.hdmiD = outputColor i₂.csr.gammaEn i₂.csr.lutMem
        (pattern HdmiParams.qhd i₂.csr d s.hCnt.toNat s.vCnt.toNat) ↔
      SameAtNext i₂.csr s.hCnt.toNat s.vCnt.toNat) ∧
    (i₂.csr.gammaEn = false → (SameAtNext i₂.csr s.hCnt.toNat s.vCnt.toNat ↔
      SameColour i₂.csr s.hCnt.toNat s.vCnt.toNat)) := by
  intro s t
  have ht : t = run (clk HdmiParams.qhd) s [i₁, i₂] := run_append _ _ _ _
  have hraster : Raster HdmiParams.qhd s := raster_run ins
  obtain ⟨hde, hd⟩ := hraster.two_clocks hvisible i₁ hmode d
  have hpos : s.hCnt.toNat < 960 ∧ s.vCnt.toNat < 540 := by
    rw [visible, Bool.and_eq_true, decide_eq_true_eq, decide_eq_true_eq] at hvisible
    exact hvisible
  refine ⟨blanking, ?_⟩
  rw [ht]
  refine ⟨hde, ?_, fun hgamma => sameAtNext_iff_sameColour hgamma hpos.1⟩
  rw [hd]
  exact outputColor_pattern_iff hmode hpos.1 hpos.2 d

/-- A column of the white mode. -/
theorem pattern_iff_white :
    let c := { HdmiCsr.blank.reset with regMode := 5 }
    let t := run (clk HdmiParams.qhd) reset ([] ++ [⟨c, 0⟩, ⟨c, 0⟩])
    t.hdmiDe = true ∧
    t.hdmiD = outputColor c.gammaEn c.lutMem (pattern HdmiParams.qhd c 0 0 0) := by
  intro c t
  obtain ⟨_, hde, hd, _⟩ := pattern_iff [] ⟨c, 0⟩ ⟨c, 0⟩ (by decide) (by decide) 0
  exact ⟨hde, hd.2 trivial⟩

/-- The registers after reset with the ramp selected. -/
def rampCsr : HdmiCsr :=
  { HdmiCsr.blank.reset with regMode := 3 }

/-- At column 3 of the first row the ramp is not at its own column: the pixel has
the level of column 4. -/
theorem pattern_fails :
    let i : Clk := ⟨rampCsr, 0⟩
    let s := run (clk HdmiParams.qhd) reset [i, i, i]
    let t := run (clk HdmiParams.qhd) reset [i, i, i, i, i]
    s.hCnt = 3 ∧ s.vCnt = 0 ∧ s.visible HdmiParams.qhd = true ∧ t.hdmiDe = true ∧
    t.hdmiD = 0x010101 ∧
    outputColor rampCsr.gammaEn rampCsr.lutMem (pattern HdmiParams.qhd rampCsr 0 3 0) = 0 := by
  decide

end Runs

end HdmiPixel
end VideoProcessing
