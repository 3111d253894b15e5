import Mathlib.Data.List.Rotate
import Mathlib.Tactic.Common

/-!
# Raster scans

A scan of lines of `H` positions, `V` lines to a frame: position `n` lies in
column `n % H` of line `n / H % V`.  The part with `a` columns and `b` lines in
the corner is the visible one.

* `mod_succ`, `div_succ_mod`: the next position, as two nested counters compute
  it;
* `frame_seen`: one frame meets the visible spots in row-major order;
* `window_seen`: any `H * V` consecutive positions meet each of them once, in
  the cyclic order, from the spot that the rank of the first position gives.
-/

namespace VideoProcessing
namespace Lib
namespace Scan

variable {H V a b : Nat}

section Counters

/-- The column counter: back to `0` at the end of a line. -/
theorem mod_succ (hH : 0 < H) (n : Nat) :
    (n + 1) % H = if n % H = H - 1 then 0 else n % H + 1 := by
  have hlt := Nat.mod_lt n hH
  have hn := Nat.div_add_mod n H
  by_cases hlast : n % H = H - 1
  · have hnext : n + 1 = H * (n / H + 1) := by
      rw [Nat.mul_add, Nat.mul_one]
      omega
    rw [if_pos hlast, hnext, Nat.mul_mod_right]
  · have hnext : n + 1 = H * (n / H) + (n % H + 1) := by omega
    rw [if_neg hlast]
    conv_lhs => rw [hnext]
    rw [Nat.mul_add_mod, Nat.mod_eq_of_lt (by omega)]

theorem div_succ (hH : 0 < H) (n : Nat) :
    (n + 1) / H = if n % H = H - 1 then n / H + 1 else n / H := by
  have hlt := Nat.mod_lt n hH
  have hn := Nat.div_add_mod n H
  by_cases hlast : n % H = H - 1
  · have hnext : n + 1 = H * (n / H + 1) := by
      rw [Nat.mul_add, Nat.mul_one]
      omega
    rw [if_pos hlast]
    conv_lhs => rw [hnext]
    rw [Nat.mul_div_cancel_left _ hH]
  · have hnext : n + 1 = H * (n / H) + (n % H + 1) := by omega
    rw [if_neg hlast]
    conv_lhs => rw [hnext]
    rw [Nat.mul_add_div hH, Nat.div_eq_of_lt (a := n % H + 1) (by omega), Nat.add_zero]

/-- The line counter: it moves at the end of a line, back to `0` at the end of
a frame. -/
theorem div_succ_mod (hH : 0 < H) (hV : 0 < V) (n : Nat) :
    (n + 1) / H % V =
      if n % H = H - 1 then
        if n / H % V = V - 1 then 0 else n / H % V + 1
      else n / H % V := by
  rw [div_succ hH]
  by_cases hlast : n % H = H - 1
  · rw [if_pos hlast, if_pos hlast, mod_succ hV]
  · rw [if_neg hlast, if_neg hlast]

/-- A position is at the start of line `y` once in a frame. -/
theorem mod_mul_eq_iff (hH : 0 < H) (n y : Nat) :
    n % (H * V) = H * y ↔ n % H = 0 ∧ n / H % V = y := by
  have hlt := Nat.mod_lt n hH
  rw [Nat.mod_mul]
  constructor
  · intro h
    have hmod : (n % H + H * (n / H % V)) % H = (H * y) % H := by rw [h]
    rw [Nat.add_mul_mod_self_left, Nat.mod_mod, Nat.mul_mod_right] at hmod
    rw [hmod, Nat.zero_add] at h
    exact ⟨hmod, Nat.eq_of_mul_eq_mul_left hH h⟩
  · rintro ⟨h0, hy⟩
    rw [h0, hy, Nat.zero_add]

end Counters

/-- The visible spot under position `n`, as column and line. -/
def spot (H V a b n : Nat) : Option (Nat × Nat) :=
  if n % H < a ∧ n / H % V < b then some (n % H, n / H % V) else none

/-- The visible spots of `m` positions from position `n` on. -/
def seen (H V a b n m : Nat) : List (Nat × Nat) :=
  (List.range m).filterMap fun i => spot H V a b (n + i)

/-- The first `a` spots of line `y`. -/
def line (a y : Nat) : List (Nat × Nat) :=
  (List.range a).map fun x => (x, y)

/-- All visible spots, line after line. -/
def rowMajor (a b : Nat) : List (Nat × Nat) :=
  (List.range b).flatMap (line a)

/-- How many visible spots of its frame lie before position `n`. -/
def rank (H V a b n : Nat) : Nat :=
  min (n / H % V) b * a + if n / H % V < b then min (n % H) a else 0

@[simp] theorem length_line (a y : Nat) : (line a y).length = a := by
  rw [line, List.length_map, List.length_range]

theorem length_rowMajor (a b : Nat) : (rowMajor a b).length = b * a := by
  induction b with
  | zero => rw [rowMajor, List.range_zero, List.flatMap_nil, List.length_nil, Nat.zero_mul]
  | succ b ih =>
      have hnext : rowMajor a (b + 1) = rowMajor a b ++ line a b := by
        simp only [rowMajor, List.range_succ, List.flatMap_append, List.flatMap_singleton]
      rw [hnext, List.length_append, ih, length_line, Nat.succ_mul]

theorem seen_add (n m k : Nat) :
    seen H V a b n (m + k) = seen H V a b n m ++ seen H V a b (n + m) k := by
  rw [seen, List.range_add, List.filterMap_append, List.filterMap_map, seen, seen]
  congr 2
  funext i
  rw [Function.comp_apply, Nat.add_assoc]

/-- Within line `y` of the first frame. -/
theorem spot_line (hH : 0 < H) {x y : Nat} (hx : x < H) (hy : y < V) :
    spot H V a b (y * H + x) = if x < a ∧ y < b then some (x, y) else none := by
  have hmod : (y * H + x) % H = x := by
    rw [Nat.mul_comm, Nat.mul_add_mod, Nat.mod_eq_of_lt hx]
  have hdiv : (y * H + x) / H % V = y := by
    rw [Nat.mul_comm, Nat.mul_add_div hH, Nat.div_eq_of_lt hx, Nat.add_zero,
      Nat.mod_eq_of_lt hy]
  rw [spot, hmod, hdiv]

/-- The first `x` positions of line `y`. -/
theorem seen_line (hH : 0 < H) {x y : Nat} (hx : x ≤ H) (hy : y < V) :
    seen H V a b (y * H) x = if y < b then line (min x a) y else [] := by
  induction x with
  | zero =>
      rw [seen, Nat.zero_min]
      split <;> rfl
  | succ x ih =>
      have hone : seen H V a b (y * H + x) 1 = (spot H V a b (y * H + x)).toList := by
        rw [seen, List.range_one]
        cases h : spot H V a b (y * H + x) <;> simp [h]
      rw [seen_add, ih (by omega), hone, spot_line hH (by omega) hy]
      by_cases hyb : y < b
      · rw [if_pos hyb, if_pos hyb]
        by_cases hxa : x < a
        · rw [if_pos ⟨hxa, hyb⟩, show min (x + 1) a = x + 1 by omega,
            show min x a = x by omega, line, line, List.range_succ, List.map_append]
          rfl
        · rw [if_neg (fun h => hxa h.1), show min (x + 1) a = min x a by omega]
          simp
      · rw [if_neg hyb, if_neg hyb, if_neg (fun h => hyb h.2)]
        rfl

/-- The first `y` lines of a frame. -/
theorem seen_lines (hH : 0 < H) (ha : a ≤ H) {y : Nat} (hy : y ≤ V) :
    seen H V a b 0 (y * H) = rowMajor a (min y b) := by
  induction y with
  | zero => rw [Nat.zero_mul, Nat.zero_min]; rfl
  | succ y ih =>
      rw [Nat.succ_mul, seen_add, ih (by omega), Nat.zero_add,
        seen_line hH le_rfl (by omega)]
      by_cases hyb : y < b
      · rw [if_pos hyb, show min (y + 1) b = y + 1 by omega, show min y b = y by omega,
          show min H a = a by omega]
        simp only [rowMajor, List.range_succ, List.flatMap_append, List.flatMap_singleton]
      · rw [if_neg hyb, show min (y + 1) b = min y b by omega, List.append_nil]

/-- One frame meets the visible spots in row-major order. -/
theorem frame_seen (hH : 0 < H) (ha : a ≤ H) (hb : b ≤ V) :
    seen H V a b 0 (H * V) = rowMajor a b := by
  rw [Nat.mul_comm, seen_lines hH ha le_rfl, show min V b = b by omega]

/-- The visible spots before position `n` of a frame, counted. -/
theorem length_seen_frame (hH : 0 < H) (hV : 0 < V) (ha : a ≤ H) (n : Nat) :
    (seen H V a b 0 (n % (H * V))).length = rank H V a b n := by
  have hx := Nat.mod_lt n hH
  have hy := Nat.mod_lt (n / H) hV
  have hpos : n % (H * V) = n / H % V * H + n % H := by
    rw [Nat.mod_mul, Nat.mul_comm, Nat.add_comm]
  rw [hpos, seen_add, Nat.zero_add, seen_lines hH ha (by omega),
    seen_line hH (by omega) hy, List.length_append, length_rowMajor, rank]
  split <;> simp

/-- The scan repeats after a frame. -/
theorem spot_add_frame (hH : 0 < H) (n : Nat) :
    spot H V a b (n + H * V) = spot H V a b n := by
  have hmod : (n + H * V) % H = n % H := by rw [Nat.add_mul_mod_self_left]
  have hdiv : (n + H * V) / H % V = n / H % V := by
    rw [Nat.add_mul_div_left _ _ hH, Nat.add_mod_right]
  rw [spot, spot, hmod, hdiv]

theorem spot_mod (hH : 0 < H) (n i : Nat) :
    spot H V a b (n % (H * V) + i) = spot H V a b (n + i) := by
  have hframes : ∀ q m, spot H V a b (m + H * V * q) = spot H V a b m := by
    intro q
    induction q with
    | zero => intro m; rw [Nat.mul_zero, Nat.add_zero]
    | succ q ih => intro m; rw [Nat.mul_succ, ← Nat.add_assoc, spot_add_frame hH, ih]
  have hn : n + i = n % (H * V) + i + H * V * (n / (H * V)) := by
    have := Nat.mod_add_div n (H * V)
    omega
  rw [hn, hframes]

/-- Any window as long as a frame meets the visible spots once each, in the cyclic order of
the scan: it is the rest of the frame at `n` and the start of the next one. -/
theorem window_seen (hH : 0 < H) (hV : 0 < V) (ha : a ≤ H) (hb : b ≤ V) (n : Nat) :
    seen H V a b n (H * V) = (rowMajor a b).rotate (rank H V a b n) := by
  let r := n % (H * V)
  have hr : r < H * V := Nat.mod_lt n (Nat.mul_pos hH hV)
  have hlen : H * V = r + (H * V - r) := by omega
  have hsplit : seen H V a b n (H * V) =
      seen H V a b r (H * V - r) ++ seen H V a b 0 r := by
    have hshift : seen H V a b n (H * V) = seen H V a b r (H * V) :=
      congrArg (fun f => (List.range (H * V)).filterMap f)
        (funext fun i => (spot_mod hH n i).symm)
    have hnext : seen H V a b (r + (H * V - r)) r = seen H V a b 0 r :=
      congrArg (fun f => (List.range r).filterMap f) (funext fun i => by
        rw [← hlen, Nat.zero_add, Nat.add_comm, spot_add_frame hH])
    conv_lhs => rw [hshift, show H * V = H * V - r + r by omega]
    rw [seen_add, hnext]
  have hframe : seen H V a b 0 r ++ seen H V a b r (H * V - r) = rowMajor a b := by
    rw [← frame_seen hH ha hb]
    conv_rhs => rw [hlen]
    rw [seen_add, Nat.zero_add]
  rw [hsplit, ← hframe, ← length_seen_frame hH hV ha n, List.rotate_append_length_eq]

end Scan
end Lib
end VideoProcessing
