import Mathlib.Data.Int.GCD
import Mathlib.Data.Nat.ModEq
import Mathlib.Tactic.Common
import Mathlib.Tactic.Ring

/-!
# A buffer that is filled and drained in fixed portions

A buffer of capacity `d` is filled `a` units at a time while they fit and drained
`b` units at a time while they are there.  `Blocked` is a level at which neither
is possible.

* `not_blocked`: with `a + b - gcd a b ≤ d` no level that can occur is blocked;
* `exists_last`, `Level.blocked_of_last`, `Level.returns`: with less, there is a
  number of portions after which the buffer is blocked and before which it cannot
  have become empty again.
-/

namespace VideoProcessing
namespace Lib
namespace Tank

/-- The level `v` after `i` fills of `a` and `j` drains of `b`. -/
structure Level (d a b i j v : Nat) : Prop where
  eq : v + j * b = i * a
  le : v ≤ d

/-- There is no room for a fill and not enough for a drain. -/
def Blocked (d a b v : Nat) : Prop := v < b ∧ d < v + a

variable {d a b i j v : Nat}

/-- A buffer with room for both portions, less their common divisor, is never blocked: a
multiple below `b` is at most `b - gcd a b`. -/
theorem not_blocked (hroom : a + b - Nat.gcd a b ≤ d) (hv : Nat.gcd a b ∣ v) :
    ¬ Blocked d a b v := by
  rintro ⟨hlt, hfull⟩
  have hgap : Nat.gcd a b ∣ b - v := Nat.dvd_sub (Nat.gcd_dvd_right a b) hv
  have hle := Nat.le_of_dvd (by omega) hgap
  omega

/-- The portions so far give the level modulo `a + b`. -/
theorem Level.mod (h : Level d a b i j v) (hd : d < a + b) :
    (i + j) * a % (a + b) = v := by
  have hsum : (i + j) * a = v + j * (a + b) := by
    have heq := h.eq
    rw [Nat.add_mul, Nat.mul_add, ← heq]
    ring
  have hle := h.le
  rw [hsum, Nat.add_mul_mod_self_right, Nat.mod_eq_of_lt (by omega)]

/-- A number of portions that leads to the level `b - gcd a b`, before any number
that leads back to an empty buffer. -/
theorem exists_last (ha : 0 < a) (hb : 0 < b) :
    ∃ k, k * a % (a + b) = b - Nat.gcd a b ∧ ∀ n, 0 < n → n * a % (a + b) = 0 → k < n := by
  obtain ⟨g, x, y, hg, hco, rfl, rfl⟩ := Nat.exists_coprime' (m := a) (n := b)
    (Nat.gcd_pos_of_pos_left b ha)
  have hx : 0 < x := Nat.pos_of_mul_pos_right ha
  have hy : 0 < y := Nat.pos_of_mul_pos_right hb
  have hgcd : Nat.gcd (x * g) (y * g) = g := by
    rw [Nat.gcd_mul_right, hco.gcd_eq_one, Nat.one_mul]
  have hco' : Nat.Coprime x (x + y) := by
    rw [Nat.coprime_self_add_right]
    exact hco
  have hsum : x * g + y * g = (x + y) * g := (Nat.add_mul x y g).symm
  obtain ⟨k, hlt, hk⟩ := Nat.exists_mul_mod_eq_of_coprime (y - 1) hco' (by omega)
  have hmod : ∀ n, n * (x * g) % ((x + y) * g) = n * x % (x + y) * g := by
    intro n
    rw [← Nat.mul_assoc, Nat.mul_mod_mul_right]
  rw [hgcd, hsum]
  refine ⟨k, ?_, ?_⟩
  · rw [hmod, Nat.mul_comm k x, hk, Nat.mod_eq_of_lt (by omega), Nat.sub_mul, Nat.one_mul]
  · intro n hn hzero
    rw [hmod] at hzero
    have hdvd : (x + y) ∣ n * x := by
      rcases Nat.mul_eq_zero.1 hzero with h0 | h0
      · exact Nat.dvd_of_mod_eq_zero h0
      · omega
    have hle := Nat.le_of_dvd hn (hco'.symm.dvd_of_dvd_mul_right hdvd)
    omega

/-- After the last number of portions the buffer is blocked. -/
theorem Level.blocked_of_last (h : Level d a b i j v) (hb : 0 < b)
    (hd : d < a + b - Nat.gcd a b) (hlast : (i + j) * a % (a + b) = b - Nat.gcd a b) :
    Blocked d a b v := by
  have hg : 0 < Nat.gcd a b := Nat.gcd_pos_of_pos_right a hb
  have hle : Nat.gcd a b ≤ b := Nat.gcd_le_right a hb
  rw [h.mod (by omega)] at hlast
  exact ⟨by omega, by omega⟩

/-- An empty buffer has seen none of the portions or more than the last number. -/
theorem Level.returns (h : Level d a b i j 0) (hd : d < a + b) {k : Nat}
    (hlast : ∀ n, 0 < n → n * a % (a + b) = 0 → k < n) (hpos : 0 < i + j) : k < i + j :=
  hlast _ hpos (h.mod hd)

end Tank
end Lib
end VideoProcessing
