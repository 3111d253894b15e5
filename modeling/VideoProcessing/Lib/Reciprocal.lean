import Mathlib.Tactic.Common

/-!
# Division by a constant as a multiplication

Hardware divides by `d` with a multiplication by `m` and a division by a power of
two `N`, where `m * d` is `N` plus a small excess `e`.  `mul_div_eq` gives the
exact difference to the true quotient; it grows with the quotient.
-/

namespace VideoProcessing
namespace Lib
namespace Reciprocal

variable {d m N e x : Nat}

/-- The approximate quotient is the true one plus the carry of the excess. -/
theorem mul_div_eq (hN : 0 < N) (hexcess : m * d = N + e) (x : Nat) :
    x * m / N = x / d + (e * (x / d) + m * (x % d)) / N := by
  have hsplit : x * m = N * (x / d) + (e * (x / d) + m * (x % d)) := by
    calc x * m = (d * (x / d) + x % d) * m := by rw [Nat.div_add_mod]
      _ = m * d * (x / d) + m * (x % d) := by
          rw [Nat.add_mul, Nat.mul_comm (x % d) m, Nat.mul_comm m d, Nat.mul_assoc d m,
            Nat.mul_comm m (x / d), Nat.mul_assoc d]
      _ = N * (x / d) + (e * (x / d) + m * (x % d)) := by
          rw [hexcess, Nat.add_mul, Nat.add_assoc]
  rw [hsplit, Nat.mul_add_div hN]

/-- The approximate quotient is never too small. -/
theorem div_le (hN : 0 < N) (hexcess : m * d = N + e) (x : Nat) : x / d ≤ x * m / N := by
  rw [mul_div_eq hN hexcess]
  exact Nat.le_add_right _ _

/-- It is at most one too large exactly while the carry stays below two. -/
theorem le_succ_iff (hN : 0 < N) (hexcess : m * d = N + e) (x : Nat) :
    x * m / N ≤ x / d + 1 ↔ e * (x / d) + m * (x % d) < 2 * N := by
  rw [mul_div_eq hN hexcess, Nat.add_le_add_iff_left, ← Nat.lt_succ_iff,
    Nat.div_lt_iff_lt_mul hN]

end Reciprocal
end Lib
end VideoProcessing
