import Mathlib.Algebra.Group.Nat.Defs
import Mathlib.Tactic.Common

/-!
# Wrapping counters

A hardware counter of width `w` holds its true count modulo `2 ^ w`.  Inside a
window shorter than one turn the wrapped values tell the true counts apart and
their difference is the true difference.
-/

namespace VideoProcessing
namespace Lib
namespace Counter

variable {w : Nat}

theorem ofNat_succ (a : Nat) :
    BitVec.ofNat w (a + 1) = BitVec.ofNat w a + 1#w := by
  rw [BitVec.ofNat_add]

/-- Two counts less than one turn apart are equal when their wrapped values are. -/
theorem ofNat_eq_iff {a b : Nat} (hab : a ≤ b) (hwin : b - a < 2 ^ w) :
    BitVec.ofNat w a = BitVec.ofNat w b ↔ a = b := by
  constructor
  · intro h
    have hmod : b % 2 ^ w = a % 2 ^ w := by
      have := congrArg BitVec.toNat h
      rw [BitVec.toNat_ofNat, BitVec.toNat_ofNat] at this
      exact this.symm
    have hzero : (b - a) % 2 ^ w = 0 := Nat.sub_mod_eq_zero_of_mod_eq hmod
    rw [Nat.mod_eq_of_lt hwin] at hzero
    omega
  · intro h
    rw [h]

/-- The wrapped difference of two counts is the wrapped true difference. -/
theorem ofNat_sub_ofNat {a b : Nat} (hab : a ≤ b) :
    BitVec.ofNat w b - BitVec.ofNat w a = BitVec.ofNat w (b - a) := by
  have hsum : BitVec.ofNat w b = BitVec.ofNat w (b - a) + BitVec.ofNat w a := by
    rw [← BitVec.ofNat_add, Nat.sub_add_cancel hab]
  rw [hsum, BitVec.add_sub_cancel]

theorem ofNat_sub_one {a : Nat} (ha : 1 ≤ a) :
    BitVec.ofNat w a - 1 = BitVec.ofNat w (a - 1) :=
  ofNat_sub_ofNat ha

theorem toNat_ofNat_of_lt {a : Nat} (h : a < 2 ^ w) :
    (BitVec.ofNat w a).toNat = a := by
  rw [BitVec.toNat_ofNat, Nat.mod_eq_of_lt h]

/-- The low bits of a counter are a counter of the smaller width. -/
theorem setWidth_ofNat {v : Nat} (hvw : v ≤ w) (a : Nat) :
    (BitVec.ofNat w a).setWidth v = BitVec.ofNat v a := by
  apply BitVec.eq_of_toNat_eq
  rw [BitVec.toNat_setWidth, BitVec.toNat_ofNat, BitVec.toNat_ofNat,
    Nat.mod_mod_of_dvd _ (Nat.pow_dvd_pow 2 hvw)]

end Counter
end Lib
end VideoProcessing
