import Mathlib.Algebra.Group.Nat.Defs
import Mathlib.Order.Bounds.Basic
import Mathlib.Tactic.Common

/-!
# Rounding up to a multiple

`roundUp m n` is the least multiple of `m` that is at least `n`.  Hardware and
C code often compute it with a mask, `(n + (m - 1)) & ~(m - 1)`, which is the
same for a power of two.  `mask_eq_roundUp_iff` says when it is the same for any
`m`: the multiple must have no bit in common with `m - 1`, and the part that is
cut off must consist of bits of `m - 1` only (`MaskRounds`).
-/

namespace VideoProcessing
namespace Lib

/-- The least multiple of `m` that is at least `n`. -/
def roundUp (m n : Nat) : Nat := (n + (m - 1)) / m * m

section RoundUp

variable {m n : Nat}

theorem dvd_roundUp : m ∣ roundUp m n := Nat.dvd_mul_left m _

theorem roundUp_add_mod : roundUp m n + (n + (m - 1)) % m = n + (m - 1) := by
  rw [roundUp, Nat.mul_comm, Nat.div_add_mod]

theorem le_roundUp (hm : 0 < m) : n ≤ roundUp m n := by
  have hsum := roundUp_add_mod (m := m) (n := n)
  have hmod := Nat.mod_lt (n + (m - 1)) hm
  omega

theorem roundUp_le_add : roundUp m n ≤ n + (m - 1) :=
  Nat.div_mul_le_self _ _

theorem roundUp_le (hm : 0 < m) {k : Nat} (hk : m ∣ k) (hn : n ≤ k) : roundUp m n ≤ k := by
  obtain ⟨y, rfl⟩ := hk
  have hlt : (n + (m - 1)) / m < y + 1 := by
    rw [Nat.div_lt_iff_lt_mul hm, Nat.add_mul, Nat.one_mul, Nat.mul_comm y m]
    omega
  rw [roundUp, Nat.mul_comm m y]
  exact Nat.mul_le_mul_right m (Nat.le_of_lt_succ hlt)

theorem isLeast_roundUp (hm : 0 < m) : IsLeast {k | m ∣ k ∧ n ≤ k} (roundUp m n) := by
  constructor
  · exact ⟨dvd_roundUp, le_roundUp hm⟩
  · rintro k ⟨hk, hn⟩
    exact roundUp_le hm hk hn

theorem roundUp_of_dvd (hm : 0 < m) (hn : m ∣ n) : roundUp m n = n :=
  Nat.le_antisymm (roundUp_le hm hn (Nat.le_refl n)) (le_roundUp hm)

end RoundUp

/-- The mask `m - 1` cuts `n + (m - 1)` down to the multiple of `m`. -/
def MaskRounds (m n : Nat) : Prop :=
  roundUp m n &&& (m - 1) = 0 ∧
    (n + (m - 1)) % m &&& (m - 1) = (n + (m - 1)) % m

instance (m n : Nat) : Decidable (MaskRounds m n) := by
  unfold MaskRounds
  infer_instance

/-- Every length is rounded by the mask of a power of two. -/
theorem maskRounds_two_pow (k n : Nat) : MaskRounds (2 ^ k) n := by
  constructor
  · rw [Nat.and_two_pow_sub_one_eq_mod]
    exact Nat.mod_eq_zero_of_dvd dvd_roundUp
  · rw [Nat.and_two_pow_sub_one_eq_mod, Nat.mod_mod]

section Mask

variable {w : Nat}

/-- Cutting off the bits of a mask gives `k` when `k` has none of them and the
rest has no other. -/
theorem and_not_eq_iff (x a k : BitVec w) :
    x &&& ~~~a = k ↔ k &&& a = 0#w ∧ (x - k) &&& a = x - k := by
  have hsplit : (x &&& ~~~a) + (x &&& a) = x := by
    rw [BitVec.add_eq_or_of_and_eq_zero]
    · ext i hi
      simp only [BitVec.getElem_or, BitVec.getElem_and, BitVec.getElem_not]
      cases x[i] <;> cases a[i] <;> rfl
    · ext i hi
      simp only [BitVec.getElem_and, BitVec.getElem_not, BitVec.getElem_zero]
      cases x[i] <;> cases a[i] <;> rfl
  constructor
  · rintro rfl
    have hrest : x - (x &&& ~~~a) = x &&& a := by
      nth_rewrite 1 [← hsplit]
      rw [BitVec.add_comm, BitVec.add_sub_cancel]
    refine ⟨?_, ?_⟩
    · ext i hi
      simp only [BitVec.getElem_and, BitVec.getElem_not, BitVec.getElem_zero]
      cases x[i] <;> cases a[i] <;> rfl
    · rw [hrest, BitVec.and_assoc, BitVec.and_self]
  · rintro ⟨hk, hr⟩
    have hdisj : k &&& (x - k) = 0#w := by
      rw [← hr, BitVec.and_comm (x - k), ← BitVec.and_assoc, hk, BitVec.zero_and]
    have hx : x = k ||| (x - k) := by
      rw [← BitVec.add_eq_or_of_and_eq_zero _ _ hdisj, BitVec.add_comm,
        BitVec.sub_add_cancel]
    have hk' : k &&& ~~~a = k := by
      ext i hi
      have hbit := congrArg (fun v : BitVec w => v[i]) hk
      simp only [BitVec.getElem_and, BitVec.getElem_zero] at hbit
      simp only [BitVec.getElem_and, BitVec.getElem_not]
      revert hbit
      cases k[i] <;> cases a[i] <;> simp
    have hr' : (x - k) &&& ~~~a = 0#w := by
      rw [← hr, BitVec.and_assoc, BitVec.and_not_self]
      exact BitVec.and_zero
    rw [hx]
    ext i hi
    have h1 := congrArg (fun v : BitVec w => v[i]) hk'
    have h2 := congrArg (fun v : BitVec w => v[i]) hr'
    simp only [BitVec.getElem_and, BitVec.getElem_not, BitVec.getElem_zero] at h1 h2
    simp only [BitVec.getElem_and, BitVec.getElem_not, BitVec.getElem_or]
    revert h1 h2
    cases k[i] <;> cases (x - k)[i] <;> cases a[i] <;> simp

/-- The mask of a power of two always leaves a multiple. -/
theorem two_pow_dvd_mask {k : Nat} (hk : k < w) (x : BitVec w) :
    2 ^ k ∣ (x &&& ~~~(BitVec.ofNat w (2 ^ k) - 1)).toNat := by
  have hlt : 2 ^ k < 2 ^ w := Nat.pow_lt_pow_right (by decide) hk
  have hpos : 0 < 2 ^ k := Nat.two_pow_pos k
  have hval : (BitVec.ofNat w (2 ^ k)).toNat = 2 ^ k := by
    rw [BitVec.toNat_ofNat, Nat.mod_eq_of_lt hlt]
  have hone : (1 : BitVec w).toNat = 1 := by
    change (1#w).toNat = 1
    rw [BitVec.toNat_ofNat]
    exact Nat.mod_eq_of_lt (by omega)
  have hmask : (BitVec.ofNat w (2 ^ k) - 1).toNat = 2 ^ k - 1 := by
    rw [BitVec.toNat_sub_of_le (by rw [BitVec.le_def, hval, hone]; omega), hval, hone]
  have hlow := ((and_not_eq_iff x (BitVec.ofNat w (2 ^ k) - 1) _).1 rfl).1
  have hlow' := congrArg BitVec.toNat hlow
  rw [BitVec.toNat_and, hmask, Nat.and_two_pow_sub_one_eq_mod, BitVec.toNat_ofNat,
    Nat.zero_mod] at hlow'
  exact Nat.dvd_of_mod_eq_zero hlow'

/-- The mask formula on words gives the least multiple exactly when the mask
rounds. -/
theorem mask_eq_roundUp_iff {m n : Nat} (hm : 0 < m) (hmw : m < 2 ^ w)
    (hfit : roundUp m n < 2 ^ w) :
    ((BitVec.ofNat w n + (BitVec.ofNat w m - 1)) &&& ~~~(BitVec.ofNat w m - 1)).toNat =
      roundUp m n ↔ MaskRounds m n := by
  have hone : BitVec.ofNat w m - 1 = BitVec.ofNat w (m - 1) := by
    have hsum : BitVec.ofNat w m = BitVec.ofNat w (m - 1) + 1#w := by
      rw [← BitVec.ofNat_add, Nat.sub_add_cancel hm]
    rw [hsum]
    exact BitVec.add_sub_cancel _ _
  have hmod := Nat.mod_lt (n + (m - 1)) hm
  have hrest : BitVec.ofNat w n + BitVec.ofNat w (m - 1) - BitVec.ofNat w (roundUp m n) =
      BitVec.ofNat w ((n + (m - 1)) % m) := by
    rw [← BitVec.ofNat_add, ← roundUp_add_mod (m := m) (n := n), BitVec.ofNat_add,
      BitVec.add_comm, BitVec.add_sub_cancel]
    rw [roundUp_add_mod]
  have htoNat : ∀ x : BitVec w, x.toNat = roundUp m n ↔
      x = BitVec.ofNat w (roundUp m n) := by
    intro x
    rw [← BitVec.toNat_inj, BitVec.toNat_ofNat, Nat.mod_eq_of_lt hfit]
  have hval : ∀ k, k < 2 ^ w → (BitVec.ofNat w k).toNat = k := by
    intro k hk
    rw [BitVec.toNat_ofNat, Nat.mod_eq_of_lt hk]
  rw [htoNat, hone, and_not_eq_iff, hrest, MaskRounds, ← BitVec.toNat_inj,
    ← BitVec.toNat_inj, BitVec.toNat_and, BitVec.toNat_and, hval _ hfit,
    hval (m - 1) (by omega), hval ((n + (m - 1)) % m) (by omega), hval 0 (by omega)]

end Mask

end Lib
end VideoProcessing
