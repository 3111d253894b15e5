import VideoProcessing.Burst.Stream
import VideoProcessing.Lib.Reciprocal

/-!
# The scaler against the software reference

The pipeline of `burst_master_4` multiplies a word by the coefficient in 32 bits
and divides the product by 400 with a multiplication by 5243 and a shift by 21.
The driver's reference multiplies in 64 bits and divides.  `scaler_iff` says for
which words and coefficients the two differ by at most one.
-/

namespace VideoProcessing

open Lib

namespace Pipeline

/-- The arithmetic of the pipeline, stage 0 to stage 1 and stage 1 to stage 2. -/
def hwScaled (ctrlCoeff x : BitVec 32) : BitVec 32 := op ctrlCoeff 1 (op ctrlCoeff 0 x)

/-- The reference of the driver:
`(unsigned int)((unsigned long long)src_ptr[i] * test_coeff / 400)`. -/
def swScaled (testCoeff x : BitVec 32) : BitVec 32 :=
  (x.setWidth 64 * testCoeff.setWidth 64 / 400).setWidth 32

/-- The tolerance of the self-test. -/
def Within1 (a b : BitVec 32) : Prop := a.toNat ≤ b.toNat + 1 ∧ b.toNat ≤ a.toNat + 1

instance (a b : BitVec 32) : Decidable (Within1 a b) := by
  unfold Within1
  infer_instance

/-- The two stages in closed form. -/
theorem hwScaled_eq (c x : BitVec 32) : hwScaled c x = scaled c x := by
  rw [← scale_mul]
  rfl

/-- The product as the pipeline keeps it: its low 32 bits. -/
def keptProduct (c x : BitVec 32) : Nat := x.toNat * c.toNat % 2 ^ 32

/-- What the pipeline loses of the product. -/
def lostProduct (c x : BitVec 32) : Nat := x.toNat * c.toNat / 2 ^ 32

theorem toNat_hwScaled (c x : BitVec 32) :
    (hwScaled c x).toNat = keptProduct c x * 5243 / 2 ^ 21 := by
  have hlt : keptProduct c x < 2 ^ 32 := Nat.mod_lt _ (by decide)
  rw [hwScaled_eq, scaled, BitVec.toNat_ofNat, Nat.mod_eq_of_lt]
  · rfl
  · change keptProduct c x * 5243 / 2 ^ 21 < 2 ^ 32
    omega

theorem toNat_swScaled (c x : BitVec 32) :
    (swScaled c x).toNat = x.toNat * c.toNat / 400 % 2 ^ 32 := by
  have hx := x.isLt
  have hc := c.isLt
  have hprod : x.toNat * c.toNat < 2 ^ 32 * 2 ^ 32 :=
    Nat.mul_lt_mul'' hx hc
  rw [swScaled, BitVec.toNat_setWidth, BitVec.toNat_udiv, BitVec.toNat_mul,
    BitVec.toNat_setWidth, BitVec.toNat_setWidth,
    Nat.mod_eq_of_lt (a := x.toNat) (by omega), Nat.mod_eq_of_lt (a := c.toNat) (by omega),
    Nat.mod_eq_of_lt (a := x.toNat * c.toNat) (by omega)]
  rfl

/-- The reference in terms of what the pipeline keeps and loses. -/
theorem toNat_swScaled_split (c x : BitVec 32) :
    (swScaled c x).toNat = (2 ^ 32 * (lostProduct c x % 400) + keptProduct c x) / 400 := by
  have hkept : keptProduct c x < 2 ^ 32 := Nat.mod_lt _ (by decide)
  have hsplit : 2 ^ 32 * lostProduct c x + keptProduct c x = x.toNat * c.toNat :=
    Nat.div_add_mod _ _
  rw [toNat_swScaled, ← hsplit]
  omega

/-- **When the scaler agrees with the reference.**  For every word and every
coefficient the two differ by at most one if and only if what the 32-bit product
loses is a multiple of 400 (nothing, when it fits) and the carry of the
approximation stays below two. -/
theorem scaler_iff (c x : BitVec 32) :
    Within1 (hwScaled c x) (swScaled c x) ↔
      lostProduct c x % 400 = 0 ∧
        48 * (keptProduct c x / 400) + 5243 * (keptProduct c x % 400) < 2 ^ 22 := by
  have hkept : keptProduct c x < 2 ^ 32 := Nat.mod_lt _ (by decide)
  have hle := Reciprocal.div_le (N := 2 ^ 21) (m := 5243) (d := 400) (e := 48) (by decide)
    (by decide) (keptProduct c x)
  have hiff := Reciprocal.le_succ_iff (N := 2 ^ 21) (m := 5243) (d := 400) (e := 48) (by decide)
    (by decide) (keptProduct c x)
  rw [Within1, toNat_hwScaled, toNat_swScaled_split]
  by_cases hlost : lostProduct c x % 400 = 0
  · rw [hlost, Nat.mul_zero, Nat.zero_add]
    constructor
    · rintro ⟨hup, _⟩
      exact ⟨rfl, hiff.1 hup⟩
    · rintro ⟨_, hcarry⟩
      exact ⟨hiff.2 hcarry, Nat.le_succ_of_le hle⟩
  · constructor
    · rintro ⟨_, hdown⟩
      omega
    · rintro ⟨h0, _⟩
      exact absurd h0 hlost

/-- The last word that the self-test transfers, `262143 + 1023`, is scaled with the
coefficient 800 to a value that is 12 too large. -/
theorem scaler_fails : ¬ ∀ c x : BitVec 32, Within1 (hwScaled c x) (swScaled c x) := by
  intro h
  exact absurd (h 800 263166) (by decide)

/-- Of the words that the self-test transfers the first 42668 are scaled right. -/
theorem scaler_test_word_iff (i : Nat) (hi : i < 262144) :
    Within1 (hwScaled 800 (BitVec.ofNat 32 (i + 1023)))
      (swScaled 800 (BitVec.ofNat 32 (i + 1023))) ↔ i < 42668 := by
  have hprod : (BitVec.ofNat 32 (i + 1023)).toNat * (800 : BitVec 32).toNat =
      400 * (2 * (i + 1023)) := by
    rw [BitVec.toNat_ofNat, Nat.mod_eq_of_lt (by omega)]
    change (i + 1023) * 800 = _
    omega
  have hlost : lostProduct 800 (BitVec.ofNat 32 (i + 1023)) = 0 := by
    rw [lostProduct, hprod]
    exact Nat.div_eq_of_lt (by omega)
  have hkept : keptProduct 800 (BitVec.ofNat 32 (i + 1023)) = 400 * (2 * (i + 1023)) := by
    rw [keptProduct, hprod]
    exact Nat.mod_eq_of_lt (by omega)
  rw [Within1, toNat_hwScaled, toNat_swScaled_split, hlost, hkept]
  omega

end Pipeline
end VideoProcessing
