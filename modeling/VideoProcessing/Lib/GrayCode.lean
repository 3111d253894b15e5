import Mathlib.Data.Nat.Find
import Mathlib.Tactic.Common

/-!
# Binary-reflected Gray code on bit vectors

`encode b = b ⊕ (b >> 1)` is the Gray code of a counter value.  The facts that
clock-domain crossings rest on:

* `encode_injective`: a code has one counter value;
* `encode_of_suffix`: a word whose bits are the suffix parities of `g` encodes
  to `g`, which is what a serial decoder computes;
* `encode_xor_succ`: a counter step changes exactly one bit of the code, at
  the wrap as well;
* `resolve_encode`: a sample in which every bit is the old or the new one is
  the code of the old or of the new counter value;
* `encode_add_half`: half a turn of the counter inverts the two top bits.
-/

namespace VideoProcessing
namespace Lib
namespace Gray

variable {n : Nat}

/-- Binary-reflected Gray code. -/
def encode (b : BitVec n) : BitVec n :=
  b ^^^ (b >>> 1)

/-- A sample of a word taken while it changes: the bits under `mask` are
already new, the others still old. -/
def resolve (old new mask : BitVec n) : BitVec n :=
  (old &&& ~~~mask) ||| (new &&& mask)

@[simp] theorem getLsbD_encode (b : BitVec n) (i : Nat) :
    (encode b).getLsbD i = (b.getLsbD i ^^ b.getLsbD (i + 1)) := by
  simp [encode, Nat.add_comm]

theorem getLsbD_resolve (old new mask : BitVec n) (i : Nat) :
    (resolve old new mask).getLsbD i =
      if mask.getLsbD i then new.getLsbD i else old.getLsbD i := by
  by_cases hi : i < n
  · simp only [resolve, BitVec.getLsbD_or, BitVec.getLsbD_and, BitVec.getLsbD_not, hi]
    cases mask.getLsbD i <;> simp
  · have hn : n ≤ i := Nat.le_of_not_lt hi
    simp [resolve, BitVec.getLsbD_of_ge, hn]

@[simp] theorem resolve_self (b mask : BitVec n) : resolve b b mask = b := by
  apply BitVec.eq_of_getLsbD_eq
  intro i _
  rw [getLsbD_resolve, ite_self]

/-- A word each of whose bits is the old or the new one is a sample under some
mask. -/
theorem exists_resolve {old new sample : BitVec n}
    (h : ∀ i, sample.getLsbD i = old.getLsbD i ∨ sample.getLsbD i = new.getLsbD i) :
    ∃ mask, sample = resolve old new mask := by
  refine ⟨~~~(sample ^^^ new), ?_⟩
  apply BitVec.eq_of_getLsbD_eq
  intro i hi
  rw [getLsbD_resolve, BitVec.getLsbD_not, BitVec.getLsbD_xor]
  cases hsame : sample.getLsbD i ^^ new.getLsbD i with
  | false =>
      simpa [hi] using hsame
  | true =>
      rcases h i with hold | hnew
      · simpa [hi] using hold
      · rw [hnew, Bool.xor_self] at hsame
        exact absurd hsame (by decide)

/-- Two counter values with the same code agree on every bit, from the top
bit down. -/
theorem encode_injective {b c : BitVec n} (h : encode b = encode c) : b = c := by
  have hbit : ∀ i, (b.getLsbD i ^^ b.getLsbD (i + 1)) =
      (c.getLsbD i ^^ c.getLsbD (i + 1)) := by
    intro i
    rw [← getLsbD_encode, ← getLsbD_encode, h]
  have hdown : ∀ k i, n ≤ i + k → b.getLsbD i = c.getLsbD i := by
    intro k
    induction k with
    | zero =>
        intro i hi
        rw [BitVec.getLsbD_of_ge b i hi, BitVec.getLsbD_of_ge c i hi]
    | succ k ih =>
        intro i hi
        have hnext : b.getLsbD (i + 1) = c.getLsbD (i + 1) := ih (i + 1) (by omega)
        have hi' := hbit i
        rw [hnext] at hi'
        exact Bool.xor_left_inj.1 hi'
  apply BitVec.eq_of_getLsbD_eq
  intro i _
  exact hdown n i (by omega)

theorem encode_inj (b c : BitVec n) : encode b = encode c ↔ b = c :=
  ⟨encode_injective, fun h => by rw [h]⟩

/-- A word made of the suffix parities of `g` encodes to `g`. -/
theorem encode_of_suffix {d g : BitVec n}
    (h : ∀ i, i < n → d.getLsbD i = (d.getLsbD (i + 1) ^^ g.getLsbD i)) :
    encode d = g := by
  apply BitVec.eq_of_getLsbD_eq
  intro i hi
  rw [getLsbD_encode, h i hi]
  cases d.getLsbD (i + 1) <;> cases g.getLsbD i <;> rfl

/-- Bit `i` of `b` changes in `b + 1` when all lower bits are set. -/
theorem getLsbD_add_one (b : BitVec n) {i : Nat} (hi : i < n) :
    (b + 1#n).getLsbD i = (b.getLsbD i ^^ decide (∀ j < i, b.getLsbD j = true)) := by
  rw [BitVec.getLsbD_add hi]
  cases i with
  | zero => simp [show 0 < n by omega]
  | succ i =>
      rw [BitVec.carry_succ_one i b (by omega)]
      have hone : (1#n).getLsbD (i + 1) = false := by simp
      rw [hone, Bool.false_xor]
      simp only [Nat.lt_succ_iff]

theorem xor_ne_xor (x y p q : Bool) :
    (x ^^ y) ≠ ((x ^^ p) ^^ (y ^^ q)) ↔ p ≠ q := by
  revert x y p q
  decide

/-- A counter step changes exactly one bit of the code: the last one that the carry
reaches, below which every bit is set. -/
theorem encode_xor_succ (b : BitVec (n + 1)) :
    ∃ k, k < n + 1 ∧
      ∀ i, ((encode b).getLsbD i ≠ (encode (b + 1#(n + 1))).getLsbD i ↔ i = k) := by
  let low : Nat → Prop := fun i => ∀ j < i, b.getLsbD j = true
  have hlow : ∀ i, i < n + 1 →
      (b + 1#(n + 1)).getLsbD i = (b.getLsbD i ^^ decide (low i)) := by
    intro i hi
    exact getLsbD_add_one b hi
  have hanti : ∀ i j, i ≤ j → low j → low i :=
    fun i j hij hj m hm => hj m (by omega)
  obtain ⟨k, hk, hreach, hstop⟩ :
      ∃ k, k < n + 1 ∧ low k ∧ (k + 1 < n + 1 → ¬ low (k + 1)) := by
    by_cases hall : low n
    · exact ⟨n, by omega, hall, fun h => absurd h (by omega)⟩
    · have hex : ∃ i, ¬ low i := ⟨n, hall⟩
      classical
      have hpos : Nat.find hex ≠ 0 := by
        intro h0
        have hno := Nat.find_spec hex
        rw [h0] at hno
        exact hno (fun j hj => absurd hj (by omega))
      have hle : Nat.find hex ≤ n := Nat.find_min' hex hall
      refine ⟨Nat.find hex - 1, by omega, ?_, ?_⟩
      · exact not_not.1 (Nat.find_min hex (by omega))
      · intro _
        rw [show Nat.find hex - 1 + 1 = Nat.find hex by omega]
        exact Nat.find_spec hex
  refine ⟨k, hk, fun i => ?_⟩
  rw [getLsbD_encode, getLsbD_encode]
  by_cases hi : i < n + 1
  · rw [hlow i hi]
    have htop : (b + 1#(n + 1)).getLsbD (i + 1) =
        (b.getLsbD (i + 1) ^^ decide (i + 1 < n + 1 ∧ low (i + 1))) := by
      by_cases hi' : i + 1 < n + 1
      · rw [hlow (i + 1) hi']
        simp [hi']
      · rw [BitVec.getLsbD_of_ge _ _ (by omega), BitVec.getLsbD_of_ge _ _ (by omega)]
        simp [hi']
    rw [htop]
    have hiff : (low i ∧ ¬ (i + 1 < n + 1 ∧ low (i + 1))) ↔ i = k := by
      constructor
      · rintro ⟨hli, hni⟩
        rcases Nat.lt_trichotomy i k with hlt | heq | hgt
        · exact absurd ⟨by omega, hanti (i + 1) k (by omega) hreach⟩ hni
        · exact heq
        · exact absurd (hanti (k + 1) i (by omega) hli) (hstop (by omega))
      · rintro rfl
        exact ⟨hreach, fun h => hstop h.1 h.2⟩
    have himp : (i + 1 < n + 1 ∧ low (i + 1)) → low i :=
      fun h => hanti i (i + 1) (by omega) h.2
    rw [xor_ne_xor, ne_eq, decide_eq_decide, ← hiff]
    exact ⟨fun hne => by tauto, fun h hc => h.2 (hc.1 h.1)⟩
  · have hge : n + 1 ≤ i := Nat.le_of_not_lt hi
    simp [BitVec.getLsbD_of_ge, hge, show n + 1 ≤ i + 1 by omega,
      show i ≠ k by omega]

/-- A sample taken during a counter step shows the old or the new value. -/
theorem resolve_encode (b mask : BitVec (n + 1)) :
    resolve (encode b) (encode (b + 1#(n + 1))) mask = encode b ∨
      resolve (encode b) (encode (b + 1#(n + 1))) mask =
        encode (b + 1#(n + 1)) := by
  obtain ⟨k, _, hone⟩ := encode_xor_succ b
  have hsame : ∀ i, i ≠ k →
      (encode b).getLsbD i = (encode (b + 1#(n + 1))).getLsbD i :=
    fun i hi => not_not.1 fun hne => hi ((hone i).1 hne)
  cases hk : mask.getLsbD k with
  | false =>
      left
      apply BitVec.eq_of_getLsbD_eq
      intro i _
      rw [getLsbD_resolve]
      by_cases hi : i = k
      · rw [hi, hk, if_neg (by decide)]
      · rw [← hsame i hi, ite_self]
  | true =>
      right
      apply BitVec.eq_of_getLsbD_eq
      intro i _
      rw [getLsbD_resolve]
      by_cases hi : i = k
      · rw [hi, hk, if_pos rfl]
      · rw [hsame i hi, ite_self]

/-- Adding the top bit flips it. -/
theorem add_half (b : BitVec (n + 1)) :
    b + BitVec.twoPow (n + 1) n = b ^^^ BitVec.twoPow (n + 1) n := by
  apply BitVec.eq_of_getLsbD_eq
  intro i hi
  have hlow : BitVec.carry i b (BitVec.twoPow (n + 1) n) false = false := by
    have hzero : 2 ^ n % 2 ^ i = 0 :=
      Nat.mod_eq_zero_of_dvd (Nat.pow_dvd_pow 2 (by omega))
    have hlt : b.toNat % 2 ^ i < 2 ^ i := Nat.mod_lt _ (Nat.two_pow_pos i)
    have htop : (BitVec.twoPow (n + 1) n).toNat = 2 ^ n := by
      rw [BitVec.toNat_twoPow,
        Nat.mod_eq_of_lt (Nat.pow_lt_pow_right (by omega) (by omega))]
    simp [BitVec.carry, htop, hzero]
    omega
  rw [BitVec.getLsbD_add hi, hlow, BitVec.getLsbD_xor, Bool.xor_false]

/-- Half a turn of the counter inverts the two top bits of its code. -/
theorem encode_add_half (b : BitVec (n + 2)) :
    encode (b + BitVec.twoPow (n + 2) (n + 1)) =
      encode b ^^^ (BitVec.twoPow (n + 2) (n + 1) ^^^ BitVec.twoPow (n + 2) n) := by
  rw [add_half]
  apply BitVec.eq_of_getLsbD_eq
  intro i hi
  simp only [getLsbD_encode, BitVec.getLsbD_xor, BitVec.getLsbD_twoPow]
  cases b.getLsbD i <;> cases b.getLsbD (i + 1) <;> simp

end Gray
end Lib
end VideoProcessing
