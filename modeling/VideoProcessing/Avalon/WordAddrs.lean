import Mathlib.Tactic.Common

/-!
# The words of a burst

An Avalon read burst of `n` words at byte address `a` transfers the words at
`a, a + 4, ..., a + 4 * (n - 1)`, modulo `2 ^ 32`.  `wordAddrs a n` lists them.
-/

namespace VideoProcessing

/-- The byte addresses of the `n` words from `a` on. -/
def wordAddrs (a : BitVec 32) (n : Nat) : List (BitVec 32) :=
  (List.range n).map fun i => a + 4 * BitVec.ofNat 32 i

@[simp] theorem length_wordAddrs (a : BitVec 32) (n : Nat) :
    (wordAddrs a n).length = n := by
  simp [wordAddrs]

theorem getElem?_wordAddrs (a : BitVec 32) {n i : Nat} (hi : i < n) :
    (wordAddrs a n)[i]? = some (a + 4 * BitVec.ofNat 32 i) := by
  simp [wordAddrs, hi]

theorem wordAddrs_succ (a : BitVec 32) (n : Nat) :
    wordAddrs a (n + 1) = wordAddrs a n ++ [a + 4 * BitVec.ofNat 32 n] := by
  simp [wordAddrs, List.range_succ]

theorem addr_add (a : BitVec 32) (m n : Nat) :
    a + 4 * BitVec.ofNat 32 m + 4 * BitVec.ofNat 32 n =
      a + 4 * BitVec.ofNat 32 (m + n) := by
  rw [BitVec.ofNat_add, BitVec.mul_add, BitVec.add_assoc]

theorem wordAddrs_add (a : BitVec 32) (m n : Nat) :
    wordAddrs a (m + n) = wordAddrs a m ++ wordAddrs (a + 4 * BitVec.ofNat 32 m) n := by
  induction n with
  | zero => simp [wordAddrs]
  | succ n ih =>
      rw [show m + (n + 1) = m + n + 1 by omega, wordAddrs_succ, ih, wordAddrs_succ,
        addr_add, List.append_assoc]

/-- The first word not yet returned. -/
theorem drop_wordAddrs (a : BitVec 32) {n r : Nat} (hr : r < n) :
    (wordAddrs a n).drop r =
      (a + 4 * BitVec.ofNat 32 r) :: (wordAddrs a n).drop (r + 1) := by
  have hlt : r < (wordAddrs a n).length := by rw [length_wordAddrs]; exact hr
  have hget : (wordAddrs a n)[r] = a + 4 * BitVec.ofNat 32 r := by
    have := getElem?_wordAddrs a hr
    rw [List.getElem?_eq_getElem hlt] at this
    exact Option.some.inj this
  rw [List.drop_eq_getElem_cons hlt, hget]

end VideoProcessing
