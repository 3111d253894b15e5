import VideoProcessing.Lib.Copying

/-!
# Words that are written and read back

A memory test writes a word to each of `n` addresses and then reads all of them.  Whether
addresses share a cell of the memory is up to `place`.

* `readBack_iff`: all words are read back if and only if addresses that share a cell were
  given the same word.
-/

namespace VideoProcessing
namespace Lib

universe u v w x

variable {M : Type u} {A : Type v} {W : Type w} {K : Type x} [DecidableEq K]
  {io : Ports M A W} {addr : Nat → A} {place : Nat → K} {d : Nat → W} {mem : M}
  {n i j : Nat}

/-- The cell of address `i` is `place i`: what is written to it is read at every address of
the cell, and nothing else changes. -/
def Ports.CellsAt (io : Ports M A W) (addr : Nat → A) (n : Nat) (place : Nat → K) : Prop :=
  ∀ mem i j w, i < n → j < n →
    io.fetch (io.put mem (addr i) w) (addr j) =
      if place j = place i then w else io.fetch mem (addr j)

/-- The memory after the first `n` words. -/
def filled (io : Ports M A W) (addr : Nat → A) (d : Nat → W) (mem : M) : Nat → M
  | 0 => mem
  | n + 1 => io.put (filled io addr d mem n) (addr n) (d n)

/-- An address holds the last word that was written to its cell. -/
theorem fetch_filled (h : io.CellsAt addr n place) {m : Nat} (hm : m ≤ n) (hj : j < n) :
    (∃ i, i < m ∧ place i = place j ∧ io.fetch (filled io addr d mem m) (addr j) = d i) ∨
      ∀ i, i < m → place i ≠ place j := by
  induction m with
  | zero => exact Or.inr fun i hi => absurd hi (Nat.not_lt_zero i)
  | succ m ih =>
      rw [filled, h _ m j _ hm hj]
      by_cases hsame : place j = place m
      · exact Or.inl ⟨m, Nat.lt_succ_self m, hsame.symm, if_pos hsame⟩
      · rw [if_neg hsame]
        rcases ih (Nat.le_of_succ_le hm) with ⟨i, hi, hij, hword⟩ | hnone
        · exact Or.inl ⟨i, Nat.lt_succ_of_lt hi, hij, hword⟩
        · refine Or.inr ?_
          intro i hi
          rcases Nat.lt_succ_iff_lt_or_eq.1 hi with hlt | rfl
          · exact hnone i hlt
          · exact Ne.symm hsame

/-- Addresses of one cell hold the same word, once one was written there. -/
theorem fetch_filled_congr (h : io.CellsAt addr n place) {m : Nat} (hm : m ≤ n)
    (hi : i < m) (hj : j < n) (hij : place i = place j) :
    io.fetch (filled io addr d mem m) (addr i) =
      io.fetch (filled io addr d mem m) (addr j) := by
  induction m with
  | zero => exact absurd hi (Nat.not_lt_zero i)
  | succ m ih =>
      rw [filled, h _ m i _ hm (Nat.lt_of_lt_of_le hi hm), h _ m j _ hm hj, hij]
      split
      · rfl
      · next hne =>
          have hlt : i < m := by
            rcases Nat.lt_succ_iff_lt_or_eq.1 hi with hlt | rfl
            · exact hlt
            · exact absurd hij.symm hne
          exact ih (Nat.le_of_succ_le hm) hlt

/-- What a memory test finds. -/
theorem readBack_iff (h : io.CellsAt addr n place) :
    (∀ i, i < n → io.fetch (filled io addr d mem n) (addr i) = d i) ↔
      ∀ i j, i < n → j < n → place i = place j → d i = d j := by
  constructor
  · intro hread i j hi hj hij
    calc d i = io.fetch (filled io addr d mem n) (addr i) := (hread i hi).symm
      _ = io.fetch (filled io addr d mem n) (addr j) :=
        fetch_filled_congr h (Nat.le_refl n) hi hj hij
      _ = d j := hread j hj
  · intro hsame i hi
    rcases fetch_filled (d := d) h (Nat.le_refl n) hi with ⟨k, hk, hki, hword⟩ | hnone
    · rw [hword]
      exact hsame k i hk hi hki
    · exact absurd rfl (hnone i hi)

end Lib
end VideoProcessing
