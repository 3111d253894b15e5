/-!
# Shift registers that follow a level

A synchroniser is a chain of `n` bits that shifts in a sample of a level that
changes rarely.  `Follows n b bit e` says that the level is `b`, that at least
`e` samples have been taken since it last changed, and that the new samples
stand in front of the old ones.

Main rules:
* `Follows.push`: a sample of the level;
* `Follows.change`: the level of a settled chain changes;
* `Follows.push_change`: it changes at the instant of a sample, which may see
  the old or the new level.
-/

namespace VideoProcessing
namespace Lib

/-- The chain after shifting in a sample. -/
def push (x : Bool) (bit : Nat → Bool) : Nat → Bool
  | 0 => x
  | i + 1 => bit i

@[simp] theorem push_zero (x : Bool) (bit : Nat → Bool) : push x bit 0 = x := rfl

@[simp] theorem push_succ (x : Bool) (bit : Nat → Bool) (i : Nat) :
    push x bit (i + 1) = bit i := rfl

/-- The first `n` bits of a chain follow the level `b`, with at least `e` samples
since its last change. -/
structure Follows (n : Nat) (b : Bool) (bit : Nat → Bool) (e : Nat) : Prop where
  settled : ∀ i, i < n → i < e → bit i = b
  order : ∀ i, i + 1 < n → bit (i + 1) = b → bit i = b

namespace Follows

variable {n e : Nat} {b : Bool} {bit : Nat → Bool}

theorem mono (h : Follows n b bit e) {e' : Nat} (he : e' ≤ e) : Follows n b bit e' where
  settled i hi hie := h.settled i hi (Nat.lt_of_lt_of_le hie he)
  order := h.order

theorem congr (h : Follows n b bit e) {bit' : Nat → Bool}
    (heq : ∀ i, i < n → bit' i = bit i) : Follows n b bit' e where
  settled i hi hie := by
    rw [heq i hi]
    exact h.settled i hi hie
  order i hi hb := by
    rw [heq i (Nat.lt_of_succ_lt hi)]
    rw [heq (i + 1) hi] at hb
    exact h.order i hi hb

/-- A sample of the level. -/
theorem push (h : Follows n b bit e) : Follows n b (push b bit) (e + 1) where
  settled i hi hie := by
    cases i with
    | zero => rfl
    | succ i => exact h.settled i (Nat.lt_of_succ_lt hi) (Nat.lt_of_succ_lt_succ hie)
  order i hi hb := by
    cases i with
    | zero => rfl
    | succ i => exact h.order i (Nat.lt_of_succ_lt hi) hb

/-- The level of a settled chain changes between two samples. -/
theorem change (h : Follows n b bit e) (he : n ≤ e) (b' : Bool) :
    Follows n b' bit 0 where
  settled i _ hie := absurd hie (Nat.not_lt_zero i)
  order i hi hb := by
    have hi' : bit i = b := h.settled i (Nat.lt_of_succ_lt hi) (by omega)
    have hsucc : bit (i + 1) = b := h.settled (i + 1) hi (by omega)
    rw [hi', ← hsucc, hb]

/-- The level of a settled chain changes at the instant of a sample: the sample in front is
the old level only if the chain shows no change. -/
theorem push_change (h : Follows n b bit e) (he : n ≤ e) {b' x : Bool}
    (hx : x = b ∨ x = b') : Follows n b' (Lib.push x bit) (if x = b' then 1 else 0) where
  settled i hi hie := by
    by_cases hxb : x = b'
    · rw [if_pos hxb] at hie
      obtain rfl : i = 0 := by omega
      exact hxb
    · rw [if_neg hxb] at hie
      exact absurd hie (Nat.not_lt_zero i)
  order i hi hb := by
    have hi' : bit i = b := h.settled i (Nat.lt_of_succ_lt hi) (by omega)
    cases i with
    | zero =>
        rw [push_succ, hi'] at hb
        rw [push_zero]
        rcases hx with hx | hx
        · rw [hx, hb]
        · exact hx
    | succ i =>
        rw [push_succ, hi'] at hb
        rw [push_succ, h.settled i (by omega) (by omega), hb]

end Follows
end Lib
end VideoProcessing
