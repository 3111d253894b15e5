import VideoProcessing.Fifo.SimpleFifo

/-!
# Runs of `simple_fifo` refine a bounded queue

The abstract object is `Ring.Queue`: a list that carries its bound.  From reset
on, whatever the pins do, the registers of the FIFO hold the list that the
queue has reached on the same pins (`holds_after`), and the outputs are
functions of that list (`Holds.shows`).  Nothing is assumed of the depth beyond
`FIFO_DEPTH ≥ 2`.
-/

namespace VideoProcessing
namespace SimpleFifo

open Lib

variable {dw depth : Nat}

/-- The inputs of one clock cycle. -/
structure Pins (dw : Nat) where
  wrEn : Bool
  wrData : BitVec dw
  rdEn : Bool

/-- The word offered to the FIFO in a cycle. -/
def Pins.write (i : Pins dw) : Option (BitVec dw) :=
  if i.wrEn then some i.wrData else none

/-- The FIFO's step on its pins. -/
def clock (f : SimpleFifo dw depth) (i : Pins dw) : SimpleFifo dw depth :=
  f.step i.wrEn i.wrData i.rdEn

/-- The FIFO after the cycles `is` from reset. -/
def after (mem0 : BitVec (clog2 depth) → BitVec dw) (is : List (Pins dw)) :
    SimpleFifo dw depth :=
  run clock (reset mem0) is

/-- The abstract queue after the same cycles. -/
def queueAfter (depth : Nat) (is : List (Pins dw)) : Ring.Queue depth (BitVec dw) :=
  run (fun q (i : Pins dw) => q.next i.write i.rdEn) (Ring.Queue.nil depth (BitVec dw)) is

/-- What the outputs and the pointers say of the list `l`. -/
structure Shows (f : SimpleFifo dw depth) (l : List (BitVec dw)) : Prop where
  used : f.usedW.toNat = l.length
  bound : l.length ≤ depth
  full : f.full = true ↔ l.length = depth
  empty : f.empty = true ↔ l = []
  head : ∀ x xs, l = x :: xs → f.rdData = x
  distance : f.usedW.toNat =
    if f.full then depth else (f.wrPtr.toNat + depth - f.rdPtr.toNat) % depth

theorem Holds.shows {f : SimpleFifo dw depth} {l : List (BitVec dw)} (h : Holds f l) :
    Shows f l where
  used := h.used
  bound := h.length_le
  full := h.full_iff
  empty := by rw [h.empty_iff, List.length_eq_zero_iff]
  head := by
    intro x xs hl
    have hhead := h.rdData (by rw [hl]; exact List.cons_ne_nil x xs)
    rw [hl] at hhead
    exact (List.cons.inj hhead).1.symm
  distance := by
    rw [h.used]
    simp only [h.full_iff]
    exact h.ring.length_eq

theorem holds_after (hd : 2 ≤ depth) (mem0 : BitVec (clog2 depth) → BitVec dw)
    (is : List (Pins dw)) : Holds (after mem0 is) (queueAfter depth is).items :=
  run_related (R := fun f q => Holds f (Ring.Queue.items q))
    (fun _ _ i h => h.step i.wrEn i.wrData i.rdEn) (holds_reset (by omega) mem0) is

/-- A cycle drops the head when a read meets a non-empty FIFO and appends the
written word when a write meets a FIFO that is not full. -/
theorem Shows.next {f : SimpleFifo dw depth} {l : List (BitVec dw)} (h : Shows f l)
    (i : Pins dw) :
    Ring.next depth l i.write i.rdEn =
      (if i.rdEn && !f.empty then l.tail else l) ++
        (if i.wrEn && !f.full then [i.wrData] else []) := by
  rw [Ring.next]
  congr 1
  · cases hr : i.rdEn with
    | false => rfl
    | true =>
        cases he : f.empty with
        | false => rfl
        | true => rw [h.empty.1 he]; rfl
  · cases hf : f.full with
    | true => rw [if_pos (h.full.1 hf), Bool.not_true, Bool.and_false]; rfl
    | false =>
        have hne : l.length ≠ depth := fun heq => by
          rw [h.full.2 heq] at hf
          exact absurd hf (by decide)
        rw [if_neg hne, Pins.write]
        cases i.wrEn <;> rfl

/-- `simple_fifo` refines a bounded first-word-fall-through queue: from reset,
for every depth from two on and every sequence of pins, there is a list that
the outputs show in each state and that each cycle changes by the accepted
write and the accepted read alone. -/
theorem refines_queue (hd : 2 ≤ depth) (mem0 : BitVec (clog2 depth) → BitVec dw) :
    ∃ queue : List (Pins dw) → List (BitVec dw), queue [] = [] ∧
      ∀ is, Shows (after mem0 is) (queue is) ∧
        ∀ i, queue (is ++ [i]) =
          (if i.rdEn && !(after mem0 is).empty then (queue is).tail else queue is) ++
            (if i.wrEn && !(after mem0 is).full then [i.wrData] else []) := by
  refine ⟨fun is => (queueAfter depth is).items, rfl, fun is => ?_⟩
  have hshows := (holds_after hd mem0 is).shows
  refine ⟨hshows, fun i => ?_⟩
  rw [← hshows.next i]
  exact congrArg Ring.Queue.items (run_snoc _ _ is i)

/-- The refinement at a depth that is no power of two: three words. -/
theorem refines_queue_three :
    2 ≤ 3 ∧ ∃ queue : List (Pins 8) → List (BitVec 8), queue [] = [] ∧
      ∀ is, Shows (after (fun _ => 0) is : SimpleFifo 8 3) (queue is) ∧
        ∀ i, queue (is ++ [i]) =
          (if i.rdEn && !(after (fun _ => 0) is : SimpleFifo 8 3).empty then (queue is).tail
            else queue is) ++
            (if i.wrEn && !(after (fun _ => 0) is : SimpleFifo 8 3).full then [i.wrData]
              else []) :=
  ⟨by decide, refines_queue (by decide) (fun _ => 0)⟩

end SimpleFifo
end VideoProcessing
