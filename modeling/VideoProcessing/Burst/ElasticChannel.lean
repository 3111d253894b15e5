import VideoProcessing.Burst.Stream

/-!
# The pipeline of `burst_master_4` as an elastic channel

The pipeline alone, between any input FIFO and any output FIFO: in each cycle
the one may be empty and the other full as they please.  `Moves` says what one
cycle does to every stage; `elastic_channel` that over a whole run the words
come out as they went in, each with the arithmetic applied once.
-/

namespace VideoProcessing
namespace Pipeline

open Lib

variable {n : Nat} {c : BitVec 32}

/-- What the two FIFOs show the pipeline in one cycle. -/
structure Pins where
  fifoInEmpty : Bool
  fifoInRdData : BitVec 32
  fifoOutFull : Bool

/-- The pipeline's step on its pins. -/
def clock (n : Nat) (c : BitVec 32) (p : Pipeline) (i : Pins) : Pipeline :=
  p.step n c i.fifoInEmpty i.fifoInRdData i.fifoOutFull

/-- The word taken from the input FIFO. -/
def taken (n : Nat) (p : Pipeline) (i : Pins) : Option (BitVec 32) :=
  if p.fifoInRdEn n i.fifoInEmpty i.fifoOutFull then some i.fifoInRdData else none

/-- The word written to the output FIFO. -/
def written (n : Nat) (p : Pipeline) (i : Pins) : Option (BitVec 32) :=
  if p.fifoOutWrEn n i.fifoOutFull then some (p.fifoOutWrData n) else none

/-- What stage `g` sees before it: the input FIFO or the stage before, with the
operation on the way. -/
def offered (c : BitVec 32) (p : Pipeline) (i : Pins) : Nat → Option (BitVec 32)
  | 0 => if i.fifoInEmpty then none else some i.fifoInRdData
  | g + 1 => (p.stage g).map (op c g)

/-- What is behind stage `g` accepts a word: the next stage, or the output FIFO. -/
def nextAccepts (n : Nat) (p : Pipeline) (i : Pins) (g : Nat) : Bool :=
  if g < n then p.pipelineReady n i.fifoOutFull (g + 1) else !i.fifoOutFull

/-- What has arrived behind stage `g` after the cycle: the content of the next
stage, or the word written to the output FIFO. -/
def arrived (n : Nat) (c : BitVec 32) (p : Pipeline) (i : Pins) (g : Nat) :
    Option (BitVec 32) :=
  if g < n then (p.clock n c i).stage (g + 1) else p.written n i

/-- The word in stage `g` as the place behind the stage receives it. -/
def handedOn (n : Nat) (c : BitVec 32) (g : Nat) (w : BitVec 32) : BitVec 32 :=
  if g < n then op c g w else w

/-- One cycle moves a word out of a stage exactly when the next place accepts it. -/
structure Moves (n : Nat) (c : BitVec 32) (p : Pipeline) (i : Pins) : Prop where
  /-- An accepted word is in the next place, and gone from its stage. -/
  leaves : ∀ g w, g ≤ n → p.stage g = some w → p.nextAccepts n i g = true →
    p.arrived n c i g = some (handedOn n c g w) ∧ (p.clock n c i).stage g = offered c p i g
  /-- A word that is not accepted stays, and nothing arrives behind it. -/
  stays : ∀ g w, g ≤ n → p.stage g = some w → p.nextAccepts n i g = false →
    (p.clock n c i).stage g = some w ∧
      p.arrived n c i g = if g < n then p.stage (g + 1) else none
  /-- An empty stage hands nothing on. -/
  bubble : ∀ g, g ≤ n → p.stage g = none → p.nextAccepts n i g = true →
    p.arrived n c i g = none
  /-- The input FIFO gives a word exactly when stage `0` takes it. -/
  input : p.taken n i = if p.pipelineReady n i.fifoOutFull 0 then offered c p i 0 else none
  entry : (p.clock n c i).stage 0 =
    if p.pipelineReady n i.fifoOutFull 0 then offered c p i 0 else p.stage 0

variable {p : Pipeline} {i : Pins}

/-- A stage after the cycle: what it was offered if it was ready, else its own. -/
theorem stage_clock {g : Nat} (hg : g ≤ n) :
    (p.clock n c i).stage g =
      if p.pipelineReady n i.fifoOutFull g then offered c p i g else p.stage g := by
  rw [clock, stage_step, pipelineReady_eq]
  cases g with
  | zero => rfl
  | succ g =>
      have hlt : decide (g < n) = true := decide_eq_true (Nat.lt_of_succ_le hg)
      rw [Elastic.step, hlt, Bool.true_and]
      rfl

/-- A stage with a word is ready when the next place accepts. -/
theorem ready_of_stage {g : Nat} {w : BitVec 32} (hg : g ≤ n) (hw : p.stage g = some w) :
    p.pipelineReady n i.fifoOutFull g = p.nextAccepts n i g := by
  rw [nextAccepts]
  rcases Nat.lt_or_eq_of_le hg with hlt | rfl
  · obtain ⟨d, hd⟩ : ∃ d, n - g = d + 1 := ⟨n - g - 1, by omega⟩
    have hvalid : p.pipelineValid g = true := by
      cases hv : p.pipelineValid g with
      | true => rfl
      | false =>
          rw [stage_eq_none.2 hv] at hw
          exact absurd hw (by simp)
    rw [if_pos hlt, pipelineReady, pipelineReady, hd, readyFrom,
      show n - (d + 1) = g by omega, hvalid, show n - (g + 1) = d by omega, Bool.not_true,
      Bool.false_or]
  · rw [if_neg (Nat.lt_irrefl g), pipelineReady, Nat.sub_self]
    rfl

/-- The place behind stage `g` takes what the stage holds, or stays as it is. -/
theorem arrived_eq {g : Nat} (hg : g ≤ n) :
    p.arrived n c i g =
      if p.nextAccepts n i g then (p.stage g).map (handedOn n c g)
      else if g < n then p.stage (g + 1) else none := by
  rw [arrived, nextAccepts]
  rcases Nat.lt_or_eq_of_le hg with hlt | rfl
  · have hop : handedOn n c g = op c g := by
      funext w
      rw [handedOn, if_pos hlt]
    rw [if_pos hlt, if_pos hlt, if_pos hlt, stage_clock hlt, hop]
    rfl
  · have hop : handedOn g c g = id := by
      funext w
      rw [handedOn, if_neg (Nat.lt_irrefl g)]
      rfl
    rw [if_neg (Nat.lt_irrefl g), if_neg (Nat.lt_irrefl g), if_neg (Nat.lt_irrefl g), hop,
      Option.map_id, written, ← out_eq, Elastic.out]
    cases i.fifoOutFull <;> rfl

theorem taken_eq (c : BitVec 32) :
    p.taken n i = if p.pipelineReady n i.fifoOutFull 0 then offered c p i 0 else none := by
  rw [taken, fifoInRdEn, offered]
  cases i.fifoInEmpty <;> cases p.pipelineReady n i.fifoOutFull 0 <;> rfl

theorem moves (n : Nat) (c : BitVec 32) (p : Pipeline) (i : Pins) : Moves n c p i where
  leaves := by
    intro g w hg hw hacc
    have hready := (ready_of_stage (i := i) hg hw).trans hacc
    refine ⟨?_, ?_⟩
    · rw [arrived_eq hg, if_pos hacc, hw]
      rfl
    · rw [stage_clock hg, if_pos hready]
  stays := by
    intro g w hg hw hno
    have hready := (ready_of_stage (i := i) hg hw).trans hno
    refine ⟨?_, ?_⟩
    · rw [stage_clock hg, hready, if_neg (by decide), hw]
    · rw [arrived_eq hg, hno, if_neg (by decide)]
  bubble := by
    intro g hg hw hacc
    rw [arrived_eq hg, if_pos hacc, hw]
    rfl
  input := taken_eq c
  entry := stage_clock (Nat.zero_le n)

/-- The words written to the output FIFO in a run, oldest first. -/
def outputs (n : Nat) (l : List (Pipeline × Pins)) : List (BitVec 32) :=
  l.filterMap fun e => e.1.written n e.2

/-- The words taken from the input FIFO in a run, oldest first. -/
def inputs (n : Nat) (l : List (Pipeline × Pins)) : List (BitVec 32) :=
  l.filterMap fun e => e.1.taken n e.2

/-- The words in the valid stages, from the last stage to stage `0`, each with
the operations that it still has to pass. -/
def held (n : Nat) (c : BitVec 32) (p : Pipeline) : List (BitVec 32) :=
  Elastic.held n (op c) p.stage

theorem held_reset : held n c reset = [] :=
  held_eq_nil.2 fun _ _ => rfl

/-- One cycle moves the words through in order. -/
theorem written_append_held (hn : 2 ≤ n) :
    (p.written n i).toList ++ held n c (p.clock n c i) =
      held n c p ++ ((p.taken n i).map (scaled c)).toList := by
  have h := @Elastic.out_append_held _ n (op c) p.stage (offered c p i 0) i.fifoOutFull
  have hin : (if Elastic.ready n p.stage i.fifoOutFull 0 then
      (offered c p i 0).map (Elastic.finish n (op c) n) else none) =
        (p.taken n i).map (scaled c) := by
    rw [taken_eq c, pipelineReady_eq]
    cases Elastic.ready n p.stage i.fifoOutFull 0 with
    | false => rfl
    | true => exact congrArg (fun f => (offered c p i 0).map f) (funext (finish_eq hn))
  rw [hin, out_eq] at h
  rw [held, clock, stage_step]
  exact h

/-- **The pipeline is an order-preserving, lossless channel.**  After any run
from reset, with any pattern of an empty input FIFO and a full output FIFO: the
words written, followed by the words in flight, are the words taken with the
arithmetic applied to each; and every cycle moves a word out of a stage exactly
when the next place accepts it. -/
theorem elastic_channel (hn : 2 ≤ n) (c : BitVec 32) (is : List Pins) :
    outputs n (log (clock n c) reset is) ++ held n c (run (clock n c) reset is) =
        (inputs n (log (clock n c) reset is)).map (scaled c) ∧
      ∀ e ∈ log (clock n c) reset is, Moves n c e.1 e.2 := by
  refine ⟨?_, fun e _ => moves n c e.1 e.2⟩
  refine log_invariant (P := fun p l => outputs n l ++ held n c p =
    (inputs n l).map (scaled c)) ?_ ?_ is
  · exact held_reset
  · intro p l i ih
    have hout : outputs n (l ++ [(p, i)]) = outputs n l ++ (p.written n i).toList := by
      rw [outputs, List.filterMap_append]
      cases hw : p.written n i <;> simp [outputs, hw]
    have hin : inputs n (l ++ [(p, i)]) = inputs n l ++ (p.taken n i).toList := by
      rw [inputs, List.filterMap_append]
      cases hw : p.taken n i <;> simp [inputs, hw]
    calc outputs n (l ++ [(p, i)]) ++ held n c (p.clock n c i)
        = outputs n l ++ ((p.written n i).toList ++ held n c (p.clock n c i)) := by
          rw [hout, List.append_assoc]
      _ = (outputs n l ++ held n c p) ++ ((p.taken n i).map (scaled c)).toList := by
          rw [written_append_held hn, List.append_assoc]
      _ = (inputs n (l ++ [(p, i)])).map (scaled c) := by
          rw [ih, hin, List.map_append]
          cases p.taken n i <;> rfl

/-- Two words with a bubble between them; in the last cycle but one the output is full. -/
def twoWords : List Pins :=
  [⟨false, 7, false⟩, ⟨true, 0, false⟩, ⟨false, 50, false⟩, ⟨true, 0, false⟩, ⟨true, 0, false⟩,
    ⟨true, 0, true⟩, ⟨true, 0, false⟩]

/-- With the default latency the first word has left, and the second one is on its way. -/
theorem elastic_channel_two_words :
    2 ≤ 4 ∧
      let l := log (clock 4 800) reset twoWords
      outputs 4 l = [14] ∧ held 4 800 (run (clock 4 800) reset twoWords) = [100] ∧
        outputs 4 l ++ held 4 800 (run (clock 4 800) reset twoWords) =
          [scaled 800 7, scaled 800 50] :=
  ⟨by decide, by decide, by decide,
    (elastic_channel (by decide) 800 twoWords).1.trans (by decide)⟩

end Pipeline
end VideoProcessing
