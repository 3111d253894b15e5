import Mathlib.Data.List.Basic
import Mathlib.Logic.Function.Basic
import Mathlib.Tactic.Common

/-!
# Copying with reads ahead of writes

A `Job` reads words from the places `src 0, src 1, ...`, maps each by `op` and writes them
to `dst 0, dst 1, ...`.  What it is for is said by `Job.copied`: the memory after the first
`n` words, as if all words had been read before the first was written.

A machine that reads and writes in order, with any number of words read and not written
yet, is `Underway`.  It computes `copied` when the job is `Safe`: no word is written to the
place of a later source word.  Jobs without overlap are safe, and so are jobs that move
words down or leave them where they are.
-/

namespace VideoProcessing
namespace Lib

universe u v w x

/-- How a memory `M` is read and written. -/
structure Ports (M : Type u) (A : Type v) (W : Type w) where
  fetch : M → A → W
  put : M → A → W → M

/-- Words to be copied. -/
structure Job (A : Type v) (W : Type w) where
  src : Nat → A
  dst : Nat → A
  op : W → W
  len : Nat

namespace Job

variable {M : Type u} {A : Type v} {W : Type w} (io : Ports M A W) (j : Job A W)

/-- The memory after the first `n` words. -/
def copied (mem : M) : Nat → M
  | 0 => mem
  | n + 1 => io.put (copied mem n) (j.dst n) (j.op (io.fetch mem (j.src n)))

/-- No word is written to the place of a later source word. -/
def Safe : Prop :=
  ∀ i k, i < k → k < j.len → ∀ mem w,
    io.fetch (io.put mem (j.dst i) w) (j.src k) = io.fetch mem (j.src k)

/-- The memory after several jobs, one after the other. -/
def perform (js : List (Job A W)) (mem : M) : M :=
  js.foldl (fun mem j => j.copied io mem j.len) mem

variable {io j} {mem mem0 : M} {ws : List W} {n m : Nat}

theorem perform_snoc (js : List (Job A W)) :
    perform io (js ++ [j]) mem = j.copied io (perform io js mem) j.len := by
  rw [perform, List.foldl_append]
  rfl

/-- Of a safe job the words that are not written yet can still be read. -/
theorem fetch_copied (hsafe : j.Safe io) (hm : m ≤ n) (hn : n < j.len) :
    io.fetch (j.copied io mem m) (j.src n) = io.fetch mem (j.src n) := by
  induction m with
  | zero => rfl
  | succ m ih => rw [copied, hsafe m n hm hn, ih (Nat.le_of_succ_le hm)]

/-- The words `ws` are read and the first `m` of them are written. -/
structure Underway (io : Ports M A W) (j : Job A W) (mem0 mem : M) (ws : List W) (m : Nat) :
    Prop where
  le : m ≤ ws.length
  words : ∀ i, i < ws.length → ws[i]? = some (io.fetch mem0 (j.src i))
  mem : mem = j.copied io mem0 m

theorem underway_zero : Underway io j mem0 mem0 [] 0 :=
  ⟨Nat.le_refl 0, fun _ hi => absurd hi (Nat.not_lt_zero _), rfl⟩

/-- The next word is read. -/
theorem Underway.read (h : Underway io j mem0 mem ws m) (hsafe : j.Safe io)
    (hlt : ws.length < j.len) :
    Underway io j mem0 mem (ws ++ [io.fetch mem (j.src ws.length)]) m := by
  refine ⟨?_, ?_, h.mem⟩
  · rw [List.length_append]
    exact Nat.le_add_right_of_le h.le
  · intro i hi
    rw [List.length_append, List.length_singleton, Nat.lt_succ_iff_lt_or_eq] at hi
    rcases hi with hi | rfl
    · rw [List.getElem?_append_left hi]
      exact h.words i hi
    · rw [List.getElem?_concat_length, h.mem, fetch_copied hsafe h.le hlt]

/-- The next word is written. -/
theorem Underway.write (h : Underway io j mem0 mem ws m) {w : W}
    (hw : (ws[m]?).map j.op = some w) :
    Underway io j mem0 (io.put mem (j.dst m) w) ws (m + 1) := by
  have hlt : m < ws.length := by
    by_contra hge
    rw [List.getElem?_eq_none (Nat.le_of_not_lt hge)] at hw
    exact absurd hw (by simp)
  rw [h.words m hlt, Option.map_some, Option.some.injEq] at hw
  exact ⟨hlt, h.words, by rw [h.mem, ← hw, copied]⟩

section View

variable {K : Type x} [DecidableEq K] {view : M → K → W} {place : A → K}

/-- What is written shows up at its place. -/
def Writes (io : Ports M A W) (view : M → K → W) (place : A → K) : Prop :=
  ∀ mem a w, view (io.put mem a w) = Function.update (view mem) (place a) w

/-- Away from the destination nothing changes. -/
theorem copied_apart (hput : Writes io view place) {a : K}
    (ha : ∀ i, i < n → place (j.dst i) ≠ a) : view (j.copied io mem n) a = view mem a := by
  induction n with
  | zero => rfl
  | succ n ih =>
      rw [copied, hput, Function.update_of_ne (ha n (Nat.lt_succ_self n)).symm]
      exact ih fun i hi => ha i (Nat.lt_succ_of_lt hi)

/-- The mapped words are at the destination. -/
theorem copied_dst (hput : Writes io view place)
    (hinj : ∀ i k, i < n → k < n → place (j.dst i) = place (j.dst k) → i = k) {i : Nat}
    (hi : i < n) :
    view (j.copied io mem n) (place (j.dst i)) = j.op (io.fetch mem (j.src i)) := by
  induction n with
  | zero => exact absurd hi (Nat.not_lt_zero i)
  | succ n ih =>
      rw [copied, hput]
      by_cases hin : i = n
      · rw [hin, Function.update_self]
      · have hne : place (j.dst i) ≠ place (j.dst n) :=
          fun heq => hin (hinj i n hi (Nat.lt_succ_self n) heq)
        rw [Function.update_of_ne hne]
        exact ih (fun i k hi hk => hinj i k (Nat.lt_succ_of_lt hi) (Nat.lt_succ_of_lt hk))
          (by omega)

end View

end Job
end Lib
end VideoProcessing
