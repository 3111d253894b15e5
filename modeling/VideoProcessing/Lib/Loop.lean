import Mathlib.Data.Nat.Basic

/-!
# Counting loops

`forLoop n body s` is `for (i = 0; i < n; i++) s = body(i, s)`, and `forLoopM` the
same loop with a body that may fail to return.

* `forLoop_invariant`, `forLoopM_invariant`: what every pass preserves holds at the
  end;
* `forLoopM_eq_some`: a loop returns what its passes return one after the other;
* `forLoopM_returns`: passes that need fuel return together with enough of it;
* `forLoopM_total`: the same when only the states of an invariant are known to return;
* `getElem?_flatMap_range`: what a loop that appends blocks of one length has written.
-/

namespace VideoProcessing
namespace Lib

universe u

variable {α : Type u}

/-- The first `n` passes of a counting loop. -/
def forLoop : Nat → (Nat → α → α) → α → α
  | 0, _, s => s
  | n + 1, body, s => body n (forLoop n body s)

/-- The first `n` passes of a counting loop whose body may fail to return. -/
def forLoopM : Nat → (Nat → α → Option α) → α → Option α
  | 0, _, s => some s
  | n + 1, body, s => (forLoopM n body s).bind (body n)

variable {n : Nat} {s : α}

/-- Invariant rule: `P i` holds before pass `i`. -/
theorem forLoop_invariant {body : Nat → α → α} (P : Nat → α → Prop) (hinit : P 0 s)
    (hstep : ∀ i s, i < n → P i s → P (i + 1) (body i s)) : P n (forLoop n body s) := by
  induction n with
  | zero => exact hinit
  | succ n ih =>
      refine hstep n _ (Nat.lt_succ_self n) (ih ?_)
      intro i s hi
      exact hstep i s (Nat.lt_succ_of_lt hi)

/-- Invariant rule for a loop that returns. -/
theorem forLoopM_invariant {body : Nat → α → Option α} (P : Nat → α → Prop) (hinit : P 0 s)
    (hstep : ∀ i s s', i < n → P i s → body i s = some s' → P (i + 1) s') {s' : α}
    (hrun : forLoopM n body s = some s') : P n s' := by
  induction n generalizing s' with
  | zero =>
      rw [← Option.some.inj hrun]
      exact hinit
  | succ n ih =>
      obtain ⟨t, ht, hbody⟩ := Option.bind_eq_some_iff.1 hrun
      refine hstep n t s' (Nat.lt_succ_self n) (ih ?_ ht) hbody
      intro i s s' hi
      exact hstep i s s' (Nat.lt_succ_of_lt hi)

/-- A loop returns what its passes return one after the other. -/
theorem forLoopM_eq_some {body : Nat → α → Option α} (f : Nat → α) (hinit : f 0 = s)
    (hstep : ∀ i, i < n → body i (f i) = some (f (i + 1))) :
    forLoopM n body s = some (f n) := by
  induction n with
  | zero => rw [hinit, forLoopM]
  | succ n ih =>
      rw [forLoopM, ih fun i hi => hstep i (Nat.lt_succ_of_lt hi)]
      exact hstep n (Nat.lt_succ_self n)

section Fuel

variable {body : Nat → Nat → α → Option α}

/-- More fuel changes no result of a loop when it changes none of its passes. -/
theorem forLoopM_mono
    (hmono : ∀ i s s' f f', f ≤ f' → body f i s = some s' → body f' i s = some s')
    {n : Nat} {s s' : α} {f f' : Nat} (hle : f ≤ f')
    (h : forLoopM n (body f) s = some s') :
    forLoopM n (body f') s = some s' := by
  induction n generalizing s' with
  | zero => exact h
  | succ n ih =>
      obtain ⟨t, ht, hbody⟩ := Option.bind_eq_some_iff.1 h
      exact Option.bind_eq_some_iff.2 ⟨t, ih ht, hmono n t s' f f' hle hbody⟩

variable (body) in
/-- When more fuel changes no result and with enough of it every pass keeps the invariant,
so does the loop. -/
theorem forLoopM_total (P : Nat → α → Prop)
    (hmono : ∀ i s s' f f', f ≤ f' → body f i s = some s' → body f' i s = some s')
    (hstep : ∀ i s, P i s → ∃ f s', body f i s = some s' ∧ P (i + 1) s') {s : α}
    (hinit : P 0 s) (n : Nat) : ∃ f s', forLoopM n (body f) s = some s' ∧ P n s' := by
  induction n with
  | zero => exact ⟨0, s, rfl, hinit⟩
  | succ n ih =>
      obtain ⟨f, t, ht, hP⟩ := ih
      obtain ⟨g, s', hs', hP'⟩ := hstep n t hP
      refine ⟨max f g, s', Option.bind_eq_some_iff.2 ⟨t, ?_, ?_⟩, hP'⟩
      · exact forLoopM_mono hmono (Nat.le_max_left f g) ht
      · exact hmono n t s' g (max f g) (Nat.le_max_right f g) hs'

end Fuel

/-- When more fuel changes no result and every pass returns with enough of it, so does
the loop. -/
theorem forLoopM_returns (body : Nat → Nat → α → Option α)
    (hmono : ∀ i s s' f f', f ≤ f' → body f i s = some s' → body f' i s = some s')
    (hreturns : ∀ i s, ∃ f s', body f i s = some s') (n : Nat) (s : α) :
    ∃ f s', forLoopM n (body f) s = some s' := by
  obtain ⟨f, s', h, -⟩ := forLoopM_total body (s := s) (fun _ _ => True) hmono (fun i s _ => by
    obtain ⟨f, s', h⟩ := hreturns i s
    exact ⟨f, s', h, trivial⟩) trivial n
  exact ⟨f, s', h⟩

section Output

variable {f : Nat → List α} {c n : Nat}

/-- A loop that appends blocks of one length. -/
theorem length_flatMap_range (hf : ∀ i, (f i).length = c) (n : Nat) :
    ((List.range n).flatMap f).length = c * n := by
  induction n with
  | zero => rfl
  | succ n ih =>
      rw [List.range_succ, List.flatMap_append, List.length_append, ih,
        List.flatMap_singleton, hf, Nat.mul_succ]

/-- An element of a block. -/
theorem getElem?_flatMap_range (hf : ∀ i, (f i).length = c) {i j : Nat} (hi : i < n)
    (hj : j < c) :
    ((List.range n).flatMap f)[c * i + j]? = (f i)[j]? := by
  induction n with
  | zero => exact absurd hi (Nat.not_lt_zero i)
  | succ n ih =>
      have hlength := length_flatMap_range hf n
      rw [List.range_succ, List.flatMap_append, List.flatMap_singleton]
      rcases Nat.lt_succ_iff_lt_or_eq.1 hi with hlt | rfl
      · have hbefore : c * i + j < c * n := by
          calc c * i + j < c * i + c := Nat.add_lt_add_left hj _
            _ = c * (i + 1) := (Nat.mul_succ c i).symm
            _ ≤ c * n := Nat.mul_le_mul_left c hlt
        rw [List.getElem?_append_left (by rw [hlength]; exact hbefore)]
        exact ih hlt
      · rw [List.getElem?_append_right (by rw [hlength]; exact Nat.le_add_right _ _),
          hlength, Nat.add_sub_cancel_left]

end Output

end Lib
end VideoProcessing
