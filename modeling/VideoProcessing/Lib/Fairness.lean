import Mathlib.Data.Nat.Basic
import VideoProcessing.Lib.Run

/-!
# Progress under fair inputs

A machine runs for ever on a sequence of inputs.  In every state some *needs* may be
open; an input meets some of them.  The sequence is fair when each need is met again and
again.

`Progress` asks for an invariant at places `p`, what the proof knows of the machine beside
its state, and for a gauge of the places with a bound.  A step increases the gauge, or it
changes neither the gauge nor the needs, of which at least one is open and none is met.
`Progress.eventually` says that under fair inputs such a machine reaches its goal: an open
need stays open until the gauge increases, which happens at the latest when it is met.
-/

namespace VideoProcessing
namespace Lib

universe u v w x

variable {σ : Type u} {ι : Type v} {κ : Type w} {γ : Type x}

/-- The states of a run that never ends. -/
def states (step : σ → ι → σ) (s : σ) (is : Nat → ι) : Nat → σ
  | 0 => s
  | t + 1 => step (states step s is t) (is t)

theorem states_eq_run (step : σ → ι → σ) (s : σ) (is : Nat → ι) (t : Nat) :
    states step s is t = run step s ((List.range t).map is) := by
  induction t with
  | zero => rfl
  | succ t ih => rw [states, List.range_succ, List.map_append, List.map_singleton, run_snoc, ih]

theorem log_range (step : σ → ι → σ) (s : σ) (is : Nat → ι) (t : Nat) :
    log step s ((List.range t).map is) =
      (List.range t).map fun i => (states step s is i, is i) := by
  induction t with
  | zero => rfl
  | succ t ih =>
      rw [List.range_succ, List.map_append, List.map_append, List.map_singleton,
        List.map_singleton, log_snoc, ih, states_eq_run]

/-- Every need is met again and again. -/
def Fair (met : κ → ι → Prop) (is : Nat → ι) : Prop :=
  ∀ k t, ∃ n, met k (is (t + n))

/-- What a step does for the goal: it increases the gauge from `g`, or all needs stay open,
and there are some. -/
def Advances (met : κ → ι → Prop) (needs : σ → κ → Prop) (s : σ) (i : ι) (s' : σ)
    (g g' : Nat) :
    Prop :=
  g < g' ∨ (g = g' ∧ (∃ k, needs s k) ∧ ∀ k, needs s k → needs s' k ∧ ¬ met k i)

/-- The invariant `I p`, at some place `p`, holds until the goal is reached. -/
structure Progress (step : σ → ι → σ) (Allowed : σ → ι → Prop) (met : κ → ι → Prop)
    (needs : γ → σ → κ → Prop) (gauge : γ → Nat) (Goal : σ → Prop) (I : γ → σ → Prop)
    (bound : Nat) : Prop where
  le_bound : ∀ {p s}, I p s → gauge p ≤ bound
  step : ∀ {p s i}, I p s → ¬ Goal s → Allowed s i →
    ∃ p', I p' (step s i) ∧ (Goal (step s i) ∨
      Advances met (fun q : γ × σ => needs q.1 q.2) (p, s) i (p', step s i) (gauge p) (gauge p'))

namespace Progress

variable {step : σ → ι → σ} {Allowed : σ → ι → Prop} {met : κ → ι → Prop}
  {needs : γ → σ → κ → Prop} {gauge : γ → Nat} {Goal : σ → Prop} {I : γ → σ → Prop}
  {bound : Nat} {s : σ} {is : Nat → ι}

/-- The goal is reached at some time from `t` on. -/
def Reaches (Goal : σ → Prop) (I : γ → σ → Prop) (ss : Nat → σ) (t : Nat) : Prop :=
  ∃ n p, I p (ss (t + n)) ∧ Goal (ss (t + n))

theorem reaches_succ {ss : Nat → σ} {t : Nat} (h : Reaches Goal I ss (t + 1)) :
    Reaches Goal I ss t := by
  obtain ⟨n, p, hI, hgoal⟩ := h
  have hadd : t + (n + 1) = t + 1 + n := by omega
  exact ⟨n + 1, p, by rw [hadd]; exact hI, by rw [hadd]; exact hgoal⟩

/-- By the time an open need is met, the goal is reached or the gauge has increased. -/
theorem increases (h : Progress step Allowed met needs gauge Goal I bound)
    (hallowed : ∀ t, Allowed (states step s is t) (is t)) {k : κ} (n : Nat) {t : Nat}
    {p : γ} (hI : I p (states step s is t)) (hneeds : needs p (states step s is t) k)
    (hmet : met k (is (t + n))) :
    Reaches Goal I (states step s is) t ∨
      ∃ d p', gauge p < gauge p' ∧ I p' (states step s is (t + d)) := by
  induction n generalizing t p with
  | zero =>
      by_cases hgoal : Goal (states step s is t)
      · exact Or.inl ⟨0, p, hI, hgoal⟩
      · obtain ⟨p', hI', hgoal' | hlt | ⟨-, -, hkeep⟩⟩ := h.step hI hgoal (hallowed t)
        · exact Or.inl ⟨1, p', hI', hgoal'⟩
        · exact Or.inr ⟨1, p', hlt, hI'⟩
        · exact absurd hmet (hkeep k hneeds).2
  | succ n ih =>
      by_cases hgoal : Goal (states step s is t)
      · exact Or.inl ⟨0, p, hI, hgoal⟩
      · obtain ⟨p', hI', hgoal' | hlt | ⟨heq, -, hkeep⟩⟩ := h.step hI hgoal (hallowed t)
        · exact Or.inl ⟨1, p', hI', hgoal'⟩
        · exact Or.inr ⟨1, p', hlt, hI'⟩
        · have hadd : t + 1 + n = t + (n + 1) := by omega
          rcases ih (t := t + 1) hI' (hkeep k hneeds).1 (by rw [hadd]; exact hmet) with
            hreach | ⟨d, p'', hlt, hI''⟩
          · exact Or.inl (reaches_succ hreach)
          · have hadd' : t + (d + 1) = t + 1 + d := by omega
            exact Or.inr ⟨d + 1, p'', by rw [heq]; exact hlt, by rw [hadd']; exact hI''⟩

/-- From every time on at which the invariant holds the goal is reached: a need stays open
until it is met. -/
theorem reaches (h : Progress step Allowed met needs gauge Goal I bound)
    (hfair : Fair met is) (hallowed : ∀ t, Allowed (states step s is t) (is t)) {t : Nat}
    {p : γ} (hI : I p (states step s is t)) : Reaches Goal I (states step s is) t := by
  generalize hleft : bound - gauge p = left
  induction left using Nat.strong_induction_on generalizing t p with
  | _ left ih =>
      have hlater : ∀ {d p'}, gauge p < gauge p' → I p' (states step s is (t + d)) →
          Reaches Goal I (states step s is) t := by
        intro d p' hlt hI'
        have hle := h.le_bound hI'
        obtain ⟨n, p'', hI'', hgoal⟩ := ih (bound - gauge p') (by omega) hI' rfl
        rw [Nat.add_assoc] at hI'' hgoal
        exact ⟨d + n, p'', hI'', hgoal⟩
      by_cases hgoal : Goal (states step s is t)
      · exact ⟨0, p, hI, hgoal⟩
      · obtain ⟨p', hI', hgoal' | hlt | ⟨heq, ⟨k, hk⟩, hkeep⟩⟩ :=
          h.step hI hgoal (hallowed t)
        · exact ⟨1, p', hI', hgoal'⟩
        · exact hlater (d := 1) hlt hI'
        · obtain ⟨n, hmet⟩ := hfair k t
          rcases h.increases hallowed n hI hk hmet with hreach | ⟨d, p'', hlt, hI''⟩
          · exact hreach
          · exact hlater hlt hI''

/-- A machine that makes progress reaches its goal when the inputs are fair. -/
theorem eventually (h : Progress step Allowed met needs gauge Goal I bound)
    (hfair : Fair met is) (hallowed : ∀ t, Allowed (states step s is t) (is t)) {p : γ}
    (hI : I p s) :
    ∃ t p', I p' (states step s is t) ∧ Goal (states step s is t) := by
  obtain ⟨n, p', hI', hgoal⟩ := h.reaches hfair hallowed (t := 0) hI
  exact ⟨0 + n, p', hI', hgoal⟩

end Progress
end Lib
end VideoProcessing
