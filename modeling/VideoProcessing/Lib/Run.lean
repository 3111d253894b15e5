import Mathlib.Algebra.Group.Nat.Defs
import Mathlib.Data.List.Induction

/-!
# Runs and logs of a state machine

A machine is a step function `σ → ι → σ`: one input `ι` per event.  A *run*
feeds a list of inputs to the machine; its *log* keeps every input together
with the state that met it.  Whatever a machine emitted, accepted or sampled
during a run is a `filterMap` of the log.

Main rules:
* `run_invariant`: what every step preserves holds in every reached state;
* `log_invariant`: the same for a predicate on the state and on the log so far;
* `log_invariant_of`: the same when every input met its guard, which may look
  at the log as well as at the state;
* `run_related`: a relation between two machines that every step keeps;
* `run_project` / `log_project`: a component of a machine runs on the inputs
  that the whole machine sends it.
-/

namespace VideoProcessing
namespace Lib

universe u v w

variable {σ : Type u} {ι : Type v} {τ : Type u} {κ : Type v}

/-- The state reached from `s` after a list of inputs. -/
def run (step : σ → ι → σ) (s : σ) : List ι → σ
  | [] => s
  | i :: is => run step (step s i) is

/-- The inputs of a run, each with the state that met it. -/
def log (step : σ → ι → σ) (s : σ) : List ι → List (σ × ι)
  | [] => []
  | i :: is => (s, i) :: log step (step s i) is

section Basic

variable (step : σ → ι → σ) (s : σ)

@[simp] theorem run_nil : run step s [] = s := rfl

@[simp] theorem run_cons (i : ι) (is : List ι) :
    run step s (i :: is) = run step (step s i) is := rfl

@[simp] theorem log_nil : log step s [] = [] := rfl

@[simp] theorem log_cons (i : ι) (is : List ι) :
    log step s (i :: is) = (s, i) :: log step (step s i) is := rfl

theorem length_log (is : List ι) : (log step s is).length = is.length := by
  induction is generalizing s with
  | nil => rfl
  | cons i is ih => exact congrArg Nat.succ (ih _)

theorem run_append (is js : List ι) :
    run step s (is ++ js) = run step (run step s is) js := by
  induction is generalizing s with
  | nil => rfl
  | cons i is ih => exact ih (step s i)

theorem log_append (is js : List ι) :
    log step s (is ++ js) = log step s is ++ log step (run step s is) js := by
  induction is generalizing s with
  | nil => rfl
  | cons i is ih =>
      simp only [List.cons_append, log_cons, run_cons]
      rw [ih (step s i)]

theorem run_snoc (is : List ι) (i : ι) :
    run step s (is ++ [i]) = step (run step s is) i := by
  rw [run_append]
  rfl

theorem log_snoc (is : List ι) (i : ι) :
    log step s (is ++ [i]) = log step s is ++ [(run step s is, i)] := by
  rw [log_append]
  rfl

/-- A cut of what a log shows is a cut of the run. -/
theorem map_log_eq_append {α : Type w} {f : σ × ι → α} {is : List ι} {l₁ l₂ : List α}
    (h : (log step s is).map f = l₁ ++ l₂) :
    ∃ is₁ is₂, is = is₁ ++ is₂ ∧ (log step s is₁).map f = l₁ ∧
      (log step (run step s is₁) is₂).map f = l₂ := by
  induction l₁ generalizing s is with
  | nil => exact ⟨[], is, rfl, rfl, h⟩
  | cons e l₁ ih =>
      cases is with
      | nil => exact absurd h (by simp)
      | cons i is =>
          obtain ⟨he, hrest⟩ := List.cons.inj h
          obtain ⟨is₁, is₂, rfl, h₁, h₂⟩ := ih (step s i) hrest
          exact ⟨i :: is₁, is₂, rfl, by rw [log_cons, List.map_cons, he, h₁], h₂⟩

/-- The first entry of what a log shows belongs to the first input. -/
theorem map_log_eq_cons {α : Type w} {f : σ × ι → α} {is : List ι} {x : α} {l : List α}
    (h : (log step s is).map f = x :: l) :
    ∃ i is', is = i :: is' ∧ f (s, i) = x ∧ (log step (step s i) is').map f = l := by
  cases is with
  | nil => exact absurd h (by simp)
  | cons i is =>
      obtain ⟨hx, hl⟩ := List.cons.inj h
      exact ⟨i, is, rfl, hx, hl⟩

/-- The log of a run lists the states of its prefixes. -/
theorem mem_log_iff (is : List ι) (p : σ × ι) :
    p ∈ log step s is ↔
      ∃ pre post, is = pre ++ p.2 :: post ∧ p.1 = run step s pre := by
  induction is generalizing s with
  | nil => simp
  | cons i is ih =>
      rw [log_cons, List.mem_cons, ih (step s i)]
      constructor
      · rintro (rfl | ⟨pre, post, rfl, hs⟩)
        · exact ⟨[], is, rfl, rfl⟩
        · exact ⟨i :: pre, post, rfl, hs⟩
      · rintro ⟨pre, post, his, hs⟩
        cases pre with
        | nil =>
            obtain ⟨rfl, rfl⟩ := List.cons.inj his
            exact Or.inl (Prod.ext hs rfl)
        | cons j pre =>
            obtain ⟨rfl, rfl⟩ := List.cons.inj his
            exact Or.inr ⟨pre, post, rfl, hs⟩

end Basic

section Invariants

variable {step : σ → ι → σ} {s₀ : σ}

/-- A guard on the inputs of a run, given the log and the state they meet. -/
def Guarded (G : List (σ × ι) → σ → ι → Prop) (step : σ → ι → σ) (s : σ)
    (is : List ι) : Prop :=
  ∀ pre i post, is = pre ++ i :: post → G (log step s pre) (run step s pre) i

theorem Guarded.prefix {G : List (σ × ι) → σ → ι → Prop} {is js : List ι}
    (h : Guarded G step s₀ (is ++ js)) : Guarded G step s₀ is := by
  intro pre i post his
  exact h pre i (post ++ js) (by simp [his])

theorem Guarded.last {G : List (σ × ι) → σ → ι → Prop} {is : List ι} {i : ι}
    (h : Guarded G step s₀ (is ++ [i])) :
    G (log step s₀ is) (run step s₀ is) i :=
  h is i [] rfl

/-- A guard on the state and the input alone is a property of the log. -/
theorem guarded_of_log {G : σ → ι → Prop} {is : List ι}
    (h : ∀ p ∈ log step s₀ is, G p.1 p.2) :
    Guarded (fun _ => G) step s₀ is := by
  intro pre i post his
  exact h (run step s₀ pre, i) ((mem_log_iff step s₀ is _).2 ⟨pre, post, his, rfl⟩)

/-- Invariant rule over the state and the log of a guarded run. -/
theorem log_invariant_of {G : List (σ × ι) → σ → ι → Prop}
    {P : σ → List (σ × ι) → Prop}
    (hinit : P s₀ [])
    (hstep : ∀ s l i, P s l → G l s i → P (step s i) (l ++ [(s, i)]))
    (is : List ι) (hok : Guarded G step s₀ is) :
    P (run step s₀ is) (log step s₀ is) := by
  induction is using List.reverseRecOn with
  | nil => exact hinit
  | append_singleton is i ih =>
      rw [run_snoc, log_snoc]
      exact hstep _ _ _ (ih hok.prefix) hok.last

/-- Invariant rule over the state and the log. -/
theorem log_invariant {P : σ → List (σ × ι) → Prop}
    (hinit : P s₀ [])
    (hstep : ∀ s l i, P s l → P (step s i) (l ++ [(s, i)]))
    (is : List ι) :
    P (run step s₀ is) (log step s₀ is) :=
  log_invariant_of (G := fun _ _ _ => True) hinit
    (fun s l i hP _ => hstep s l i hP) is (fun _ _ _ _ => trivial)

/-- Invariant rule over the state alone. -/
theorem run_invariant {P : σ → Prop} (hinit : P s₀)
    (hstep : ∀ s i, P s → P (step s i)) (is : List ι) :
    P (run step s₀ is) :=
  log_invariant (P := fun s _ => P s) hinit (fun s _ i hP => hstep s i hP) is

/-- What no input of a run changes is as it was. -/
theorem run_keeps {α : Type w} (reg : σ → α) {is : List ι}
    (h : ∀ s, ∀ i ∈ is, reg (step s i) = reg s) (s : σ) : reg (run step s is) = reg s := by
  induction is generalizing s with
  | nil => rfl
  | cons i is ih =>
      rw [run_cons, ih (fun s j hj => h s j (List.mem_cons_of_mem _ hj)),
        h s i List.mem_cons_self]

/-- A register that every input sets or leaves alone holds the last value set. -/
theorem run_last_set {α : Type w} (reg : σ → α) (sets : ι → Option α)
    (h : ∀ s i, reg (step s i) = (sets i).getD (reg s)) (is : List ι) (s : σ) :
    reg (run step s is) = ((is.filterMap sets).getLast?).getD (reg s) := by
  induction is using List.reverseRecOn with
  | nil => rfl
  | append_singleton is i ih =>
      rw [run_snoc, h, ih, List.filterMap_append]
      cases hi : sets i with
      | none => simp [hi]
      | some a => simp [hi]

/-- Two machines on the same inputs stay related when every step relates them. -/
theorem run_related {step' : τ → ι → τ} {R : σ → τ → Prop}
    (hstep : ∀ s t i, R s t → R (step s i) (step' t i)) {t₀ : τ} (h₀ : R s₀ t₀)
    (is : List ι) : R (run step s₀ is) (run step' t₀ is) := by
  induction is using List.reverseRecOn with
  | nil => exact h₀
  | append_singleton is i ih =>
      rw [run_snoc, run_snoc]
      exact hstep _ _ i ih

end Invariants

section Projection

variable {step : σ → ι → σ} {step' : τ → κ → τ} {π : σ → τ} {f : σ → ι → List κ}

/-- A component runs on the inputs that the whole machine sends it. -/
theorem run_project (h : ∀ s i, π (step s i) = run step' (π s) (f s i))
    (s : σ) (is : List ι) :
    π (run step s is) =
      run step' (π s) ((log step s is).flatMap fun p => f p.1 p.2) := by
  induction is generalizing s with
  | nil => rfl
  | cons i is ih =>
      rw [run_cons, log_cons, List.flatMap_cons, run_append, ih, h]

/-- The log of a component, from the log of the whole machine. -/
theorem log_project (h : ∀ s i, π (step s i) = run step' (π s) (f s i))
    (s : σ) (is : List ι) :
    log step' (π s) ((log step s is).flatMap fun p => f p.1 p.2) =
      (log step s is).flatMap fun p => log step' (π p.1) (f p.1 p.2) := by
  induction is generalizing s with
  | nil => rfl
  | cons i is ih =>
      rw [log_cons, List.flatMap_cons, List.flatMap_cons, log_append, ← h, ih]

variable {g : σ → ι → κ}

/-- The same when the component sees exactly one input per event. -/
theorem run_project_map (h : ∀ s i, π (step s i) = step' (π s) (g s i))
    (s : σ) (is : List ι) :
    π (run step s is) = run step' (π s) ((log step s is).map fun p => g p.1 p.2) := by
  induction is generalizing s with
  | nil => rfl
  | cons i is ih =>
      rw [run_cons, log_cons, List.map_cons, run_cons, ih, h]

theorem log_project_map (h : ∀ s i, π (step s i) = step' (π s) (g s i))
    (s : σ) (is : List ι) :
    log step' (π s) ((log step s is).map fun p => g p.1 p.2) =
      (log step s is).map fun p => (π p.1, g p.1 p.2) := by
  induction is generalizing s with
  | nil => rfl
  | cons i is ih =>
      rw [log_cons, List.map_cons, List.map_cons, log_cons, ← h, ih]

end Projection

end Lib
end VideoProcessing
