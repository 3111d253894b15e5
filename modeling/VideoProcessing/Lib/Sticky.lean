import VideoProcessing.Lib.Run

/-!
# Status flags that an event sets and a write clears

A flag is *sticky* when an event that sets it can be read until a later clear.
`kept_iff` is about flags whose clear wins over the event in one step: such a
flag is sticky in exactly those runs in which no clear meets an event.
-/

namespace VideoProcessing
namespace Lib
namespace Sticky

universe u v

variable {σ : Type u} {ι : Type v} {step : σ → ι → σ} {flag : σ → Prop}
variable {sets clears : σ → ι → Prop}

/-- In the run `is` every event is shown by the flag from the next state on,
until a clear in a step strictly later than the event. -/
def Kept (step : σ → ι → σ) (flag : σ → Prop) (sets clears : σ → ι → Prop) (s : σ)
    (is : List ι) : Prop :=
  ∀ pre i mid post, is = pre ++ i :: mid ++ post → sets (run step s pre) i →
    (∀ e ∈ log step (run step s (pre ++ [i])) mid, ¬ clears e.1 e.2) →
    flag (run step s (pre ++ i :: mid))

/-- Without a clear the flag stays. -/
theorem flag_run (hstep : ∀ s i, flag (step s i) ↔ ¬ clears s i ∧ (sets s i ∨ flag s))
    {s : σ} (h : flag s) {is : List ι} (hno : ∀ e ∈ log step s is, ¬ clears e.1 e.2) :
    flag (run step s is) := by
  induction is generalizing s with
  | nil => exact h
  | cons i is ih =>
      rw [log_cons] at hno
      have hi : flag (step s i) :=
        (hstep s i).2 ⟨hno (s, i) List.mem_cons_self, Or.inr h⟩
      exact ih hi fun e he => hno e (List.mem_cons_of_mem _ he)

/-- A flag whose clear wins is sticky exactly when no clear meets an event. -/
theorem kept_iff (hstep : ∀ s i, flag (step s i) ↔ ¬ clears s i ∧ (sets s i ∨ flag s))
    {s : σ} {is : List ι} :
    Kept step flag sets clears s is ↔
      ∀ e ∈ log step s is, ¬ (sets e.1 e.2 ∧ clears e.1 e.2) := by
  constructor
  · rintro hkept ⟨t, i⟩ he ⟨hset, hclear⟩
    obtain ⟨pre, post, his, ht⟩ := (mem_log_iff step s is _).1 he
    dsimp only at his ht hset hclear
    subst ht
    have hflag := hkept pre i [] post (by simpa using his) hset (by simp)
    rw [run_snoc, hstep] at hflag
    exact hflag.1 hclear
  · intro hno pre i mid post his hset hlater
    have hmem : (run step s pre, i) ∈ log step s is :=
      (mem_log_iff step s is _).2 ⟨pre, mid ++ post, by simpa using his, rfl⟩
    have hflag : flag (run step s (pre ++ [i])) := by
      rw [run_snoc, hstep]
      exact ⟨fun hclear => hno _ hmem ⟨hset, hclear⟩, Or.inl hset⟩
    have happ : run step s (pre ++ i :: mid) = run step (run step s (pre ++ [i])) mid := by
      rw [← run_append, List.append_assoc, List.singleton_append]
    rw [happ]
    exact flag_run hstep hflag hlater

end Sticky
end Lib
end VideoProcessing
