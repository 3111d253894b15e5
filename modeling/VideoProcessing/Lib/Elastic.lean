import Mathlib.Tactic.Common

/-!
# Elastic pipelines

A pipeline of the stages `0, ..., n` with valid/ready handshakes: a stage takes
the word of the stage before it when it is empty or when the stage behind it
takes its own word; the last stage gives its word to the output when the output
is not full.  On the way from stage `i` to stage `i + 1` a word is mapped by
`op i`.

`held` lists the words in the pipeline, oldest first, as they will leave it.
`out_append_held` says that one step moves words through without losing,
repeating or reordering any; `age_step` counts the places that they move.
-/

namespace VideoProcessing
namespace Lib
namespace Elastic

universe u

variable {α : Type u}

/-- The stage `d` places before the last one takes a word. -/
def readyFrom (n : Nat) (stage : Nat → Option α) (full : Bool) : Nat → Bool
  | 0 => !full
  | d + 1 => (stage (n - (d + 1))).isNone || readyFrom n stage full d

/-- Stage `g` takes a word. -/
def ready (n : Nat) (stage : Nat → Option α) (full : Bool) (g : Nat) : Bool :=
  readyFrom n stage full (n - g)

/-- The stages after one step with the word `inp` offered to stage `0`. -/
def step (n : Nat) (op : Nat → α → α) (stage : Nat → Option α) (inp : Option α)
    (full : Bool) : Nat → Option α
  | 0 => if ready n stage full 0 then inp else stage 0
  | i + 1 =>
      if i < n && ready n stage full (i + 1) then (stage i).map (op i) else stage (i + 1)

/-- The word given to the output in one step. -/
def out (n : Nat) (stage : Nat → Option α) (full : Bool) : Option α :=
  if full then none else stage n

/-- What a word `d` places before the last stage becomes at the output. -/
def finish (n : Nat) (op : Nat → α → α) : Nat → α → α
  | 0, x => x
  | d + 1, x => finish n op d (op (n - (d + 1)) x)

/-- The words in the last `d + 1` stages, oldest first, as they will leave. -/
def heldFrom (n : Nat) (op : Nat → α → α) (stage : Nat → Option α) : Nat → List α
  | 0 => (stage n).toList
  | d + 1 => heldFrom n op stage d ++ ((stage (n - (d + 1))).map (finish n op (d + 1))).toList

/-- The words in the pipeline, oldest first, as they will leave. -/
def held (n : Nat) (op : Nat → α → α) (stage : Nat → Option α) : List α :=
  heldFrom n op stage n

variable {n : Nat} {op : Nat → α → α} {stage : Nat → Option α} {inp : Option α}
  {full : Bool}

/-- The word offered to the stage `d` places before the last one. -/
def offered (n : Nat) (op : Nat → α → α) (stage : Nat → Option α) (inp : Option α)
    (d : Nat) :
    Option α :=
  if d = n then inp else (stage (n - (d + 1))).map (op (n - (d + 1)))

/-- A stage after one step: the offered word if it is ready, else its own. -/
theorem step_at {d : Nat} (hd : d ≤ n) :
    step n op stage inp full (n - d) =
      if readyFrom n stage full d then offered n op stage inp d else stage (n - d) := by
  by_cases hdn : d = n
  · subst hdn
    rw [Nat.sub_self, offered, if_pos rfl]
    rfl
  · obtain ⟨i, hi⟩ : ∃ i, n - d = i + 1 := ⟨n - (d + 1), by omega⟩
    have hprev : n - (d + 1) = i := by omega
    have hready : ready n stage full (i + 1) = readyFrom n stage full d := by
      rw [ready]
      congr 1
      omega
    have hlt : decide (i < n) = true := by
      rw [decide_eq_true_eq]
      omega
    rw [hi, step, hready, hlt, Bool.true_and, offered, if_neg hdn, hprev]

/-- One step on the last `d + 1` stages. -/
theorem out_append_heldFrom {d : Nat} (hd : d ≤ n) :
    (out n stage full).toList ++ heldFrom n op (step n op stage inp full) d =
      heldFrom n op stage d ++
        (if readyFrom n stage full d then
          (offered n op stage inp d).map (finish n op d) else none).toList := by
  induction d with
  | zero =>
      have hid : ∀ o : Option α, o.map (finish n op 0) = o := by
        intro o
        cases o <;> rfl
      have hlast : step n op stage inp full n =
          if readyFrom n stage full 0 then offered n op stage inp 0 else stage n :=
        step_at (Nat.zero_le n)
      rw [heldFrom, heldFrom, hlast, hid, readyFrom, out]
      cases full <;> simp
  | succ d ih =>
      have ih' := ih (by omega)
      have hoffer : (offered n op stage inp d).map (finish n op d) =
          (stage (n - (d + 1))).map (finish n op (d + 1)) := by
        rw [offered, if_neg (by omega), Option.map_map]
        rfl
      rw [hoffer] at ih'
      rw [heldFrom, heldFrom, ← List.append_assoc, ih', step_at hd, readyFrom]
      cases hr : readyFrom n stage full d with
      | true => simp
      | false => cases stage (n - (d + 1)) <;> simp

/-- One step moves the words through the pipeline in order. -/
theorem out_append_held :
    (out n stage full).toList ++ held n op (step n op stage inp full) =
      held n op stage ++
        (if ready n stage full 0 then inp.map (finish n op n) else none).toList := by
  have hall : offered n op stage inp n = inp := by
    rw [offered, if_pos rfl]
  rw [held, out_append_heldFrom (Nat.le_refl n), hall, ready, Nat.sub_zero, held]

theorem heldFrom_eq_nil {d : Nat} :
    heldFrom n op stage d = [] ↔ ∀ e, e ≤ d → stage (n - e) = none := by
  induction d with
  | zero =>
      rw [heldFrom, Option.toList_eq_nil_iff]
      constructor
      · intro h e he
        rw [Nat.le_zero.1 he, Nat.sub_zero]
        exact h
      · intro h
        exact h 0 (Nat.le_refl 0)
  | succ d ih =>
      rw [heldFrom, List.append_eq_nil_iff, ih, Option.toList_eq_nil_iff,
        Option.map_eq_none_iff]
      constructor
      · rintro ⟨h, hlast⟩ e he
        rcases Nat.lt_or_eq_of_le he with hlt | rfl
        · exact h e (by omega)
        · exact hlast
      · intro h
        exact ⟨fun e he => h e (by omega), h (d + 1) (Nat.le_refl _)⟩

/-- A pipeline that holds nothing has only empty stages. -/
theorem held_eq_nil : held n op stage = [] ↔ ∀ g, g ≤ n → stage g = none := by
  rw [held, heldFrom_eq_nil]
  constructor
  · intro h g hg
    have := h (n - g) (by omega)
    rwa [Nat.sub_sub_self hg] at this
  · intro h e _
    exact h (n - e) (by omega)

/-- Stages that do not change the word add nothing. -/
theorem finish_eq_self {k : Nat} (hop : ∀ i x, k ≤ i → op i x = x) {d : Nat}
    (hd : d + k ≤ n) (x : α) : finish n op d x = x := by
  induction d with
  | zero => rfl
  | succ d ih => rw [finish, hop _ _ (by omega), ih (by omega)]

section Age

/-- How far the words in the last `d + 1` stages have come, the one in stage `g` by
`g + 1` places. -/
def ageFrom (n : Nat) (stage : Nat → Option α) : Nat → Nat
  | 0 => (n + 1) * (stage n).isSome.toNat
  | d + 1 => ageFrom n stage d + (n - d) * (stage (n - (d + 1))).isSome.toNat

/-- How far the words in the pipeline have come. -/
def age (n : Nat) (stage : Nat → Option α) : Nat := ageFrom n stage n

/-- The words that move from one of the last `d + 1` stages to the next one. -/
def movesFrom (n : Nat) (stage : Nat → Option α) (full : Bool) : Nat → Nat
  | 0 => 0
  | d + 1 => movesFrom n stage full d +
      (readyFrom n stage full d && (stage (n - (d + 1))).isSome).toNat

variable (op stage inp full) in
/-- A step lets words in at stage `n - d`, moves words, and lets out what came `n + 1`
places. -/
theorem ageFrom_step {d : Nat} (hd : d ≤ n) :
    ageFrom n (step n op stage inp full) d + (n + 1) * (out n stage full).isSome.toNat =
      ageFrom n stage d +
        (n - d + 1) * (readyFrom n stage full d && (offered n op stage inp d).isSome).toNat +
          movesFrom n stage full d := by
  induction d with
  | zero =>
      have hlast : step n op stage inp full n =
          if readyFrom n stage full 0 then offered n op stage inp 0 else stage n :=
        step_at (Nat.zero_le n)
      rw [ageFrom, ageFrom, hlast, movesFrom, readyFrom, out, Nat.sub_zero]
      cases full <;> simp [Nat.add_comm]
  | succ d ih =>
      have ih' := ih (by omega)
      have hoffer : (offered n op stage inp d).isSome = (stage (n - (d + 1))).isSome := by
        rw [offered, if_neg (by omega), Option.isSome_map]
      have hplace : n - (d + 1) + 1 = n - d := by omega
      rw [hoffer] at ih'
      rw [ageFrom, ageFrom, movesFrom, step_at hd, readyFrom, hplace]
      cases hr : readyFrom n stage full d <;> cases hs : stage (n - (d + 1)) <;>
        simp only [hr, hs] at ih' ⊢ <;> simp at ih' ⊢ <;> omega

variable (n op stage inp full) in
/-- One step adds the places that words move, the way into the pipeline included. -/
theorem age_step :
    age n (step n op stage inp full) + (n + 1) * (out n stage full).isSome.toNat =
      age n stage + (ready n stage full 0 && inp.isSome).toNat + movesFrom n stage full n := by
  have h := ageFrom_step op stage inp full (Nat.le_refl n)
  have hall : offered n op stage inp n = inp := by
    rw [offered, if_pos rfl]
  rw [hall, Nat.sub_self, Nat.zero_add, Nat.one_mul] at h
  rw [age, h, age, ready, Nat.sub_zero]

theorem ageFrom_le (d : Nat) :
    ageFrom n stage d ≤ (n + 1) * (heldFrom n op stage d).length := by
  induction d with
  | zero => cases hs : stage n <;> simp [ageFrom, heldFrom, hs]
  | succ d ih =>
      rw [ageFrom, heldFrom, List.length_append, Nat.mul_add]
      refine Nat.add_le_add ih ?_
      cases stage (n - (d + 1)) with
      | none => simp
      | some x =>
          have hle : n - d ≤ n + 1 := by omega
          simpa using hle

/-- No word has come further than through the last stage. -/
theorem age_le : age n stage ≤ (n + 1) * (held n op stage).length := ageFrom_le n

/-- With room at the output every stage takes a word. -/
theorem readyFrom_false (d : Nat) : readyFrom n stage false d = true := by
  induction d with
  | zero => rfl
  | succ d ih => rw [readyFrom, ih, Bool.or_true]

theorem eq_none_of_movesFrom {d : Nat} (h : movesFrom n stage false d = 0) :
    ∀ e, e < d → stage (n - (e + 1)) = none := by
  induction d with
  | zero => exact fun e he => absurd he (Nat.not_lt_zero e)
  | succ d ih =>
      rw [movesFrom, readyFrom_false, Bool.true_and, Nat.add_eq_zero_iff] at h
      intro e he
      rcases Nat.lt_succ_iff_lt_or_eq.1 he with hlt | rfl
      · exact ih h.1 e hlt
      · simpa using h.2

/-- With room at the output only an empty pipeline moves nothing. -/
theorem held_eq_nil_of_still (hout : out n stage false = none)
    (hmoves : movesFrom n stage false n = 0) : held n op stage = [] := by
  refine held_eq_nil.2 fun g hg => ?_
  rcases Nat.lt_or_eq_of_le hg with hlt | rfl
  · have h := eq_none_of_movesFrom hmoves (n - (g + 1)) (by omega)
    rwa [show n - (n - (g + 1) + 1) = g by omega] at h
  · exact hout

end Age

end Elastic
end Lib
end VideoProcessing
