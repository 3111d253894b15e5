import Mathlib.Tactic.Common

/-!
# Bounded queues in ring buffers

The abstract object is a list of at most `d` elements with one optional write
and one optional read per step (`Ring.next`).  The concrete one is a memory of
`d` cells with a read index, from which the elements lie in consecutive slots
modulo `d` (`Ring.Holds`).

* `Holds.push`, `Holds.pop`: the two index updates implement the list updates;
* `length_next`: how a step changes the length;
* `Holds.length_eq`: the length from the two indices;
* `Queue`: a list that carries its bound, with `next` as its step.
-/

namespace VideoProcessing
namespace Lib
namespace Ring

universe u

variable {α : Type u}

/-- The abstract step: a write is lost when the queue is full, a read has no
effect when it is empty. -/
def next (d : Nat) (l : List α) (wr : Option α) (rd : Bool) : List α :=
  (if rd then l.tail else l) ++ (if l.length = d then [] else wr.toList)

/-- The slot `i` places behind index `r`. -/
def slot (d r i : Nat) : Nat :=
  if r + i < d then r + i else r + i - d

/-- The index after `p`. -/
def advance (d p : Nat) : Nat :=
  if p = d - 1 then 0 else p + 1

variable {d r w : Nat} {mem : Nat → α} {l : List α}

theorem slot_zero (hr : r < d) : slot d r 0 = r := by
  simp [slot, hr]

theorem slot_lt (hr : r < d) {i : Nat} (hi : i ≤ d) : slot d r i < d := by
  unfold slot
  split <;> omega

theorem slot_inj {i j : Nat} (hi : i < d) (hj : j < d)
    (h : slot d r i = slot d r j) : i = j := by
  unfold slot at h
  split at h <;> split at h <;> omega

theorem advance_lt (hr : r < d) : advance d r < d := by
  unfold advance
  split <;> omega

theorem slot_advance (hr : r < d) {i : Nat} (hi : i < d) :
    slot d (advance d r) i = slot d r (i + 1) := by
  unfold slot advance
  split <;> split <;> split <;> omega

theorem advance_slot (hr : r < d) {i : Nat} (hi : i < d) :
    advance d (slot d r i) = slot d r (i + 1) := by
  unfold slot advance
  split <;> split <;> split <;> omega

/-- The memory holds the list `l` from the read index on, and the write index
is the slot behind it. -/
structure Holds (d : Nat) (mem : Nat → α) (r w : Nat) (l : List α) : Prop where
  length_le : l.length ≤ d
  read_lt : r < d
  write_eq : w = slot d r l.length
  get : ∀ i, i < l.length → l[i]? = some (mem (slot d r i))

theorem Holds.write_lt (h : Holds d mem r w l) : w < d := by
  rw [h.write_eq]
  exact slot_lt h.read_lt h.length_le

theorem holds_nil (hd : 0 < d) : Holds d mem 0 0 [] := by
  refine ⟨Nat.zero_le _, hd, ?_, ?_⟩
  · exact (slot_zero hd).symm
  · intro i hi
    exact absurd hi (Nat.not_lt_zero i)

/-- Only the `d` cells matter. -/
theorem Holds.congr {mem' : Nat → α} (h : Holds d mem r w l)
    (hmem : ∀ a, a < d → mem' a = mem a) : Holds d mem' r w l := by
  refine ⟨h.length_le, h.read_lt, h.write_eq, ?_⟩
  intro i hi
  have hlen := h.length_le
  rw [h.get i hi, hmem _ (slot_lt h.read_lt (by omega))]

/-- The cell at the read index is the head of the list. -/
theorem Holds.head (h : Holds d mem r w l) (hne : l ≠ []) :
    l = mem r :: l.tail := by
  cases l with
  | nil => exact absurd rfl hne
  | cons x xs =>
      have hx := h.get 0 (by simp)
      rw [slot_zero h.read_lt] at hx
      simp only [List.getElem?_cons_zero, Option.some.injEq] at hx
      rw [hx, List.tail_cons]

/-- A write to the write index appends. -/
theorem Holds.push (h : Holds d mem r w l) (hlt : l.length < d) (x : α) :
    Holds d (fun a => if a = w then x else mem a) r (advance d w) (l ++ [x]) := by
  refine ⟨by simp; omega, h.read_lt, ?_, ?_⟩
  · rw [h.write_eq, advance_slot h.read_lt hlt, List.length_append]
    rfl
  · intro i hi
    rw [List.length_append, List.length_singleton] at hi
    rcases Nat.lt_or_eq_of_le (Nat.le_of_lt_succ hi) with hlt' | rfl
    · have hne : slot d r i ≠ w := by
        intro heq
        rw [h.write_eq] at heq
        have := slot_inj (by omega) hlt heq
        omega
      rw [List.getElem?_append_left hlt', h.get i hlt', if_neg hne]
    · rw [h.write_eq, if_pos rfl]
      simp

/-- Moving the read index drops the head. -/
theorem Holds.pop (h : Holds d mem r w l) (hne : l ≠ []) :
    Holds d mem (advance d r) w l.tail := by
  have hpos : 0 < l.length := List.length_pos_iff.mpr hne
  have hlen := h.length_le
  refine ⟨by rw [List.length_tail]; omega, advance_lt h.read_lt, ?_, ?_⟩
  · rw [List.length_tail, slot_advance h.read_lt (by omega), h.write_eq,
      Nat.sub_add_cancel hpos]
  · intro i hi
    rw [List.length_tail] at hi
    rw [List.getElem?_tail, h.get (i + 1) (by omega), slot_advance h.read_lt (by omega)]

/-- What a step does to the length. -/
theorem length_next (d : Nat) (l : List α) (wr : Option α) (rd : Bool) :
    (next d l wr rd).length =
      l.length - rd.toNat + (if l.length = d then 0 else wr.isSome.toNat) := by
  rw [next, List.length_append]
  congr 1
  · cases rd <;> simp
  · split
    · rfl
    · cases wr <;> rfl

/-- The number of stored elements is the distance of the indices, except that
a full queue has its indices together. -/
theorem Holds.length_eq (h : Holds d mem r w l) :
    l.length = if l.length = d then d else (w + d - r) % d := by
  have hlen := h.length_le
  have hread := h.read_lt
  by_cases hfull : l.length = d
  · rw [if_pos hfull, hfull]
  · rw [if_neg hfull, h.write_eq, slot]
    by_cases hwrap : r + l.length < d
    · rw [if_pos hwrap, show r + l.length + d - r = l.length + d by omega,
        Nat.add_mod_right, Nat.mod_eq_of_lt (by omega)]
    · rw [if_neg hwrap, show r + l.length - d + d - r = l.length by omega,
        Nat.mod_eq_of_lt (by omega)]

theorem length_next_le (hl : l.length ≤ d) (wr : Option α) (rd : Bool) :
    (next d l wr rd).length ≤ d := by
  rw [length_next]
  by_cases hfull : l.length = d
  · rw [if_pos hfull]
    omega
  · rw [if_neg hfull]
    cases wr <;> cases rd <;> simp <;> omega

/-- A queue of at most `d` elements, oldest first. -/
structure Queue (d : Nat) (α : Type u) where
  items : List α
  length_le : items.length ≤ d

/-- The empty queue. -/
def Queue.nil (d : Nat) (α : Type u) : Queue d α where
  items := []
  length_le := Nat.zero_le d

/-- One step with an optional write and a read request. -/
def Queue.next (q : Queue d α) (wr : Option α) (rd : Bool) : Queue d α where
  items := Ring.next d q.items wr rd
  length_le := length_next_le q.length_le wr rd

/-- A queue that holds all but the first `m` of the words written so far, and
neither overflows nor underflows, goes on doing so. -/
theorem next_drop {d m : Nat} {ws : List α} {wr : Option α} {rd : Bool}
    (hm : m ≤ ws.length) (hwr : wr.isSome = true → ws.length - m ≠ d)
    (hrd : rd = true → m < ws.length) :
    next d (ws.drop m) wr rd = (ws ++ wr.toList).drop (m + rd.toNat) := by
  have hwrite : (if (ws.drop m).length = d then [] else wr.toList) = wr.toList := by
    cases wr with
    | none => simp
    | some x => rw [List.length_drop, if_neg (hwr rfl)]
  have hread : (if rd then (ws.drop m).tail else ws.drop m) = ws.drop (m + rd.toNat) := by
    cases rd <;> simp
  have hle : m + rd.toNat ≤ ws.length := by
    cases hr : rd with
    | false => simpa using hm
    | true => exact hrd hr
  rw [next, hwrite, hread, List.drop_append_of_le_length hle]

/-- The same for the whole queue. -/
theorem next_eq_drop {d : Nat} {l : List α} {wr : Option α} {rd : Bool}
    (hwr : wr.isSome = true → l.length ≠ d) (hrd : rd = true → 0 < l.length) :
    next d l wr rd = (l ++ wr.toList).drop rd.toNat := by
  have h := next_drop (d := d) (Nat.zero_le l.length) hwr hrd
  rw [List.drop_zero, Nat.zero_add] at h
  exact h

end Ring
end Lib
end VideoProcessing
