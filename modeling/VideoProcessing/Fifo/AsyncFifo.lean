import Mathlib.Data.List.Infix
import VideoProcessing.Lib.Run
import VideoProcessing.Lib.Counter

/-!
# `async_fifo`: the simulation model

Two binary pointers of `ADDR_WIDTH + 1` bits, each read by the other clock
without a synchroniser.  The test for room compares the difference of the
pointers with the 32-bit constant `DEPTH`: the pointers are extended to the width
of the comparison *before* they are subtracted, so once the write pointer has
wrapped and the read pointer has not, the difference is negative there and the
write is refused.  `wr_used` is the difference without its top bit.

`Holds` is the invariant over the accepted writes and reads; `behaves_iff` says
in which runs the module is the bounded queue that it is meant to be.
-/

namespace VideoProcessing

open Lib

/-- The registers of `async_fifo`, with `DATA_WIDTH` and `ADDR_WIDTH`. -/
structure AsyncFifo (dw aw : Nat) where
  mem : BitVec aw → BitVec dw
  wrPtr : BitVec (aw + 1)
  rdPtr : BitVec (aw + 1)

namespace AsyncFifo

variable {dw aw : Nat}

/-- After both resets: the memory is not reset. -/
def reset (mem0 : BitVec aw → BitVec dw) : AsyncFifo dw aw where
  mem := mem0
  wrPtr := 0
  rdPtr := 0

/-- `DEPTH = 1 << ADDR_WIDTH`, a 32-bit constant. -/
def depth (aw : Nat) : BitVec 32 := 1#32 <<< aw

/-- The width of `wr_ptr - rd_ptr < DEPTH`: that of its widest operand. -/
def cmpWidth (aw : Nat) : Nat := max 32 (aw + 1)

/-- `wr_ptr - rd_ptr < DEPTH`, unsigned in the width of the comparison. -/
def room (f : AsyncFifo dw aw) : Bool :=
  f.wrPtr.setWidth (cmpWidth aw) - f.rdPtr.setWidth (cmpWidth aw) <
    (depth aw).setWidth (cmpWidth aw)

/-- `rd_empty`. -/
def rdEmpty (f : AsyncFifo dw aw) : Bool := f.wrPtr == f.rdPtr

/-- `rd_data`. -/
def rdData (f : AsyncFifo dw aw) : BitVec dw := f.mem (f.rdPtr.setWidth aw)

/-- `wr_used`, one bit narrower than the difference. -/
def wrUsed (f : AsyncFifo dw aw) : BitVec aw := (f.wrPtr - f.rdPtr).setWidth aw

/-- One `wr_clk` edge. -/
def wrEdge (f : AsyncFifo dw aw) (wrEn : Bool) (wrData : BitVec dw) : AsyncFifo dw aw :=
  if wrEn && f.room then
    { f with
      mem := fun a => if a = f.wrPtr.setWidth aw then wrData else f.mem a
      wrPtr := f.wrPtr + 1 }
  else f

/-- One `rd_clk` edge. -/
def rdEdge (f : AsyncFifo dw aw) (rdEn : Bool) : AsyncFifo dw aw :=
  if rdEn && f.wrPtr != f.rdPtr then { f with rdPtr := f.rdPtr + 1 } else f

/-- An edge of one clock, or of both at the same instant. -/
inductive Edge (dw : Nat)
  | wrclk (wrEn : Bool) (wrData : BitVec dw)
  | rdclk (rdEn : Bool)
  | both (wrEn : Bool) (wrData : BitVec dw) (rdEn : Bool)

/-- One event; at a common instant both blocks see the registers as they were. -/
def step (f : AsyncFifo dw aw) : Edge dw → AsyncFifo dw aw
  | .wrclk wrEn wrData => f.wrEdge wrEn wrData
  | .rdclk rdEn => f.rdEdge rdEn
  | .both wrEn wrData rdEn =>
      { f.wrEdge wrEn wrData with rdPtr := (f.rdEdge rdEn).rdPtr }

/-- The word whose write is requested. -/
def Edge.wrReq : Edge dw → Option (BitVec dw)
  | .wrclk wrEn wrData => if wrEn then some wrData else none
  | .rdclk _ => none
  | .both wrEn wrData _ => if wrEn then some wrData else none

/-- A read is requested. -/
def Edge.rdReq : Edge dw → Bool
  | .wrclk _ _ => false
  | .rdclk rdEn => rdEn
  | .both _ _ rdEn => rdEn

/-- The word written in an event. -/
def acceptedWrite (f : AsyncFifo dw aw) (e : Edge dw) : Option (BitVec dw) :=
  if f.room then e.wrReq else none

/-- The word read in an event. -/
def acceptedRead (f : AsyncFifo dw aw) (e : Edge dw) : Option (BitVec dw) :=
  if e.rdReq && f.wrPtr != f.rdPtr then some f.rdData else none

/-- What an event does to the registers. -/
theorem step_eq (f : AsyncFifo dw aw) (e : Edge dw) :
    (∀ a, (f.step e).mem a =
      if a = f.wrPtr.setWidth aw then (acceptedWrite f e).getD (f.mem a) else f.mem a) ∧
    (f.step e).wrPtr = (if (acceptedWrite f e).isSome then f.wrPtr + 1 else f.wrPtr) ∧
    (f.step e).rdPtr = (if (acceptedRead f e).isSome then f.rdPtr + 1 else f.rdPtr) := by
  rcases Bool.eq_false_or_eq_true f.room with hr | hr <;> by_cases hne : f.wrPtr = f.rdPtr <;>
    cases e with
  | wrclk wrEn wrData =>
      cases wrEn <;> simp [step, wrEdge, acceptedWrite, acceptedRead, Edge.wrReq, Edge.rdReq, hr]
  | rdclk rdEn =>
      cases rdEn <;>
        simp [step, rdEdge, acceptedWrite, acceptedRead, Edge.wrReq, Edge.rdReq, hr, hne]
  | both wrEn wrData rdEn =>
      cases wrEn <;> cases rdEn <;>
        simp [step, wrEdge, rdEdge, acceptedWrite, acceptedRead, Edge.wrReq, Edge.rdReq,
          hr, hne]

/-- The accepted writes `ws` and reads `rs` of a run account for the registers. -/
structure Holds (f : AsyncFifo dw aw) (ws rs : List (BitVec dw)) : Prop where
  wr : f.wrPtr = BitVec.ofNat (aw + 1) ws.length
  rd : f.rdPtr = BitVec.ofNat (aw + 1) rs.length
  le : rs.length ≤ ws.length
  cap : ws.length ≤ rs.length + 2 ^ aw
  mem : ∀ k, rs.length ≤ k → k < ws.length → ws[k]? = some (f.mem (BitVec.ofNat aw k))
  order : rs <+: ws

variable {f : AsyncFifo dw aw} {ws rs : List (BitVec dw)}

theorem holds_reset (mem0 : BitVec aw → BitVec dw) : Holds (reset mem0) [] [] where
  wr := rfl
  rd := rfl
  le := Nat.le_refl _
  cap := Nat.zero_le _
  mem := fun k _ hk => absurd hk (by simp)
  order := List.prefix_refl _

theorem two_pow_succ : 2 ^ (aw + 1) = 2 * 2 ^ aw := by rw [Nat.pow_succ, Nat.mul_comm]

/-- The difference of the pointers is the number of stored words. -/
theorem Holds.sub_eq (h : Holds f ws rs) :
    f.wrPtr - f.rdPtr = BitVec.ofNat (aw + 1) (ws.length - rs.length) := by
  rw [h.wr, h.rd, Counter.ofNat_sub_ofNat h.le]

theorem Holds.sub_toNat (h : Holds f ws rs) :
    (f.wrPtr - f.rdPtr).toNat = ws.length - rs.length := by
  have hcap := h.cap
  have hpos : 0 < 2 ^ aw := Nat.two_pow_pos aw
  rw [h.sub_eq, Counter.toNat_ofNat_of_lt (by rw [two_pow_succ]; omega)]

theorem Holds.rdEmpty_iff (h : Holds f ws rs) :
    f.rdEmpty = true ↔ ws.length - rs.length = 0 := by
  have hle := h.le
  have hcap := h.cap
  have hpos : 0 < 2 ^ aw := Nat.two_pow_pos aw
  rw [rdEmpty, beq_iff_eq, h.wr, h.rd, eq_comm,
    Counter.ofNat_eq_iff hle (by rw [two_pow_succ]; omega)]
  omega

theorem Holds.rdData (h : Holds f ws rs) (hpos : 0 < ws.length - rs.length) :
    ws[rs.length]? = some f.rdData := by
  rw [h.mem rs.length (Nat.le_refl _) (by omega), AsyncFifo.rdData, h.rd,
    Counter.setWidth_ofNat (Nat.le_succ aw)]

theorem Holds.wrUsed_toNat (h : Holds f ws rs) :
    f.wrUsed.toNat = (ws.length - rs.length) % 2 ^ aw := by
  rw [wrUsed, BitVec.toNat_setWidth, h.sub_toNat]

/-- The write pointer has not wrapped past the read pointer, or it has just the
width of the comparison. -/
def Ahead (f : AsyncFifo dw aw) : Prop :=
  aw < 31 ∧ f.rdPtr ≤ f.wrPtr ∨ aw = 31

/-- When the test finds room: the pointers are narrower than the comparison, or have its
width, or are so wide that the constant has overflowed to 0. -/
theorem Holds.room_iff (h : Holds f ws rs) :
    f.room = true ↔ ws.length - rs.length < 2 ^ aw ∧ f.Ahead := by
  have hsub := h.sub_toNat
  have hw := f.wrPtr.isLt
  have hr := f.rdPtr.isLt
  have hpow : 2 ^ (aw + 1) = 2 * 2 ^ aw := two_pow_succ
  have hpos : 0 < 2 ^ aw := Nat.two_pow_pos aw
  have hdepth : (depth aw).toNat = 2 ^ aw % 2 ^ 32 := by
    rw [depth, BitVec.toNat_shiftLeft, Nat.shiftLeft_eq, BitVec.toNat_ofNat]
    simp
  rw [BitVec.toNat_sub] at hsub
  rw [room, decide_eq_true_eq, BitVec.lt_def, BitVec.toNat_sub, BitVec.toNat_setWidth,
    BitVec.toNat_setWidth, BitVec.toNat_setWidth, hdepth, Ahead, BitVec.le_def]
  rcases Nat.lt_trichotomy aw 31 with hlt | heq | hgt
  · have hwidth : cmpWidth aw = 32 := by unfold cmpWidth; omega
    have hsmall : 2 ^ (aw + 1) ≤ 2 ^ 31 := Nat.pow_le_pow_right (by decide) (by omega)
    rw [hwidth, Nat.mod_eq_of_lt (a := f.wrPtr.toNat) (by omega),
      Nat.mod_eq_of_lt (a := f.rdPtr.toNat) (by omega), Nat.mod_mod,
      Nat.mod_eq_of_lt (a := 2 ^ aw) (by omega)]
    by_cases hle : f.rdPtr.toNat ≤ f.wrPtr.toNat
    · have h1 : 2 ^ (aw + 1) - f.rdPtr.toNat + f.wrPtr.toNat =
          f.wrPtr.toNat - f.rdPtr.toNat + 2 ^ (aw + 1) := by omega
      have h2 : 2 ^ 32 - f.rdPtr.toNat + f.wrPtr.toNat =
          f.wrPtr.toNat - f.rdPtr.toNat + 2 ^ 32 := by omega
      rw [h1, Nat.add_mod_right, Nat.mod_eq_of_lt (by omega)] at hsub
      rw [h2, Nat.add_mod_right, Nat.mod_eq_of_lt (by omega), hsub]
      omega
    · rw [Nat.mod_eq_of_lt (by omega)]
      omega
  · subst heq
    have hwidth : cmpWidth 31 = 32 := by decide
    rw [hwidth, Nat.mod_eq_of_lt (a := f.wrPtr.toNat) hw,
      Nat.mod_eq_of_lt (a := f.rdPtr.toNat) hr, hsub]
    omega
  · have hzero : 2 ^ aw % 2 ^ 32 = 0 :=
      Nat.mod_eq_zero_of_dvd (Nat.pow_dvd_pow 2 (by omega))
    rw [hzero, Nat.zero_mod]
    omega

/-- A read is accepted when words are stored. -/
theorem Holds.acceptedRead_isSome (h : Holds f ws rs) (e : Edge dw) :
    (acceptedRead f e).isSome = true ↔ e.rdReq = true ∧ 0 < ws.length - rs.length := by
  have hempty := h.rdEmpty_iff
  rw [rdEmpty, beq_iff_eq] at hempty
  rw [acceptedRead]
  cases hr : e.rdReq with
  | false => simp
  | true =>
      by_cases heq : f.wrPtr = f.rdPtr
      · have := hempty.1 heq
        simp [heq]
        omega
      · have : ws.length - rs.length ≠ 0 := fun h0 => heq (hempty.2 h0)
        have hne : (f.wrPtr != f.rdPtr) = true := by simpa using heq
        simp [hne]
        omega

theorem Holds.acceptedRead_eq (h : Holds f ws rs) {e : Edge dw} {d : BitVec dw}
    (hd : acceptedRead f e = some d) : ws[rs.length]? = some d := by
  have hpos := ((h.acceptedRead_isSome e).1 (by rw [hd]; rfl)).2
  rw [h.rdData hpos, ← hd, acceptedRead]
  cases hr : (e.rdReq && f.wrPtr != f.rdPtr) with
  | true => rfl
  | false =>
      rw [acceptedRead, hr] at hd
      exact absurd hd (by simp)

/-- An accepted write found a free slot. -/
theorem Holds.lt_of_accepted (h : Holds f ws rs) (e : Edge dw)
    (hacc : (acceptedWrite f e).isSome = true) : ws.length - rs.length < 2 ^ aw := by
  rw [acceptedWrite] at hacc
  cases hr : f.room with
  | false =>
      rw [hr] at hacc
      exact absurd hacc (by simp)
  | true => exact (h.room_iff.1 hr).1

/-- The memory after an event: the older words keep their slots. -/
theorem Holds.mem_next (h : Holds f ws rs) (e : Edge dw) {k : Nat} (hk : rs.length ≤ k)
    (hlt : k < (ws ++ (acceptedWrite f e).toList).length) :
    (ws ++ (acceptedWrite f e).toList)[k]? =
      some ((f.step e).mem (BitVec.ofNat aw k)) := by
  have hcap := h.cap
  have hpos : 0 < 2 ^ aw := Nat.two_pow_pos aw
  rw [List.length_append] at hlt
  rw [(step_eq f e).1, h.wr, Counter.setWidth_ofNat (Nat.le_succ aw)]
  rcases Nat.lt_or_ge k ws.length with hold | hnew
  · have hslot : BitVec.ofNat aw k ≠ BitVec.ofNat aw ws.length ∨
        acceptedWrite f e = none := by
      cases hw : acceptedWrite f e with
      | none => exact Or.inr rfl
      | some d =>
          left
          have hfree := h.lt_of_accepted e (by rw [hw]; rfl)
          rw [ne_eq, Counter.ofNat_eq_iff (by omega) (by omega)]
          omega
    rw [List.getElem?_append_left hold, h.mem k hk hold]
    rcases hslot with hne | hnone
    · rw [if_neg hne]
    · rw [hnone, Option.getD_none, ite_self]
  · cases hw : acceptedWrite f e with
    | none =>
        rw [hw] at hlt
        simp only [Option.toList_none, List.length_nil] at hlt
        omega
    | some d =>
        rw [hw] at hlt
        have hk' : k = ws.length := by
          simp only [Option.toList_some, List.length_singleton] at hlt
          omega
        rw [hk', if_pos rfl]
        simp

/-- An accepted read returns the next of the accepted writes. -/
theorem Holds.order_next (h : Holds f ws rs) (e : Edge dw) :
    rs ++ (acceptedRead f e).toList <+: ws ++ (acceptedWrite f e).toList := by
  cases hr : acceptedRead f e with
  | none =>
      rw [Option.toList_none, List.append_nil]
      exact h.order.trans (List.prefix_append _ _)
  | some d =>
      obtain ⟨tl, rfl⟩ := h.order
      have hget := h.acceptedRead_eq hr
      rw [List.getElem?_append_right (Nat.le_refl _), Nat.sub_self] at hget
      cases tl with
      | nil => exact absurd hget (by simp)
      | cons x tl =>
          obtain rfl : x = d := by simpa using hget
          exact ⟨tl ++ (acceptedWrite f e).toList, by simp⟩

theorem Holds.next (h : Holds f ws rs) (e : Edge dw) :
    Holds (f.step e) (ws ++ (acceptedWrite f e).toList) (rs ++ (acceptedRead f e).toList) := by
  obtain ⟨-, hwr, hrd⟩ := step_eq f e
  have hle := h.le
  have hcap := h.cap
  have hread := h.acceptedRead_isSome e
  have hfree := h.lt_of_accepted e
  have hwlen : (acceptedWrite f e).toList.length = (acceptedWrite f e).isSome.toNat := by
    cases acceptedWrite f e <;> rfl
  have hrlen : (acceptedRead f e).toList.length = (acceptedRead f e).isSome.toNat := by
    cases acceptedRead f e <;> rfl
  refine ⟨?_, ?_, ?_, ?_, ?_, h.order_next e⟩
  · rw [hwr, List.length_append, hwlen]
    cases (acceptedWrite f e).isSome with
    | false => exact h.wr
    | true =>
        rw [if_pos rfl, h.wr]
        exact (Counter.ofNat_succ _).symm
  · rw [hrd, List.length_append, hrlen]
    cases (acceptedRead f e).isSome with
    | false => exact h.rd
    | true =>
        rw [if_pos rfl, h.rd]
        exact (Counter.ofNat_succ _).symm
  · rw [List.length_append, List.length_append, hrlen]
    cases hs : (acceptedRead f e).isSome with
    | false => simp only [Bool.toNat_false]; omega
    | true =>
        have hstored := (hread.1 hs).2
        simp only [Bool.toNat_true]
        omega
  · rw [List.length_append, List.length_append, hwlen]
    cases hs : (acceptedWrite f e).isSome with
    | false => simp only [Bool.toNat_false]; omega
    | true =>
        have hslot := hfree hs
        simp only [Bool.toNat_true]
        omega
  · intro k hk hlt
    rw [List.length_append] at hk
    exact h.mem_next e (by omega) hlt

section Runs

/-- The FIFO after the events `es` from reset. -/
def after (mem0 : BitVec aw → BitVec dw) (es : List (Edge dw)) : AsyncFifo dw aw :=
  run step (reset mem0) es

/-- The accepted writes of a run, oldest first. -/
def writes (l : List (AsyncFifo dw aw × Edge dw)) : List (BitVec dw) :=
  l.filterMap fun p => acceptedWrite p.1 p.2

/-- The words returned by the accepted reads of a run, oldest first. -/
def reads (l : List (AsyncFifo dw aw × Edge dw)) : List (BitVec dw) :=
  l.filterMap fun p => acceptedRead p.1 p.2

/-- The outputs of a bounded queue of `2 ^ ADDR_WIDTH` words after the writes `ws`
and the reads `rs`. -/
structure Shows (f : AsyncFifo dw aw) (ws rs : List (BitVec dw)) : Prop where
  empty : f.rdEmpty = true ↔ ws.length - rs.length = 0
  head : 0 < ws.length - rs.length → ws[rs.length]? = some f.rdData
  used : min (ws.length - rs.length) (2 ^ aw - 1) ≤ f.wrUsed.toNat
  order : rs <+: ws

/-- A request is accepted exactly when the bounded queue accepts it. -/
structure Serves (f : AsyncFifo dw aw) (ws rs : List (BitVec dw)) (e : Edge dw) : Prop where
  write : ∀ d, e.wrReq = some d →
    (acceptedWrite f e = some d ↔ ws.length - rs.length < 2 ^ aw)
  read : e.rdReq = true → ((acceptedRead f e).isSome = true ↔ 0 < ws.length - rs.length)

/-- In the run `es` the FIFO is a bounded queue: every state reached shows it,
and every event is served as by it. -/
def Behaves (mem0 : BitVec aw → BitVec dw) (es : List (Edge dw)) : Prop :=
  (∀ js, js <+: es → Shows (after mem0 js) (writes (log step (reset mem0) js))
    (reads (log step (reset mem0) js))) ∧
  ∀ js e, js ++ [e] <+: es → Serves (after mem0 js) (writes (log step (reset mem0) js))
    (reads (log step (reset mem0) js)) e

theorem holds_after (mem0 : BitVec aw → BitVec dw) (es : List (Edge dw)) :
    Holds (after mem0 es) (writes (log step (reset mem0) es))
      (reads (log step (reset mem0) es)) := by
  refine log_invariant (P := fun f l => Holds f (writes l) (reads l)) (holds_reset mem0) ?_ es
  intro f l e h
  have hw : writes (l ++ [(f, e)]) = writes l ++ (acceptedWrite f e).toList := by
    rw [writes, List.filterMap_append]
    cases hacc : acceptedWrite f e <;> simp [writes, hacc]
  have hr : reads (l ++ [(f, e)]) = reads l ++ (acceptedRead f e).toList := by
    rw [reads, List.filterMap_append]
    cases hacc : acceptedRead f e <;> simp [reads, hacc]
  rw [hw, hr]
  exact h.next e

/-- A state shows the queue when it is not full. -/
theorem Holds.shows_iff (h : Holds f ws rs) (haw : 1 ≤ aw) :
    Shows f ws rs ↔ (f.wrPtr - f.rdPtr).toNat < 2 ^ aw := by
  have hcap := h.cap
  have htwo : 2 ≤ 2 ^ aw := by
    have := Nat.pow_le_pow_right (n := 2) (by decide) haw
    omega
  rw [h.sub_toNat]
  constructor
  · intro hs
    have hused := hs.used
    rw [h.wrUsed_toNat] at hused
    by_contra hfull
    have heq : ws.length - rs.length = 2 ^ aw := by omega
    rw [heq, Nat.mod_self] at hused
    omega
  · intro hlt
    refine ⟨h.rdEmpty_iff, h.rdData, ?_, h.order⟩
    rw [h.wrUsed_toNat, Nat.mod_eq_of_lt hlt]
    omega

/-- A write request is served when the FIFO is full or the test is right. -/
theorem Holds.serves_iff (h : Holds f ws rs) (hlt : (f.wrPtr - f.rdPtr).toNat < 2 ^ aw)
    (e : Edge dw) : Serves f ws rs e ↔ (e.wrReq.isSome = true → f.Ahead) := by
  rw [h.sub_toNat] at hlt
  have hroom := h.room_iff
  constructor
  · intro hs hreq
    obtain ⟨d, hd⟩ := Option.isSome_iff_exists.1 hreq
    have hacc := (hs.write d hd).2 hlt
    rw [acceptedWrite] at hacc
    cases hr : f.room with
    | true => exact (hroom.1 hr).2
    | false =>
        rw [hr] at hacc
        exact absurd hacc (by simp)
  · intro hahead
    refine ⟨fun d hd => ?_, fun hreq => ?_⟩
    · have hr : f.room = true := hroom.2 ⟨hlt, hahead (by rw [hd]; rfl)⟩
      rw [acceptedWrite, hr, if_pos rfl, hd]
      exact ⟨fun _ => hlt, fun _ => rfl⟩
    · rw [h.acceptedRead_isSome, hreq]
      simp

/-- **When `async_fifo` is a bounded queue.**  For every width, every
interleaving of the two clocks from reset and every sequence of requests: the
FIFO behaves as the queue of `2 ^ ADDR_WIDTH` words if and only if the difference
of the pointers stays below that number in every state, and no write is requested
while the write pointer has wrapped and the read pointer has not. -/
theorem behaves_iff (haw : 1 ≤ aw) (mem0 : BitVec aw → BitVec dw) (es : List (Edge dw)) :
    Behaves mem0 es ↔
      (∀ js, js <+: es → ((after mem0 js).wrPtr - (after mem0 js).rdPtr).toNat < 2 ^ aw) ∧
      ∀ js e, js ++ [e] <+: es → e.wrReq.isSome = true → (after mem0 js).Ahead := by
  have hshows : (∀ js, js <+: es → Shows (after mem0 js) (writes (log step (reset mem0) js))
      (reads (log step (reset mem0) js))) ↔
      ∀ js, js <+: es → ((after mem0 js).wrPtr - (after mem0 js).rdPtr).toNat < 2 ^ aw :=
    forall_congr' fun js => imp_congr_right fun _ => (holds_after mem0 js).shows_iff haw
  rw [Behaves, hshows]
  refine and_congr_right fun hlt => ?_
  refine forall_congr' fun js => forall_congr' fun e => imp_congr_right fun hjs => ?_
  exact (holds_after mem0 js).serves_iff (hlt js ((List.prefix_append js [e]).trans hjs)) e

/-- Two words through a FIFO of four words. -/
def twoWords : List (Edge 8) := [.wrclk true 5, .both true 6 true, .rdclk true]

theorem behaves_two_words : 1 ≤ 2 ∧ Behaves (fun _ : BitVec 2 => 0) twoWords := by
  have hshort : ∀ js, js ∈ twoWords.inits →
      ((after (fun _ : BitVec 2 => 0) js).wrPtr - (after (fun _ => 0) js).rdPtr).toNat < 2 ^ 2 ∧
        (after (fun _ : BitVec 2 => 0) js).rdPtr ≤ (after (fun _ => 0) js).wrPtr := by decide
  refine ⟨by decide, (behaves_iff (by decide) _ _).2 ⟨?_, ?_⟩⟩
  · intro js hjs
    exact (hshort js ((List.mem_inits _ _).2 hjs)).1
  · intro js e hjs _
    have hpre : js <+: twoWords := (List.prefix_append js [e]).trans hjs
    exact Or.inl ⟨by decide, (hshort js ((List.mem_inits _ _).2 hpre)).2⟩

/-- A FIFO of two words after three words have passed and a fourth is stored: the
write pointer is back at `0`, the read pointer is still at `3`. -/
def wrapped : List (Edge 8) :=
  [.wrclk true 1, .rdclk true, .wrclk true 2, .rdclk true, .wrclk true 3, .rdclk true,
    .wrclk true 4]

/-- One word is stored and one more has room, but its write is refused. -/
theorem write_refused :
    ¬ Behaves (fun _ : BitVec 1 => 0) (wrapped ++ [.wrclk true 5]) := by
  intro h
  have hwrite := (h.2 wrapped (.wrclk true 5) (List.prefix_refl _)).write 5 rfl
  exact absurd (hwrite.2 (by decide)) (by decide)

end Runs

end AsyncFifo
end VideoProcessing
