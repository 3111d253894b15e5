import VideoProcessing.Lib.Ring
import VideoProcessing.Lib.Run

/-!
# `simple_fifo`: a bounded first-word-fall-through queue

The single-clock FIFO of the burst engines: a circular buffer with a write
pointer, a read pointer and a usage counter.  `Holds f l` says that the FIFO
stores the list `l`, oldest word first; `Holds.step` is the refinement: one
clock edge does to `l` what `Ring.next` says.
-/

namespace VideoProcessing

open Lib

/-- `$clog2`: the bits of an index below `n`. -/
def clog2 (n : Nat) : Nat :=
  if n ≤ 1 then 0 else Nat.log2 (n - 1) + 1

theorem le_two_pow_clog2 (n : Nat) : n ≤ 2 ^ clog2 n := by
  unfold clog2
  split
  · next h => simpa using h
  · next h =>
      have : n - 1 < 2 ^ ((n - 1).log2 + 1) := Nat.lt_log2_self
      omega

/-- The registers of `simple_fifo` with `DATA_WIDTH` and `FIFO_DEPTH`. -/
structure SimpleFifo (dw depth : Nat) where
  mem : BitVec (clog2 depth) → BitVec dw
  wrPtr : BitVec (clog2 depth)
  rdPtr : BitVec (clog2 depth)
  usedW : BitVec (clog2 depth + 1)

namespace SimpleFifo

variable {dw depth : Nat}

/-- `rst_n` low: the memory is not reset. -/
def reset (mem0 : BitVec (clog2 depth) → BitVec dw) : SimpleFifo dw depth where
  mem := mem0
  wrPtr := 0
  rdPtr := 0
  usedW := 0

/-- `full`. -/
def full (f : SimpleFifo dw depth) : Bool := f.usedW.toNat == depth

/-- `empty`. -/
def empty (f : SimpleFifo dw depth) : Bool := f.usedW == 0

/-- `rd_data`, always the word at the read pointer. -/
def rdData (f : SimpleFifo dw depth) : BitVec dw := f.mem f.rdPtr

/-- The pointer after `p`, with the wrap at `FIFO_DEPTH - 1`. -/
def ptrNext (depth : Nat) (p : BitVec (clog2 depth)) : BitVec (clog2 depth) :=
  if p.toNat = depth - 1 then 0 else p + 1

/-- One `clk` edge. -/
def step (f : SimpleFifo dw depth) (wrEn : Bool) (wrData : BitVec dw) (rdEn : Bool) :
    SimpleFifo dw depth where
  mem :=
    if wrEn && !f.full then fun a => if a = f.wrPtr then wrData else f.mem a
    else f.mem
  wrPtr := if wrEn && !f.full then ptrNext depth f.wrPtr else f.wrPtr
  rdPtr := if rdEn && !f.empty then ptrNext depth f.rdPtr else f.rdPtr
  usedW :=
    if wrEn && !f.full && (!rdEn || f.empty) then f.usedW + 1
    else if rdEn && !f.empty && (!wrEn || f.full) then f.usedW - 1
    else f.usedW

/-- The FIFO stores the list `l`, oldest word first. -/
structure Holds (f : SimpleFifo dw depth) (l : List (BitVec dw)) : Prop where
  used : f.usedW.toNat = l.length
  ring : Ring.Holds depth (fun a => f.mem (BitVec.ofNat _ a)) f.rdPtr.toNat f.wrPtr.toNat l

variable {f : SimpleFifo dw depth} {l : List (BitVec dw)}

theorem holds_reset (hd : 0 < depth) (mem0 : BitVec (clog2 depth) → BitVec dw) :
    Holds (reset mem0) [] :=
  ⟨rfl, Ring.holds_nil hd⟩

theorem Holds.length_le (h : Holds f l) : l.length ≤ depth := h.ring.length_le

theorem Holds.full_iff (h : Holds f l) : f.full = true ↔ l.length = depth := by
  rw [full, beq_iff_eq, h.used]

theorem Holds.empty_iff (h : Holds f l) : f.empty = true ↔ l.length = 0 := by
  rw [empty, beq_iff_eq, ← h.used]
  constructor
  · intro h0
    rw [h0]
    rfl
  · intro h0
    exact BitVec.eq_of_toNat_eq h0

/-- The usage counter as a 32-bit operand. -/
theorem Holds.usedW_setWidth (h : Holds f l) :
    f.usedW.setWidth 32 = BitVec.ofNat 32 l.length := by
  rw [← h.used, BitVec.ofNat_toNat]

/-- First word fall through: the output is the oldest word. -/
theorem Holds.rdData (h : Holds f l) (hne : l ≠ []) : l = f.rdData :: l.tail := by
  have hhead := h.ring.head hne
  simpa [SimpleFifo.rdData] using hhead

theorem toNat_ptrNext (p : BitVec (clog2 depth)) (hp : p.toNat < depth) :
    (ptrNext depth p).toNat = Ring.advance depth p.toNat := by
  have hle := le_two_pow_clog2 depth
  unfold ptrNext Ring.advance
  by_cases hlast : p.toNat = depth - 1
  · rw [if_pos hlast, if_pos hlast]
    rfl
  · have hone : (1 : BitVec (clog2 depth)).toNat = 1 % 2 ^ clog2 depth := rfl
    rw [if_neg hlast, if_neg hlast, BitVec.toNat_add, hone, Nat.add_mod_mod]
    exact Nat.mod_eq_of_lt (by omega)

section Usage

variable {n : Nat}

theorem toNat_one_clog2 : (1#(clog2 depth + 1)).toNat = 1 := by
  have hpow : 2 ^ (clog2 depth + 1) = 2 ^ clog2 depth * 2 := Nat.pow_succ 2 (clog2 depth)
  have hpos : 0 < 2 ^ clog2 depth := Nat.two_pow_pos _
  change 1 % 2 ^ (clog2 depth + 1) = 1
  exact Nat.mod_eq_of_lt (by omega)

theorem toNat_usedW_add_one (hn : f.usedW.toNat = n) (hlt : n < depth) :
    (f.usedW + 1#(clog2 depth + 1)).toNat = n + 1 := by
  have hpow : 2 ^ (clog2 depth + 1) = 2 ^ clog2 depth * 2 := Nat.pow_succ 2 (clog2 depth)
  have hle := le_two_pow_clog2 depth
  rw [BitVec.toNat_add_of_lt (by rw [toNat_one_clog2]; omega), toNat_one_clog2, hn]

theorem toNat_usedW_sub_one (hn : f.usedW.toNat = n) (hpos : 0 < n) :
    (f.usedW - 1#(clog2 depth + 1)).toNat = n - 1 := by
  have hlt := f.usedW.isLt
  rw [hn] at hlt
  rw [BitVec.toNat_sub, toNat_one_clog2, hn]
  rw [show 2 ^ (clog2 depth + 1) - 1 + n = n - 1 + 2 ^ (clog2 depth + 1) by omega,
    Nat.add_mod_right]
  exact Nat.mod_eq_of_lt (by omega)

end Usage

/-- What an accepted write and an accepted read do to the usage counter. -/
theorem Holds.used_step (h : Holds f l) (wrEn : Bool) (wrData : BitVec dw) (rdEn : Bool) :
    (f.step wrEn wrData rdEn).usedW.toNat =
      (Ring.next depth l (if wrEn then some wrData else none) rdEn).length := by
  have hused := h.used
  have hle := h.length_le
  have hfull := h.full_iff
  have hnil := h.empty_iff
  rw [Ring.length_next]
  cases hf : f.full <;> cases he : f.empty <;>
    simp only [hf, he, Bool.false_eq_true, false_iff, true_iff] at hfull hnil
  · have hinc := toNat_usedW_add_one hused (by omega)
    have hdec := toNat_usedW_sub_one hused (by omega)
    cases wrEn <;> cases rdEn <;>
      simp [-BitVec.toNat_add, -BitVec.toNat_sub, SimpleFifo.step, hf, he, hused, hinc,
        hdec, hfull]
    omega
  · have hinc := toNat_usedW_add_one hused (by omega)
    cases wrEn <;> cases rdEn <;>
      simp [-BitVec.toNat_add, SimpleFifo.step, hf, he, hused, hinc, hfull] <;> omega
  · have hdec := toNat_usedW_sub_one hused (by omega)
    cases wrEn <;> cases rdEn <;>
      simp [-BitVec.toNat_sub, SimpleFifo.step, hf, he, hused, hdec, hfull]
  · cases wrEn <;> cases rdEn <;>
      simp [SimpleFifo.step, hf, he, hused, hfull] <;> omega

/-- One clock edge does to the stored list what the abstract queue does.  The write leaves
the head in place, so it may be done first. -/
theorem Holds.step (h : Holds f l) (wrEn : Bool) (wrData : BitVec dw) (rdEn : Bool) :
    Holds (f.step wrEn wrData rdEn)
      (Ring.next depth l (if wrEn then some wrData else none) rdEn) := by
  refine ⟨h.used_step wrEn wrData rdEn, ?_⟩
  have hwlt := h.ring.write_lt
  have hrlt := h.ring.read_lt
  have hfull := h.full_iff
  have hnil := h.empty_iff
  have hwrite : Ring.Holds depth
      (fun a => (f.step wrEn wrData rdEn).mem (BitVec.ofNat _ a)) f.rdPtr.toNat
      (f.step wrEn wrData rdEn).wrPtr.toNat
      (l ++ if l.length = depth then [] else
        (if wrEn then some wrData else none).toList) := by
    cases hw : wrEn && !f.full with
    | false =>
        have hnone : (if l.length = depth then [] else
            (if wrEn then some wrData else none).toList) = [] := by
          cases wrEn
          · simp
          · rw [if_pos (hfull.1 (by simpa using hw))]
        rw [hnone, List.append_nil]
        simpa [SimpleFifo.step, hw] using h.ring
    | true =>
        obtain ⟨hen, hnf⟩ : wrEn = true ∧ f.full = false := by simpa using hw
        have hne : l.length ≠ depth := by
          intro heq
          rw [hfull.2 heq] at hnf
          exact absurd hnf (by decide)
        have hpush := h.ring.push (Nat.lt_of_le_of_ne h.length_le hne) wrData
        rw [if_neg hne, hen, if_pos rfl, Option.toList_some]
        simp only [SimpleFifo.step, hnf, Bool.true_and, Bool.not_false, if_true,
          toNat_ptrNext _ hwlt]
        apply hpush.congr
        intro a ha
        have haddr : (BitVec.ofNat (clog2 depth) a = f.wrPtr) ↔ a = f.wrPtr.toNat := by
          have hle := le_two_pow_clog2 depth
          rw [← BitVec.toNat_inj, BitVec.toNat_ofNat, Nat.mod_eq_of_lt (by omega)]
        simp only [haddr]
  have hread : (f.step wrEn wrData rdEn).rdPtr =
      if rdEn && !f.empty then ptrNext depth f.rdPtr else f.rdPtr := rfl
  rw [hread, Ring.next]
  cases hr : rdEn && !f.empty with
  | false =>
      have hsame : (if rdEn then l.tail else l) = l := by
        cases rdEn
        · rfl
        · have hnil' := hnil.1 (by simpa using hr)
          rw [List.eq_nil_of_length_eq_zero hnil']
          rfl
      rw [hsame]
      exact hwrite
  | true =>
      obtain ⟨hen, hne⟩ : rdEn = true ∧ f.empty = false := by simpa using hr
      have hl : l ≠ [] := by
        intro heq
        rw [hnil.2 (by rw [heq]; rfl)] at hne
        exact absurd hne (by decide)
      rw [if_pos hen, if_pos rfl, toNat_ptrNext _ hrlt, ← List.tail_append_of_ne_nil hl]
      exact hwrite.pop (by simp [hl])

end SimpleFifo
end VideoProcessing
