import VideoProcessing.Burst.Copy
import VideoProcessing.Burst.Padding

/-!
# The read engine and the room in its FIFO

The read master of `burst_master` counts the words in flight in `pending_reads`
and raises a command only when the FIFO has room behind them.  `ReadRoom` is this
invariant for any CSR writes at any time.  Only a completion can break it: it
clears `pending_reads` and sends the read master to `IDLE` whatever the read side
is doing, so it has to come when nothing is in flight (`Drained`).
-/

namespace VideoProcessing

open Lib

namespace ReadMaster

variable {P : BurstParams} {m : ReadMaster} {i : Inputs}

/-- The words of a command that waits on the bus. -/
def openWords (m : ReadMaster) : Nat :=
  if m.rmState = .read then m.rmBurstcount.toNat else 0

/-- The words of the command accepted in this cycle. -/
def acceptedWords (m : ReadMaster) (i : Inputs) : Nat :=
  if m.accepts i then m.rmBurstcount.toNat else 0

/-- The FSM raises a command of `ctrl_rd_burst` words or takes on no words. -/
theorem fsm_openWords (hread : m.rmRead = (m.rmState == .read)) :
    (m.fsm P i).rmRead = ((m.fsm P i).rmState == .read) ∧
      ((m.fsm P i).openWords + m.acceptedWords i ≤ m.openWords ∨
        (m.rmState = .waitFifo ∧ m.readRemainingLen > 0 ∧ m.room P i = true ∧
          (m.fsm P i).openWords = i.csr.ctrlRdBurst.toNat ∧ m.acceptedWords i = 0)) := by
  cases hs : m.rmState with
  | idle =>
      rw [hs] at hread
      rcases fsm_idle (P := P) (i := i) hs with ⟨_, he⟩ | ⟨_, he⟩ <;> rw [he]
      · exact ⟨hread, Or.inl (by simp [openWords, acceptedWords, accepts, hs])⟩
      · exact ⟨by rw [hread, hs], Or.inl (by simp [openWords, acceptedWords, accepts, hs])⟩
  | waitFifo =>
      rw [hs] at hread
      rcases fsm_waitFifo (P := P) (i := i) hs with ⟨hrem, hroom, he⟩ | ⟨_, he⟩ <;> rw [he]
      · exact ⟨rfl, Or.inr ⟨rfl, hrem, hroom, by simp [openWords],
          by simp [acceptedWords, accepts, hs]⟩⟩
      · exact ⟨by rw [hread, hs], Or.inl (by simp [openWords, acceptedWords, accepts, hs])⟩
  | read =>
      rw [hs] at hread
      rcases fsm_read (P := P) (i := i) hs with ⟨hw, he⟩ | ⟨hw, he⟩ <;> rw [he]
      · exact ⟨rfl, Or.inl (by simp [openWords, acceptedWords, accepts, hs, hw])⟩
      · exact ⟨by rw [hread, hs],
          Or.inl (by simp [openWords, acceptedWords, accepts, hs, hw])⟩

/-- A completion leaves no command on the bus when none is waiting or raised. -/
theorem fsm_rmRead_of_drained (hread : m.rmRead = (m.rmState == .read))
    (hwait : m.rmState = .read → i.rmWaitrequest = false)
    (hraise : m.rmState = .waitFifo → m.readRemainingLen > 0 → m.room P i = false) :
    (m.fsm P i).rmRead = false := by
  cases hs : m.rmState with
  | idle =>
      rw [hs] at hread
      rcases fsm_idle (P := P) (i := i) hs with ⟨_, he⟩ | ⟨_, he⟩ <;> rw [he] <;> exact hread
  | waitFifo =>
      rw [hs] at hread
      rcases fsm_waitFifo (P := P) (i := i) hs with ⟨hrem, hroom, _⟩ | ⟨_, he⟩
      · exact absurd (hroom.symm.trans (hraise hs hrem)) (by decide)
      · rw [he]
        exact hread
  | read =>
      rcases fsm_read (P := P) (i := i) hs with ⟨_, he⟩ | ⟨hw, _⟩
      · rw [he]
      · exact absurd (hw.symm.trans (hwait hs)) (by decide)

end ReadMaster

namespace BurstBus

/-- A completion finds the read side empty: the slave owes at most the word it
returns in this cycle, and no command is left waiting or being raised. -/
structure Drained (P : BurstParams) (s : BurstBus) (c : BurstCycle) (rdUsed : BitVec 32) :
    Prop where
  owed : (s.available c).length ≤ (s.returned c).isSome.toNat
  waiting : s.ctl.rm.rmState = .read → c.rmWaitrequest = false
  raised : s.ctl.rm.rmState = .waitFifo → s.ctl.rm.readRemainingLen > 0 →
    s.ctl.rm.room P (s.ctl.rmInputs (s.inputs c rdUsed rdUsed)) = false

instance (P : BurstParams) (s : BurstBus) (c : BurstCycle) (rdUsed : BitVec 32) :
    Decidable (Drained P s c rdUsed) :=
  decidable_of_iff
    ((s.available c).length ≤ (s.returned c).isSome.toNat ∧
      (s.ctl.rm.rmState = .read → c.rmWaitrequest = false) ∧
        (s.ctl.rm.rmState = .waitFifo → s.ctl.rm.readRemainingLen > 0 →
          s.ctl.rm.room P (s.ctl.rmInputs (s.inputs c rdUsed rdUsed)) = false))
    ⟨fun h => ⟨h.1, h.2.1, h.2.2⟩, fun h => ⟨h.owed, h.waiting, h.raised⟩⟩

/-- The read side has room for all words in flight when its FIFO stores `x`
words. -/
structure ReadRoom (P : BurstParams) (s : BurstBus) (x : Nat) : Prop where
  read : s.ctl.rm.rmRead = (s.ctl.rm.rmState == .read)
  pending : s.ctl.rm.pendingReads = BitVec.ofNat 32 s.mem.owed.length
  room : x + s.mem.owed.length + s.ctl.rm.openWords ≤ P.fifoDepth

theorem readRoom_reset (P : BurstParams) :
    ReadRoom P ⟨BurstControl.reset P, MemoryBus.init⟩ 0 :=
  ⟨rfl, rfl, Nat.zero_le _⟩

section Slave

variable (s : BurstBus) (c : BurstCycle)

/-- A returned word is one of those the slave can return. -/
theorem returned_le_available : (s.returned c).isSome.toNat ≤ (s.available c).length := by
  rw [returned]
  cases s.available c with
  | nil => simp
  | cons a l => cases c.ret <;> simp

theorem owed_memNext :
    (s.memNext c).owed.length = (s.available c).length - (s.returned c).isSome.toNat := by
  rw [memNext, List.length_drop]

end Slave

namespace ReadRoom

variable {P : BurstParams} {s : BurstBus} {c : BurstCycle} {x : Nat}
  {rdUsed wrUsed : BitVec 32}

/-- The words the slave can return are the owed ones and those of the command that
the read master sees accepted. -/
theorem available_length (h : ReadRoom P s x) (c : BurstCycle)
    (rdUsed wrUsed : BitVec 32) :
    (s.available c).length = s.mem.owed.length +
      s.ctl.rm.acceptedWords (s.ctl.rmInputs (s.inputs c rdUsed wrUsed)) := by
  have hwait : (s.ctl.rmInputs (s.inputs c rdUsed wrUsed)).rmWaitrequest =
      c.rmWaitrequest := rfl
  rw [available, accepted, h.read, ReadMaster.acceptedWords, ReadMaster.accepts, hwait]
  cases s.ctl.rm.rmState == .read && !c.rmWaitrequest <;> simp [wordsOf]

/-- The words of an accepted command were open. -/
theorem acceptedWords_le (rdUsed wrUsed : BitVec 32) :
    s.ctl.rm.acceptedWords (s.ctl.rmInputs (s.inputs c rdUsed wrUsed)) ≤
      s.ctl.rm.openWords := by
  rw [ReadMaster.acceptedWords, ReadMaster.accepts, ReadMaster.openWords]
  cases s.ctl.rm.rmState <;> simp
  split <;> omega

/-- A returned word finds room. -/
theorem not_full (h : ReadRoom P s x) (hret : (s.returned c).isSome = true) :
    x < P.fifoDepth := by
  have hroom := h.room
  have havail := h.available_length c 0 0
  have hopen := acceptedWords_le (s := s) (c := c) 0 0
  have hle := returned_le_available s c
  rw [hret, Bool.toNat_true] at hle
  omega

/-- `pending_reads` goes on counting the owed words. -/
theorem pendingNext (h : ReadRoom P s x) :
    s.ctl.rm.pendingNext (s.ctl.rmInputs (s.inputs c rdUsed wrUsed)) =
      BitVec.ofNat 32 (s.memNext c).owed.length := by
  have hdepth := P.fifoDepth_lt
  have hroom := h.room
  have havail := h.available_length c rdUsed wrUsed
  have hle := returned_le_available s c
  have hvalid : (s.ctl.rmInputs (s.inputs c rdUsed wrUsed)).rmReaddatavalid =
      (s.returned c).isSome := rfl
  rw [owed_memNext]
  rw [havail, ReadMaster.acceptedWords, ReadMaster.accepts] at hle ⊢
  rw [ReadMaster.pendingNext, hvalid, h.pending]
  cases hacc : s.ctl.rm.rmState == .read &&
      !(s.ctl.rmInputs (s.inputs c rdUsed wrUsed)).rmWaitrequest with
  | true =>
      rw [hacc] at hle
      simp only [if_true] at hle ⊢
      rw [← BitVec.ofNat_toNat, ← BitVec.ofNat_add]
      cases hv : (s.returned c).isSome with
      | false => simp
      | true =>
          rw [hv, Bool.toNat_true] at hle
          rw [if_pos rfl, Counter.ofNat_sub_one hle, Bool.toNat_true]
  | false =>
      rw [hacc] at hle
      simp only [Bool.false_eq_true, if_false, Nat.add_zero] at hle ⊢
      cases hv : (s.returned c).isSome with
      | false => simp
      | true =>
          rw [hv, Bool.toNat_true] at hle
          have hpos : BitVec.ofNat 32 s.mem.owed.length > 0 := by
            rw [gt_iff_lt, BitVec.lt_def, Counter.toNat_ofNat_of_lt (by omega)]
            exact hle
          rw [if_pos rfl, if_pos hpos, Counter.ofNat_sub_one hle, Bool.toNat_true]

/-- The check of the room, on natural numbers. -/
theorem room_check (h : ReadRoom P s x)
    (hroom : s.ctl.rm.room P (s.ctl.rmInputs (s.inputs c (BitVec.ofNat 32 x) wrUsed)) = true) :
    x + s.mem.owed.length + s.ctl.csr.ctrlRdBurst.toNat ≤ P.fifoDepth := by
  have hdepth := P.fifoDepth_lt
  have hx := h.room
  have hrb := s.ctl.csr.ctrlRdBurst.isLt
  have hcheck : BitVec.ofNat 32 x + s.ctl.rm.pendingReads +
      s.ctl.csr.ctrlRdBurst.setWidth 32 ≤ BitVec.ofNat 32 P.fifoDepth := by
    rw [ReadMaster.room, decide_eq_true_eq] at hroom
    exact hroom
  rw [h.pending, ← BitVec.ofNat_toNat, ← BitVec.ofNat_add, ← BitVec.ofNat_add,
    BitVec.le_def, Counter.toNat_ofNat_of_lt (by omega),
    Counter.toNat_ofNat_of_lt (by omega)] at hcheck
  exact hcheck

/-- One cycle without a completion, with any CSR write. -/
theorem step_of_not_done (h : ReadRoom P s x) {x' : Nat}
    (hx' : x' ≤ x + (s.returned c).isSome.toNat)
    (hd : s.ctl.wm.internalDonePulse = false) :
    ReadRoom P (s.step P c (BitVec.ofNat 32 x) wrUsed) x' := by
  have hroom := h.room
  have havail := h.available_length c (BitVec.ofNat 32 x) wrUsed
  have hle := returned_le_available s c
  have hmem : (s.step P c (BitVec.ofNat 32 x) wrUsed).mem = s.memNext c := rfl
  have hrm : (s.step P c (BitVec.ofNat 32 x) wrUsed).ctl.rm =
      { s.ctl.rm.fsm P (s.ctl.rmInputs (s.inputs c (BitVec.ofNat 32 x) wrUsed)) with
        pendingReads := BitVec.ofNat 32 (s.memNext c).owed.length } := by
    rw [← h.pendingNext]
    exact ReadMaster.step_of_not_done
      (i := s.ctl.rmInputs (s.inputs c (BitVec.ofNat 32 x) wrUsed)) hd
  obtain ⟨hread, hopen⟩ := ReadMaster.fsm_openWords (P := P)
    (i := s.ctl.rmInputs (s.inputs c (BitVec.ofNat 32 x) wrUsed)) h.read
  refine ⟨?_, ?_, ?_⟩
  · rw [hrm]
    exact hread
  · rw [hrm, hmem]
  · rw [hrm, hmem, owed_memNext]
    change _ + _ + (s.ctl.rm.fsm P _).openWords ≤ _
    rcases hopen with hkeep | ⟨_, _, hyes, hraised, hnone⟩
    · omega
    · have hcheck := h.room_check hyes
      have hburst : (s.ctl.rmInputs (s.inputs c (BitVec.ofNat 32 x) wrUsed)).csr.ctrlRdBurst =
          s.ctl.csr.ctrlRdBurst := rfl
      rw [hburst] at hraised
      omega

/-- A completion that finds the read side drained: clearing the counter loses
nothing. -/
theorem step_of_done (h : ReadRoom P s x) {x' : Nat}
    (hx' : x' ≤ x + (s.returned c).isSome.toNat) (hd : s.ctl.wm.internalDonePulse = true)
    (hdrained : Drained P s c (BitVec.ofNat 32 x)) :
    ReadRoom P (s.step P c (BitVec.ofNat 32 x) wrUsed) x' := by
  have hroom := h.room
  have hzero := hdrained.owed
  have hmem : (s.step P c (BitVec.ofNat 32 x) wrUsed).mem = s.memNext c := rfl
  have hnone : (s.memNext c).owed.length = 0 := by
    rw [owed_memNext]
    omega
  have hrm : (s.step P c (BitVec.ofNat 32 x) wrUsed).ctl.rm =
      s.ctl.rm.step P (s.ctl.rmInputs (s.inputs c (BitVec.ofNat 32 x) wrUsed)) := rfl
  have hd' : (s.ctl.rmInputs (s.inputs c (BitVec.ofNat 32 x) wrUsed)).internalDonePulse =
      true := hd
  obtain ⟨hidle, hclear⟩ := ReadMaster.step_of_done (P := P) (m := s.ctl.rm) hd'
  have hlow := ReadMaster.fsm_rmRead_of_drained (P := P)
    (i := s.ctl.rmInputs (s.inputs c (BitVec.ofNat 32 x) wrUsed)) h.read hdrained.waiting
    hdrained.raised
  refine ⟨?_, ?_, ?_⟩
  · rw [hrm, hidle]
    simp only [ReadMaster.step, hd', if_true]
    exact hlow
  · rw [hrm, hclear, hmem, hnone]
    rfl
  · rw [hrm, ReadMaster.openWords, hidle, if_neg (by decide), hmem, hnone]
    cases hret : (s.returned c).isSome with
    | false =>
        rw [hret, Bool.toNat_false] at hx'
        omega
    | true =>
        have hlt := h.not_full hret
        rw [hret, Bool.toNat_true] at hx'
        omega

end ReadRoom
end BurstBus

namespace BurstCopy

variable {P : BurstParams} {s : BurstCopy P} {c : BurstCycle}

/-- In this cycle no completion loses count of words in flight. -/
def CompletesDrained (s : BurstCopy P) (c : BurstCycle) : Prop :=
  s.engine.ctl.wm.internalDonePulse = true →
    BurstBus.Drained P s.bus c (s.engine.fifo.usedW.setWidth 32)

instance (s : BurstCopy P) (c : BurstCycle) : Decidable (s.CompletesDrained c) := by
  unfold CompletesDrained
  infer_instance

/-- The FIFO of the engine stores a list and has room for all words in flight. -/
def HasRoom (s : BurstCopy P) : Prop :=
  ∃ l, s.engine.fifo.Holds l ∧ BurstBus.ReadRoom P s.bus l.length

theorem HasRoom.step (h : s.HasRoom) (hc : s.CompletesDrained c) : (s.step c).HasRoom := by
  obtain ⟨l, hl, hroom⟩ := h
  refine ⟨_, fifo_step hl c, ?_⟩
  rw [bus_step hl c]
  have hlen : (Ring.next P.fifoDepth l ((s.bus.returned c).map Prod.snd)
      (s.engine.ctl.wm.fifoRdEn c.wmWaitrequest)).length ≤
        l.length + (s.bus.returned c).isSome.toNat := by
    rw [Ring.length_next, Option.isSome_map]
    split <;> omega
  cases hd : s.bus.ctl.wm.internalDonePulse with
  | false => exact hroom.step_of_not_done hlen hd
  | true =>
      have hdr := hc hd
      rw [hl.usedW_setWidth] at hdr
      exact hroom.step_of_done hlen hd hdr

/-- **The read engine never oversubscribes its FIFO while completions find it
drained.**  In every run from reset, with any CSR writes in any cycle and any
in-order read slave: if every completion pulse comes when the slave owes no word
after the cycle and no command is waiting or being raised, then in every reachable
state the words in the FIFO and the owed ones fit, and no word arrives when the
FIFO is full. -/
theorem never_oversubscribed (P : BurstParams)
    (mem0 : BitVec (clog2 P.fifoDepth) → BitVec 32) (cs : List BurstCycle)
    (hdrained : ∀ p ∈ log step (init (P := P) mem0) cs, p.1.CompletesDrained p.2) :
    let s := run step (init (P := P) mem0) cs
    s.engine.fifo.usedW.toNat + s.mem.owed.length ≤ P.fifoDepth ∧
      ∀ c, (s.bus.returned c).isSome = true → s.engine.fifo.full = false := by
  intro s
  have hreset : (init (P := P) mem0).HasRoom :=
    ⟨[], SimpleFifo.holds_reset (Nat.lt_of_lt_of_le (by decide) P.fifoDepth_ge) mem0,
      BurstBus.readRoom_reset P⟩
  obtain ⟨l, hl, hroom⟩ : s.HasRoom :=
    log_invariant_of (P := fun s _ => s.HasRoom) hreset (fun _ _ _ h hc => h.step hc) cs
      (guarded_of_log (G := fun s c => CompletesDrained s c) hdrained)
  refine ⟨?_, ?_⟩
  · have hle := hroom.room
    have howed : s.bus.mem.owed = s.mem.owed := rfl
    rw [howed] at hle
    rw [hl.used]
    omega
  · intro c hret
    have hlt := hroom.not_full hret
    rw [← Bool.not_eq_true, hl.full_iff]
    omega

/-- The transfer of two words completes with the read side drained. -/
theorem never_oversubscribed_two_words :
    let s := run step (init (P := BurstParams.standard) fun _ => 0)
      (programTwoWords ++ BurstCycle.ready (AvsIn.write 0 1) 0 ::
        (List.range 14).map fun i => BurstCycle.ready AvsIn.none (BitVec.ofNat 32 i))
    s.engine.fifo.usedW.toNat + s.mem.owed.length ≤ BurstParams.standard.fifoDepth ∧
      ∀ c, (s.bus.returned c).isSome = true → s.engine.fifo.full = false :=
  never_oversubscribed BurstParams.standard (fun _ => 0)
    (programTwoWords ++ BurstCycle.ready (AvsIn.write 0 1) 0 ::
      (List.range 14).map fun i => BurstCycle.ready AvsIn.none (BitVec.ofNat 32 i))
    (by decide +kernel)

/-- A cycle in which the slaves do not stall and return no word. -/
def silent (avs : AvsIn) : BurstCycle where
  avs := avs
  rmWaitrequest := false
  ret := none
  wmWaitrequest := false

/-- A transfer of 12 bytes with read bursts of three words and write bursts of one,
and behind it a second one with read bursts of 511 words.  The 12 bytes are padded
to 20, which is no multiple of the read burst, so the completion of the first
transfer finds words owed. -/
def undrainedRun : List BurstCycle :=
  [silent (AvsIn.write 5 3), silent (AvsIn.write 6 1), silent (AvsIn.write 4 12),
      silent (AvsIn.write 0 1)] ++
    List.replicate 2 (silent AvsIn.none) ++
      List.replicate 5 (BurstCycle.ready AvsIn.none 7) ++
        List.replicate 8 (silent AvsIn.none) ++
          [silent (AvsIn.write 5 511), silent (AvsIn.write 0 1)] ++
            List.replicate 3 (silent AvsIn.none)

/-- At its end the slave owes more words than the FIFO can take. -/
theorem oversubscribed :
    ¬ ∀ (mem0 : BitVec (clog2 BurstParams.standard.fifoDepth) → BitVec 32)
        (cs : List BurstCycle),
        let s := run step (init (P := BurstParams.standard) mem0) cs
        s.engine.fifo.usedW.toNat + s.mem.owed.length ≤
          BurstParams.standard.fifoDepth := by
  intro h
  have hend := h (fun _ => 0) undrainedRun
  exact absurd hend (by decide +kernel)

end BurstCopy
end VideoProcessing
