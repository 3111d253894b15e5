import Mathlib.Data.List.Chain
import VideoProcessing.Burst.BurstMaster
import VideoProcessing.Burst.Padding

/-!
# CSR writes during a transfer

Both masters latch the burst count of a command when they raise it.  The write
master also updates its address and length with the latched count; the read
master uses the register `ctrl_rd_burst` as it is when the command is accepted.
It also leaves `rm_read` high when the completion comes while a command waits: the
slave then accepts a command that the FSM has forgotten.

`isolation_iff` says that a transfer is isolated from CSR writes exactly when for
every command that the slave accepts, since it was raised, no write to `RD_BURST`
has left another value there and no completion has come.
-/

namespace VideoProcessing

open Lib

/-- A command on the bus: address and burst count. -/
abbrev Command := BitVec 32 × BitVec 9

/-- The next command begins where the burst of the one before ends. -/
def Continues (a b : Command) : Prop := b.1 = a.1 + 4 * a.2.setWidth 32

/-- A chain of commands goes on with one that continues its last. -/
theorem isChain_concat {cmds : List Command} {next : Command}
    (h : cmds.IsChain Continues) (hlast : ∀ cmd ∈ cmds.getLast?, Continues cmd next) :
    (cmds ++ [next]).IsChain Continues := by
  refine h.append (List.isChain_singleton _) ?_
  intro cmd hcmd x hx
  rw [List.head?_cons, Option.mem_some_iff] at hx
  rw [← hx]
  exact hlast cmd hcmd

theorem mul_four (b : BitVec 9) :
    b.setWidth 32 * 4 = 4 * b.setWidth 32 := BitVec.mul_comm _ _

/-- Four times a burst count tells the count. -/
theorem four_mul_inj {a b : BitVec 9} (h : 4 * a.setWidth 32 = 4 * b.setWidth 32) :
    a = b := by
  have ha := a.isLt
  have hb := b.isLt
  rw [← mul_four, ← mul_four, BurstCsr.rdBurst_mul_four, BurstCsr.rdBurst_mul_four] at h
  have hnat := congrArg BitVec.toNat h
  rw [BitVec.toNat_ofNat, BitVec.toNat_ofNat, Nat.mod_eq_of_lt (by omega),
    Nat.mod_eq_of_lt (by omega)] at hnat
  exact BitVec.eq_of_toNat_eq (by omega)

namespace BurstControl

/-- The slave accepts a read command: `rm_read` is high and `rm_waitrequest` low. -/
def acceptsRead (s : BurstControl) (i : Inputs) : Bool := s.rm.rmRead && !i.rmWaitrequest

/-- The read master raises a command. -/
def raisesRead (P : BurstParams) (s : BurstControl) (i : Inputs) : Bool :=
  s.rm.rmState == .waitFifo && (decide (s.rm.readRemainingLen > 0) && s.rm.room P (s.rmInputs i))

/-- The write burst in progress is complete: its last beat is taken. -/
def endsWrite (s : BurstControl) (i : Inputs) : Bool :=
  s.wm.wmFsm == .wBurst && !i.wmWaitrequest && s.wm.lastBeat

/-- The value a CSR access writes to `RD_BURST`. -/
def rdBurstWrite (avs : AvsIn) : List (BitVec 9) :=
  if avs.avsWrite && avs.avsAddress == 5 then [avs.avsWritedata.setWidth 9] else []

/-- The read commands that the slave accepted since the last transfer began. -/
def readCommands (l : List (BurstControl × Inputs)) : List Command :=
  l.foldl (fun cmds p =>
    if p.1.rm.rmState = .idle ∧ p.1.csr.ctrlStart = true then []
    else if p.1.acceptsRead p.2 then cmds ++ [(p.1.rm.rmAddress, p.1.rm.rmBurstcount)]
    else cmds) []

/-- The write bursts that were completed since the last transfer began. -/
def writeBursts (l : List (BurstControl × Inputs)) : List Command :=
  l.foldl (fun cmds p =>
    if p.1.wm.wmFsm = .wIdle ∧ p.1.csr.ctrlStart = true then []
    else if p.1.endsWrite p.2 then cmds ++ [(p.1.wm.wmAddress, p.1.wm.wmBurstcount)]
    else cmds) []

/-- The cycles since the last read command was raised, the one that raised it
included. -/
def sinceRaised (P : BurstParams) (l : List (BurstControl × Inputs)) :
    List (BurstControl × Inputs) :=
  l.foldl (fun w p => if p.1.raisesRead P p.2 then [p] else w ++ [p]) []

/-- The values that the cycles write to `RD_BURST`. -/
def rdBurstWrites (l : List (BurstControl × Inputs)) : List (BitVec 9) :=
  l.flatMap fun p => rdBurstWrite p.2.avs

section Snoc

variable (l : List (BurstControl × Inputs)) (s : BurstControl) (i : Inputs)

theorem readCommands_snoc :
    readCommands (l ++ [(s, i)]) =
      if s.rm.rmState = .idle ∧ s.csr.ctrlStart = true then []
      else if s.acceptsRead i then
        readCommands l ++ [(s.rm.rmAddress, s.rm.rmBurstcount)]
      else readCommands l := by
  simp only [readCommands, List.foldl_append, List.foldl_cons, List.foldl_nil]

theorem writeBursts_snoc :
    writeBursts (l ++ [(s, i)]) =
      if s.wm.wmFsm = .wIdle ∧ s.csr.ctrlStart = true then []
      else if s.endsWrite i then
        writeBursts l ++ [(s.wm.wmAddress, s.wm.wmBurstcount)]
      else writeBursts l := by
  simp only [writeBursts, List.foldl_append, List.foldl_cons, List.foldl_nil]

theorem sinceRaised_snoc (P : BurstParams) :
    sinceRaised P (l ++ [(s, i)]) =
      if s.raisesRead P i then [(s, i)] else sinceRaised P l ++ [(s, i)] := by
  simp only [sinceRaised, List.foldl_append, List.foldl_cons, List.foldl_nil]

theorem rdBurstWrites_snoc :
    rdBurstWrites (l ++ [(s, i)]) = rdBurstWrites l ++ rdBurstWrite i.avs := by
  simp only [rdBurstWrites, List.flatMap_append, List.flatMap_singleton]

end Snoc

/-- After a log the commands of the transfer are contiguous, every command of the
log took four times its own burst count off the remaining length, and no read
command stayed on the bus once it was accepted. -/
structure Isolated (P : BurstParams) (l : List (BurstControl × Inputs)) : Prop where
  reads : (readCommands l).IsChain Continues
  writes : (writeBursts l).IsChain Continues
  readLen : ∀ p ∈ l, p.1.acceptsRead p.2 = true →
    (p.1.step P p.2).rm.readRemainingLen =
      p.1.rm.readRemainingLen - 4 * p.1.rm.rmBurstcount.setWidth 32
  readOnce : ∀ p ∈ l, p.1.acceptsRead p.2 = true → (p.1.step P p.2).rm.rmRead = false
  writeLen : ∀ p ∈ l, p.1.endsWrite p.2 = true →
    (p.1.step P p.2).wm.remainingLen =
      p.1.wm.remainingLen - 4 * p.1.wm.wmBurstcount.setWidth 32

/-- Since the command on the bus was raised, no completion has come, and the last
write to `RD_BURST`, if there is one, wrote the count that was issued. -/
structure Undisturbed (P : BurstParams) (l : List (BurstControl × Inputs))
    (s : BurstControl) : Prop where
  noDone : ∀ p ∈ sinceRaised P l, p.1.wm.internalDonePulse = false
  rdBurst : ∀ v ∈ (rdBurstWrites (sinceRaised P l)).getLast?, v = s.rm.rmBurstcount

variable {P : BurstParams} {s : BurstControl} {i : Inputs}
  {l : List (BurstControl × Inputs)}

/-- What a cycle does to `RD_BURST`. -/
theorem ctrlRdBurst_step :
    (s.step P i).csr.ctrlRdBurst =
      (rdBurstWrite i.avs).getLast?.getD s.csr.ctrlRdBurst := by
  have haddr : (i.avs.avsAddress == 5) = decide (i.avs.avsAddress.toNat = 5) := by
    rw [Bool.eq_iff_iff, beq_iff_eq, decide_eq_true_eq, ← BitVec.toNat_inj]
    rfl
  change (s.csr.step _ i.avs).ctrlRdBurst = _
  rw [rdBurstWrite, haddr]
  cases hw : i.avs.avsWrite with
  | false => simp [BurstCsr.step, hw]
  | true =>
      simp only [BurstCsr.step, hw, if_true, Bool.true_and, BurstCsr.write]
      split <;> simp_all

/-- One cycle of the read master: it raises a command, it has its command accepted, its
command waits, or it does not touch the bus; a completion overrides the state only. -/
theorem rm_step_cases (P : BurstParams) (s : BurstControl) (i : Inputs) :
    (s.raisesRead P i = true ∧ s.rm.rmState = .waitFifo ∧
      (s.step P i).rm.rmRead = true ∧ (s.step P i).rm.rmAddress = s.rm.currentSrcAddr ∧
      (s.step P i).rm.rmBurstcount = s.csr.ctrlRdBurst ∧
      (s.step P i).rm.currentSrcAddr = s.rm.currentSrcAddr ∧
      (s.step P i).rm.rmState = if s.wm.internalDonePulse then .idle else .read) ∨
    (s.raisesRead P i = false ∧ s.rm.rmState = .read ∧ i.rmWaitrequest = false ∧
      (s.step P i).rm.rmRead = false ∧ (s.step P i).rm.rmState ≠ .read ∧
      (s.step P i).rm.currentSrcAddr =
        s.rm.currentSrcAddr + 4 * s.csr.ctrlRdBurst.setWidth 32 ∧
      (s.step P i).rm.readRemainingLen =
        s.rm.readRemainingLen - 4 * s.csr.ctrlRdBurst.setWidth 32) ∨
    (s.raisesRead P i = false ∧ s.rm.rmState = .read ∧ i.rmWaitrequest = true ∧
      (s.step P i).rm.rmRead = s.rm.rmRead ∧ (s.step P i).rm.rmAddress = s.rm.rmAddress ∧
      (s.step P i).rm.rmBurstcount = s.rm.rmBurstcount ∧
      (s.step P i).rm.currentSrcAddr = s.rm.currentSrcAddr ∧
      (s.step P i).rm.rmState = if s.wm.internalDonePulse then .idle else .read) ∨
    (s.raisesRead P i = false ∧ s.rm.rmState ≠ .read ∧ (s.step P i).rm.rmState ≠ .read ∧
      (s.step P i).rm.rmRead = s.rm.rmRead ∧
      (s.rm.rmState = .idle ∧ s.csr.ctrlStart = true ∨
        (s.step P i).rm.currentSrcAddr = s.rm.currentSrcAddr)) := by
  have hrm : (s.step P i).rm = if s.wm.internalDonePulse then
      { s.rm.fsm P (s.rmInputs i) with
        rmState := .idle
        pendingReads := 0 }
      else { s.rm.fsm P (s.rmInputs i) with pendingReads := s.rm.pendingNext (s.rmInputs i) } :=
    rfl
  cases hst : s.rm.rmState with
  | idle =>
      have hno : s.raisesRead P i = false := by rw [raisesRead, hst]; rfl
      right
      right
      right
      rcases ReadMaster.fsm_idle (P := P) (i := s.rmInputs i) hst with ⟨hc, he⟩ | ⟨_, he⟩
      · refine ⟨hno, by decide, ?_, ?_, Or.inl ⟨rfl, hc⟩⟩ <;> rw [hrm, he] <;>
          cases s.wm.internalDonePulse <;> simp
      · refine ⟨hno, by decide, ?_, ?_, Or.inr ?_⟩ <;> rw [hrm, he] <;>
          cases s.wm.internalDonePulse <;> simp [hst]
  | waitFifo =>
      rcases ReadMaster.fsm_waitFifo (P := P) (i := s.rmInputs i) hst with
        ⟨hrem, hroom, he⟩ | ⟨hno, he⟩
      · left
        refine ⟨?_, rfl, ?_, ?_, ?_, ?_, ?_⟩
        · rw [raisesRead, hst, decide_eq_true hrem, hroom]
          rfl
        all_goals
          rw [hrm, he]
          cases s.wm.internalDonePulse <;> rfl
      · have hraise : s.raisesRead P i = false := by
          rw [raisesRead, hst]
          by_cases hrem : s.rm.readRemainingLen > 0
          · rw [hno hrem, Bool.and_false, Bool.and_false]
          · rw [decide_eq_false hrem, Bool.false_and, Bool.and_false]
        right
        right
        right
        refine ⟨hraise, by decide, ?_, ?_, Or.inr ?_⟩ <;> rw [hrm, he] <;>
          cases s.wm.internalDonePulse <;> simp [hst]
  | read =>
      have hno : s.raisesRead P i = false := by rw [raisesRead, hst]; rfl
      right
      rcases ReadMaster.fsm_read (P := P) (i := s.rmInputs i) hst with ⟨hw, he⟩ | ⟨hw, he⟩
      · left
        rw [mul_four] at he
        refine ⟨hno, rfl, hw, ?_, ?_, ?_, ?_⟩ <;> rw [hrm, he] <;>
          cases s.wm.internalDonePulse <;> simp [rmInputs]
      · right
        left
        refine ⟨hno, rfl, hw, ?_, ?_, ?_, ?_, ?_⟩ <;> rw [hrm, he] <;>
          cases s.wm.internalDonePulse <;> simp [hst]

/-- The read side after a log.  A command on the bus is that of the FSM unless a completion
came since it was raised, and then the register holds what was written since. -/
structure ReadTrace (P : BurstParams) (l : List (BurstControl × Inputs))
    (s : BurstControl) : Prop where
  command : s.rm.rmState = .read → s.rm.rmRead = true ∧ s.rm.rmAddress = s.rm.currentSrcAddr
  noDone : s.rm.rmRead = true →
    (s.rm.rmState = .read ↔ ∀ p ∈ sinceRaised P l, p.1.wm.internalDonePulse = false)
  rdBurst : s.rm.rmState = .read →
    s.csr.ctrlRdBurst = (rdBurstWrites (sinceRaised P l)).getLast?.getD s.rm.rmBurstcount

theorem readTrace_reset (P : BurstParams) : ReadTrace P [] (reset P) :=
  ⟨fun h => absurd h (by simp [reset, ReadMaster.reset]),
    fun h => absurd h (by simp [reset, ReadMaster.reset]),
    fun h => absurd h (by simp [reset, ReadMaster.reset])⟩

theorem ReadTrace.noDone_step (h : ReadTrace P l s)
    (hread : (s.step P i).rm.rmRead = true) :
    (s.step P i).rm.rmState = .read ↔
      ∀ p ∈ sinceRaised P (l ++ [(s, i)]), p.1.wm.internalDonePulse = false := by
  rw [sinceRaised_snoc]
  rcases rm_step_cases P s i with ⟨hraise, _, _, _, _, _, hstate⟩ |
    ⟨_, _, _, hread', _⟩ | ⟨hraise, hst, _, hr, _, _, _, hstate⟩ |
    ⟨hraise, hst, hstate, hr, _⟩
  · rw [hraise, if_pos rfl, List.forall_mem_singleton, hstate]
    cases s.wm.internalDonePulse <;> simp
  · exact absurd (hread.symm.trans hread') (by decide)
  · rw [hr] at hread
    rw [hraise, if_neg Bool.false_ne_true, List.forall_mem_append,
      List.forall_mem_singleton, ← h.noDone hread, hstate]
    cases s.wm.internalDonePulse <;> simp [hst]
  · rw [hr] at hread
    rw [hraise, if_neg Bool.false_ne_true, List.forall_mem_append, ← h.noDone hread]
    exact ⟨fun heq => absurd heq hstate, fun hall => absurd hall.1 hst⟩

theorem ReadTrace.step (h : ReadTrace P l s) :
    ReadTrace P (l ++ [(s, i)]) (s.step P i) := by
  refine ⟨?_, h.noDone_step, ?_⟩
  · intro hs
    rcases rm_step_cases P s i with ⟨_, _, hr, ha, _, hc, _⟩ | ⟨_, _, _, _, hne, _⟩ |
      ⟨_, hst, _, hr, ha, _, hc, _⟩ | ⟨_, _, hne, _⟩
    · exact ⟨hr, ha.trans hc.symm⟩
    · exact absurd hs hne
    · rw [hr, ha, hc]
      exact h.command hst
    · exact absurd hs hne
  · intro hs
    rw [ctrlRdBurst_step, sinceRaised_snoc]
    rcases rm_step_cases P s i with ⟨hraise, _, _, _, hb, _⟩ | ⟨_, _, _, _, hne, _⟩ |
      ⟨hraise, hst, _, _, _, hb, _⟩ | ⟨_, _, hne, _⟩
    · rw [hraise, if_pos rfl, hb, rdBurstWrites, List.flatMap_singleton]
    · exact absurd hs hne
    · rw [hraise, if_neg Bool.false_ne_true, rdBurstWrites_snoc, hb, h.rdBurst hst,
        List.getLast?_append]
      cases (rdBurstWrite i.avs).getLast? <;> rfl
    · exact absurd hs hne

/-- A command on the bus is undisturbed exactly when it is the one of the FSM and the
register holds its count. -/
theorem ReadTrace.undisturbed_iff (h : ReadTrace P l s) (hread : s.rm.rmRead = true) :
    Undisturbed P l s ↔ s.rm.rmState = .read ∧ s.csr.ctrlRdBurst = s.rm.rmBurstcount := by
  have hlast : s.rm.rmState = .read →
      (s.csr.ctrlRdBurst = s.rm.rmBurstcount ↔
        ∀ v ∈ (rdBurstWrites (sinceRaised P l)).getLast?, v = s.rm.rmBurstcount) := by
    intro hst
    rw [h.rdBurst hst]
    cases (rdBurstWrites (sinceRaised P l)).getLast? with
    | none => simp
    | some v => simp
  constructor
  · rintro ⟨hdone, hkept⟩
    have hst := (h.noDone hread).2 hdone
    exact ⟨hst, (hlast hst).2 hkept⟩
  · rintro ⟨hst, hb⟩
    exact ⟨(h.noDone hread).1 hst, (hlast hst).1 hb⟩

/-- An accepted command of the FSM leaves the bus and moves address and length by the
register. -/
theorem rm_of_acceptsRead (hst : s.rm.rmState = .read) (h : s.acceptsRead i = true) :
    (s.step P i).rm.rmRead = false ∧
      (s.step P i).rm.currentSrcAddr =
        s.rm.currentSrcAddr + 4 * s.csr.ctrlRdBurst.setWidth 32 ∧
      (s.step P i).rm.readRemainingLen =
        s.rm.readRemainingLen - 4 * s.csr.ctrlRdBurst.setWidth 32 := by
  rw [acceptsRead, Bool.and_eq_true, Bool.not_eq_true'] at h
  rcases rm_step_cases P s i with ⟨_, hst', _⟩ | ⟨_, _, _, hr, _, hc, hl⟩ |
    ⟨_, _, hw, _⟩ | ⟨_, hst', _⟩
  · exact absurd (hst.symm.trans hst') (by decide)
  · exact ⟨hr, hc, hl⟩
  · exact absurd (h.2.symm.trans hw) (by decide)
  · exact absurd hst hst'

/-- Outside `READ` a command stays on the bus. -/
theorem rmRead_step (hst : s.rm.rmState ≠ .read) (h : s.rm.rmRead = true) :
    (s.step P i).rm.rmRead = true := by
  rcases rm_step_cases P s i with ⟨_, _, hr, _⟩ | ⟨_, hst', _⟩ | ⟨_, hst', _⟩ |
    ⟨_, _, _, hr, _⟩
  · exact hr
  · exact absurd hst' hst
  · exact absurd hst' hst
  · exact hr.trans h

/-- The address register stays when no transfer begins and no command is accepted. -/
theorem currentSrcAddr_step (htrace : ReadTrace P l s)
    (hs : ¬ (s.rm.rmState = .idle ∧ s.csr.ctrlStart = true))
    (h : s.acceptsRead i = false) :
    (s.step P i).rm.currentSrcAddr = s.rm.currentSrcAddr := by
  rcases rm_step_cases P s i with ⟨_, _, _, _, _, hc, _⟩ | ⟨_, hst, hw, _⟩ |
    ⟨_, _, _, _, _, _, hc, _⟩ | ⟨_, _, _, _, hstart | hc⟩
  · exact hc
  · rw [acceptsRead, (htrace.command hst).1, hw] at h
    exact absurd h (by decide)
  · exact hc
  · exact absurd hstart hs
  · exact hc

/-- A completed write burst moves address and length by the latched count. -/
theorem wm_of_endsWrite (h : s.endsWrite i = true) :
    s.wm.wmFsm = .wBurst ∧
      (s.step P i).wm.currentDstAddr =
        s.wm.currentDstAddr + 4 * s.wm.wmBurstcount.setWidth 32 ∧
      (s.step P i).wm.remainingLen =
        s.wm.remainingLen - 4 * s.wm.wmBurstcount.setWidth 32 := by
  have hwm : (s.step P i).wm = s.wm.step (s.wmInputs i) := rfl
  have hwait : (s.wmInputs i).wmWaitrequest = i.wmWaitrequest := rfl
  obtain ⟨⟨hst, hw⟩, hl⟩ : (s.wm.wmFsm = .wBurst ∧ i.wmWaitrequest = false) ∧
      s.wm.lastBeat = true := by simpa [endsWrite] using h
  rcases WriteMaster.step_wBurst (i := s.wmInputs i) hst with ⟨_, _, he⟩ | ⟨_, hl', _⟩ | ⟨hw', _⟩
  · rw [hwm, he, ← mul_four]
    exact ⟨hst, rfl, rfl⟩
  · exact absurd (hl.symm.trans hl') (by decide)
  · rw [hwait] at hw'
    exact absurd (hw.symm.trans hw') (by decide)

/-- The address register stays when no transfer begins and no burst is completed. -/
theorem currentDstAddr_step (hs : ¬ (s.wm.wmFsm = .wIdle ∧ s.csr.ctrlStart = true))
    (h : s.endsWrite i = false) :
    (s.step P i).wm.currentDstAddr = s.wm.currentDstAddr := by
  have hwm : (s.step P i).wm = s.wm.step (s.wmInputs i) := rfl
  have hwait : (s.wmInputs i).wmWaitrequest = i.wmWaitrequest := rfl
  rw [hwm]
  cases hst : s.wm.wmFsm with
  | wIdle =>
      rcases WriteMaster.step_wIdle (i := s.wmInputs i) hst with ⟨hc, _⟩ | ⟨_, he⟩
      · exact absurd ⟨hst, hc⟩ hs
      · rw [he]
  | wWaitData =>
      rcases WriteMaster.step_wWaitData (i := s.wmInputs i) hst with
        ⟨_, he⟩ | ⟨_, _, he⟩ | ⟨_, _, he⟩ <;> rw [he]
  | wBurst =>
      rcases WriteMaster.step_wBurst (i := s.wmInputs i) hst with
        ⟨hw, hl, _⟩ | ⟨_, _, he⟩ | ⟨_, he⟩
      · rw [hwait] at hw
        simp [endsWrite, hst, hw, hl] at h
      · rw [he]
      · rw [he]

/-- A burst is issued at the address register. -/
theorem wmAddress_step (h : s.wm.wmFsm = .wBurst → s.wm.wmAddress = s.wm.currentDstAddr)
    (hs : (s.step P i).wm.wmFsm = .wBurst) :
    (s.step P i).wm.wmAddress = (s.step P i).wm.currentDstAddr := by
  have hwm : (s.step P i).wm = s.wm.step (s.wmInputs i) := rfl
  rw [hwm] at hs ⊢
  cases hst : s.wm.wmFsm with
  | wIdle =>
      rcases WriteMaster.step_wIdle (i := s.wmInputs i) hst with ⟨_, he⟩ | ⟨_, he⟩ <;>
        rw [he] at hs <;> simp [hst] at hs
  | wWaitData =>
      rcases WriteMaster.step_wWaitData (i := s.wmInputs i) hst with
        ⟨_, he⟩ | ⟨_, _, he⟩ | ⟨_, _, he⟩ <;> rw [he] at hs ⊢
      · exact absurd hs (by simp)
      · exact absurd hs (by simp [hst])
  | wBurst =>
      rcases WriteMaster.step_wBurst (i := s.wmInputs i) hst with
        ⟨_, _, he⟩ | ⟨_, _, he⟩ | ⟨_, he⟩ <;> rw [he] at hs ⊢
      · exact absurd hs (by simp)
      · exact h hst
      · exact h hst

/-- The read side after a log: the next command begins where the last one ended. -/
structure ReadsChained (P : BurstParams) (l : List (BurstControl × Inputs))
    (s : BurstControl) : Prop where
  chain : (readCommands l).IsChain Continues
  last : ∀ cmd ∈ (readCommands l).getLast?,
    s.rm.currentSrcAddr = cmd.1 + 4 * cmd.2.setWidth 32
  len : ∀ p ∈ l, p.1.acceptsRead p.2 = true →
    (p.1.step P p.2).rm.readRemainingLen =
      p.1.rm.readRemainingLen - 4 * p.1.rm.rmBurstcount.setWidth 32
  once : ∀ p ∈ l, p.1.acceptsRead p.2 = true → (p.1.step P p.2).rm.rmRead = false

/-- An undisturbed command that the slave accepts is that of the FSM, which goes on by its
count. -/
theorem ReadTrace.accepted (h : ReadTrace P l s) (hkept : Undisturbed P l s)
    (hacc : s.acceptsRead i = true) :
    s.rm.rmState = .read ∧ (s.step P i).rm.rmRead = false ∧
      (s.step P i).rm.currentSrcAddr =
        s.rm.currentSrcAddr + 4 * s.rm.rmBurstcount.setWidth 32 ∧
      (s.step P i).rm.readRemainingLen =
        s.rm.readRemainingLen - 4 * s.rm.rmBurstcount.setWidth 32 := by
  have hread := hacc
  rw [acceptsRead, Bool.and_eq_true] at hread
  obtain ⟨hst, hb⟩ := (h.undisturbed_iff hread.1).1 hkept
  obtain ⟨hr, hc, hl⟩ := rm_of_acceptsRead (P := P) hst hacc
  rw [hb] at hc hl
  exact ⟨hst, hr, hc, hl⟩

theorem ReadsChained.step (h : ReadsChained P l s) (htrace : ReadTrace P l s)
    (hkept : s.acceptsRead i = true → Undisturbed P l s) :
    ReadsChained P (l ++ [(s, i)]) (s.step P i) := by
  have hlens : ∀ p ∈ l ++ [(s, i)], p.1.acceptsRead p.2 = true →
      (p.1.step P p.2).rm.readRemainingLen =
        p.1.rm.readRemainingLen - 4 * p.1.rm.rmBurstcount.setWidth 32 := by
    refine List.forall_mem_append.2 ⟨h.len, List.forall_mem_singleton.2 fun hacc => ?_⟩
    exact (htrace.accepted (hkept hacc) hacc).2.2.2
  have honce : ∀ p ∈ l ++ [(s, i)], p.1.acceptsRead p.2 = true →
      (p.1.step P p.2).rm.rmRead = false := by
    refine List.forall_mem_append.2 ⟨h.once, List.forall_mem_singleton.2 fun hacc => ?_⟩
    exact (htrace.accepted (hkept hacc) hacc).2.1
  by_cases hstart : s.rm.rmState = .idle ∧ s.csr.ctrlStart = true
  · refine ⟨?_, ?_, hlens, honce⟩ <;> rw [readCommands_snoc, if_pos hstart]
    · exact List.isChain_nil
    · intro cmd hcmd
      exact absurd hcmd (by simp)
  · cases hacc : s.acceptsRead i with
    | true =>
        obtain ⟨hst, _, hsrc, _⟩ := htrace.accepted (hkept hacc) hacc
        have haddr := (htrace.command hst).2
        refine ⟨?_, ?_, hlens, honce⟩ <;>
          rw [readCommands_snoc, if_neg hstart, if_pos hacc]
        · exact isChain_concat h.chain fun cmd hcmd => haddr.trans (h.last cmd hcmd)
        · intro cmd hcmd
          rw [List.getLast?_concat, Option.mem_some_iff] at hcmd
          rw [hsrc, ← hcmd, haddr]
    | false =>
        refine ⟨?_, ?_, hlens, honce⟩ <;>
          rw [readCommands_snoc, if_neg hstart, hacc, if_neg (by decide)]
        · exact h.chain
        · intro cmd hcmd
          rw [currentSrcAddr_step htrace hstart hacc]
          exact h.last cmd hcmd

/-- The write side after a log. -/
structure WritesChained (P : BurstParams) (l : List (BurstControl × Inputs))
    (s : BurstControl) : Prop where
  chain : (writeBursts l).IsChain Continues
  last : ∀ cmd ∈ (writeBursts l).getLast?,
    s.wm.currentDstAddr = cmd.1 + 4 * cmd.2.setWidth 32
  command : s.wm.wmFsm = .wBurst → s.wm.wmAddress = s.wm.currentDstAddr
  len : ∀ p ∈ l, p.1.endsWrite p.2 = true →
    (p.1.step P p.2).wm.remainingLen =
      p.1.wm.remainingLen - 4 * p.1.wm.wmBurstcount.setWidth 32

/-- The write master uses the latched count only, so nothing has to be assumed. -/
theorem WritesChained.step (h : WritesChained P l s) :
    WritesChained P (l ++ [(s, i)]) (s.step P i) := by
  have hlens : ∀ p ∈ l ++ [(s, i)], p.1.endsWrite p.2 = true →
      (p.1.step P p.2).wm.remainingLen =
        p.1.wm.remainingLen - 4 * p.1.wm.wmBurstcount.setWidth 32 := by
    refine List.forall_mem_append.2 ⟨h.len, List.forall_mem_singleton.2 fun hend => ?_⟩
    exact (wm_of_endsWrite hend).2.2
  by_cases hstart : s.wm.wmFsm = .wIdle ∧ s.csr.ctrlStart = true
  · refine ⟨?_, ?_, wmAddress_step h.command, hlens⟩ <;>
      rw [writeBursts_snoc, if_pos hstart]
    · exact List.isChain_nil
    · intro cmd hcmd
      exact absurd hcmd (by simp)
  · cases hend : s.endsWrite i with
    | true =>
        obtain ⟨hst, hdst, _⟩ := wm_of_endsWrite (P := P) hend
        have haddr := h.command hst
        refine ⟨?_, ?_, wmAddress_step h.command, hlens⟩ <;>
          rw [writeBursts_snoc, if_neg hstart, if_pos hend]
        · exact isChain_concat h.chain fun cmd hcmd => haddr.trans (h.last cmd hcmd)
        · intro cmd hcmd
          rw [List.getLast?_concat, Option.mem_some_iff] at hcmd
          rw [hdst, ← hcmd, haddr]
    | false =>
        refine ⟨?_, ?_, wmAddress_step h.command, hlens⟩ <;>
          rw [writeBursts_snoc, if_neg hstart, hend, if_neg (by decide)]
        · exact h.chain
        · intro cmd hcmd
          rw [currentDstAddr_step hstart hend]
          exact h.last cmd hcmd

end BurstControl

namespace BurstMaster

open BurstControl

variable {P : BurstParams}

/-- The log of the control code in a run of the engine from reset. -/
def ctlLog (mem0 : BitVec (clog2 P.fifoDepth) → BitVec 32) (is : List Inputs) :
    List (BurstControl × BurstControl.Inputs) :=
  (log step (reset mem0) is).map fun p => (p.1.ctl, p.1.ctlInputs p.2)

/-- The state of the control code after a run of the engine from reset. -/
def ctlRun (mem0 : BitVec (clog2 P.fifoDepth) → BitVec 32) (is : List Inputs) :
    BurstControl :=
  (run step (reset mem0) is).ctl

theorem ctlLog_snoc (mem0 : BitVec (clog2 P.fifoDepth) → BitVec 32) (is : List Inputs)
    (i : Inputs) :
    ctlLog mem0 (is ++ [i]) =
      ctlLog mem0 is ++
        [(ctlRun mem0 is, (run step (reset mem0) is).ctlInputs i)] := by
  rw [ctlLog, log_snoc, List.map_append]
  rfl

theorem ctlRun_snoc (mem0 : BitVec (clog2 P.fifoDepth) → BitVec 32) (is : List Inputs)
    (i : Inputs) :
    ctlRun mem0 (is ++ [i]) =
      (ctlRun mem0 is).step P ((run step (reset mem0) is).ctlInputs i) := by
  rw [ctlRun, run_snoc]
  rfl

theorem readTrace_run (mem0 : BitVec (clog2 P.fifoDepth) → BitVec 32) (is : List Inputs) :
    ReadTrace P (ctlLog mem0 is) (ctlRun mem0 is) := by
  induction is using List.reverseRecOn with
  | nil => exact readTrace_reset P
  | append_singleton is i ih =>
      rw [ctlLog_snoc, ctlRun_snoc]
      exact ih.step

/-- In a run in which every accepted command is undisturbed the commands of either master
are chained. -/
theorem chained_run (mem0 : BitVec (clog2 P.fifoDepth) → BitVec 32) (is : List Inputs)
    (hkept : ∀ pre i, pre ++ [i] <+: is →
      (ctlRun mem0 pre).acceptsRead ((run step (reset mem0) pre).ctlInputs i) = true →
        Undisturbed P (ctlLog mem0 pre) (ctlRun mem0 pre)) :
    ReadsChained P (ctlLog mem0 is) (ctlRun mem0 is) ∧
      WritesChained P (ctlLog mem0 is) (ctlRun mem0 is) := by
  induction is using List.reverseRecOn with
  | nil =>
      refine ⟨⟨List.isChain_nil, ?_, ?_, ?_⟩, ⟨List.isChain_nil, ?_, ?_, ?_⟩⟩
      · intro cmd hcmd
        exact absurd hcmd (by simp [ctlLog, readCommands])
      · intro p hp
        exact absurd hp List.not_mem_nil
      · intro p hp
        exact absurd hp List.not_mem_nil
      · intro cmd hcmd
        exact absurd hcmd (by simp [ctlLog, writeBursts])
      · intro hs
        exact absurd hs (by simp [ctlRun, reset, BurstControl.reset, WriteMaster.reset])
      · intro p hp
        exact absurd hp List.not_mem_nil
  | append_singleton is i ih =>
      obtain ⟨hr, hw⟩ :=
        ih fun pre j hpre => hkept pre j (hpre.trans (List.prefix_append is [i]))
      rw [ctlLog_snoc, ctlRun_snoc]
      exact ⟨hr.step (readTrace_run mem0 is) (hkept is i (List.prefix_refl _)), hw.step⟩

/-- **When a transfer is isolated from CSR writes.**  For every run of
`burst_master` from reset, with any CSR writes in any cycle: in all states reached
the commands of the transfer are contiguous, take their own burst counts off the
lengths and are accepted once, if and only if every read command that the slave
accepts is undisturbed: since it was raised no completion has come, and the last
value written to `RD_BURST`, if any, is the count that it was raised with. -/
theorem isolation_iff (P : BurstParams) (mem0 : BitVec (clog2 P.fifoDepth) → BitVec 32)
    (is : List Inputs) :
    (∀ pre, pre <+: is → Isolated P (ctlLog mem0 pre)) ↔
      ∀ pre i, pre ++ [i] <+: is →
        (ctlRun mem0 pre).acceptsRead ((run step (reset mem0) pre).ctlInputs i) = true →
          Undisturbed P (ctlLog mem0 pre) (ctlRun mem0 pre) := by
  constructor
  · intro hall pre i hpre hacc
    have hiso := hall (pre ++ [i]) hpre
    have hmem : (ctlRun mem0 pre, (run step (reset mem0) pre).ctlInputs i) ∈
        ctlLog mem0 (pre ++ [i]) := by
      rw [ctlLog_snoc]
      simp
    have honce := hiso.readOnce _ hmem hacc
    have hlen := hiso.readLen _ hmem hacc
    have hread := hacc
    rw [acceptsRead, Bool.and_eq_true] at hread
    have hst : (ctlRun mem0 pre).rm.rmState = .read := by
      by_contra hne
      exact absurd (honce.symm.trans (rmRead_step hne hread.1)) Bool.false_ne_true
    rw [(readTrace_run mem0 pre).undisturbed_iff hread.1]
    rw [(rm_of_acceptsRead hst hacc).2.2] at hlen
    exact ⟨hst, four_mul_inj ((BitVec.sub_right_inj _).1 hlen)⟩
  · intro hkept pre hpre
    obtain ⟨hr, hw⟩ :=
      chained_run mem0 pre fun pre' i hpre' => hkept pre' i (hpre'.trans hpre)
    exact ⟨hr.chain, hw.chain, hr.len, hr.once, hw.len⟩

/-- The slave stalls the first command of a transfer while software changes
`RD_BURST` from 1 to 2. -/
def changedBurstRun : List Inputs :=
  let c (avs : AvsIn) (stall : Bool) : Inputs := ⟨avs, 0, false, stall, false⟩
  [c (AvsIn.write 5 1) true, c (AvsIn.write 4 16) true, c (AvsIn.write 0 1) true,
    c AvsIn.none true, c AvsIn.none true, c (AvsIn.write 5 2) true, c AvsIn.none false,
    c AvsIn.none false, c AvsIn.none false]

/-- The second command leaves out the word behind the first one. -/
theorem isolation_fails :
    ¬ ∀ (mem0 : BitVec (clog2 BurstParams.standard.fifoDepth) → BitVec 32)
        (is : List Inputs), Isolated BurstParams.standard (ctlLog mem0 is) := by
  intro h
  have hcmds : readCommands
      (ctlLog (P := BurstParams.standard) (fun _ => 0) changedBurstRun) =
        [(0, 1), (8, 2)] := by
    decide +kernel
  have hchain := (h (fun _ => 0) changedBurstRun).reads
  rw [hcmds, List.isChain_cons_cons] at hchain
  have hnext : (8 : BitVec 32) = 0 + 4 * (1 : BitVec 9).setWidth 32 := hchain.1
  exact absurd hnext (by decide)

end BurstMaster
end VideoProcessing
