import VideoProcessing.Lib.Run

/-!
# The control code of the burst engines

`burst_master` and `burst_master_4` share their control code: the CSR block, the
read master FSM and the write master FSM.  Each `always` block is one record of
registers with one step function; `BurstControl` runs the three together.  The
FIFOs between the two masters are left to the modules that instantiate the
control code, which report their usage as `rdUsed` (seen by the read master) and
`wrUsed` (seen by the write master).
-/

namespace VideoProcessing

open Lib

/-- `parameter BURST_COUNT` and `parameter FIFO_DEPTH`; the depth must fit the
32-bit comparisons of the read master. -/
structure BurstParams where
  burstCount : Nat
  fifoDepth : Nat
  fifoDepth_ge : 2 ≤ fifoDepth
  fifoDepth_lt : fifoDepth < 2 ^ 31

/-- The default parameters. -/
def BurstParams.standard : BurstParams where
  burstCount := 256
  fifoDepth := 512
  fifoDepth_ge := by decide
  fifoDepth_lt := by decide

/-- The write port of the CSR slave in one cycle. -/
structure AvsIn where
  avsWrite : Bool
  avsAddress : BitVec 3
  avsWritedata : BitVec 32

/-- No CSR access. -/
def AvsIn.none : AvsIn where
  avsWrite := false
  avsAddress := 0
  avsWritedata := 0

/-- A write of `d` to register `a`. -/
def AvsIn.write (a : BitVec 3) (d : BitVec 32) : AvsIn where
  avsWrite := true
  avsAddress := a
  avsWritedata := d

/-- A Start command: a write to the control register with bit 0 set. -/
def AvsIn.start (i : AvsIn) : Bool :=
  i.avsWrite && i.avsAddress == 0 && i.avsWritedata.getLsbD 0

/-- A clear of the Done flag: a write to the status register with bit 0 set. -/
def AvsIn.clearsDone (i : AvsIn) : Bool :=
  i.avsWrite && i.avsAddress == 1 && i.avsWritedata.getLsbD 0

theorem AvsIn.of_start {i : AvsIn} (h : i.start = true) :
    i.avsWrite = true ∧ i.avsAddress = 0 := by
  simp only [AvsIn.start, Bool.and_eq_true, beq_iff_eq] at h
  exact h.1

/-- The control and status registers. -/
structure BurstCsr where
  ctrlStart : Bool
  ctrlDoneReg : Bool
  ctrlSrcAddr : BitVec 32
  ctrlDstAddr : BitVec 32
  ctrlLen : BitVec 32
  ctrlRdBurst : BitVec 9
  ctrlWrBurst : BitVec 9
deriving DecidableEq, Repr

namespace BurstCsr

/-- The values set by `reset_n`. -/
def reset (P : BurstParams) : BurstCsr where
  ctrlStart := false
  ctrlDoneReg := false
  ctrlSrcAddr := 0
  ctrlDstAddr := 0
  ctrlLen := 0
  ctrlRdBurst := BitVec.ofNat 9 P.burstCount
  ctrlWrBurst := BitVec.ofNat 9 P.burstCount

/-- A length rounded up to whole read bursts:
`(len + (burst*4 - 1)) & ~(burst*4 - 1)`. -/
def padLen (rdBurst : BitVec 9) (len : BitVec 32) : BitVec 32 :=
  (len + (rdBurst.setWidth 32 * 4 - 1)) &&& ~~~(rdBurst.setWidth 32 * 4 - 1)

/-- The `case` on `avs_address`. -/
def write (s : BurstCsr) (i : AvsIn) : BurstCsr :=
  match i.avsAddress.toNat with
  | 0 => { s with ctrlStart := if i.avsWritedata.getLsbD 0 then true else s.ctrlStart }
  | 1 => { s with ctrlDoneReg := if i.avsWritedata.getLsbD 0 then false else s.ctrlDoneReg }
  | 2 => { s with ctrlSrcAddr := i.avsWritedata }
  | 3 => { s with ctrlDstAddr := i.avsWritedata }
  | 4 => { s with ctrlLen := padLen s.ctrlRdBurst i.avsWritedata }
  | 5 => { s with ctrlRdBurst := i.avsWritedata.setWidth 9 }
  | 6 => { s with ctrlWrBurst := i.avsWritedata.setWidth 9 }
  | _ => s

/-- One `clk` edge of the CSR block: the start pulse clears itself, a completion sets the
flag, and a write wins over both. -/
def step (s : BurstCsr) (internalDonePulse : Bool) (i : AvsIn) : BurstCsr :=
  let s1 := { s with
    ctrlStart := if s.ctrlStart then false else s.ctrlStart
    ctrlDoneReg := if internalDonePulse then true else s.ctrlDoneReg }
  if i.avsWrite then s1.write i else s1

/-- The start pulse answers a Start command one cycle later. -/
theorem step_ctrlStart (s : BurstCsr) (done : Bool) (i : AvsIn) :
    (s.step done i).ctrlStart = i.start := by
  have hzero : (i.avsAddress == 0) = decide (i.avsAddress.toNat = 0) := by
    rw [Bool.eq_iff_iff, beq_iff_eq, decide_eq_true_eq, ← BitVec.toNat_inj]
    rfl
  simp only [step, AvsIn.start, hzero]
  cases i.avsWrite with
  | false => cases hs : s.ctrlStart <;> simp
  | true =>
      simp only [if_true, Bool.true_and, write]
      split <;> cases hs : s.ctrlStart <;> cases hb : i.avsWritedata.getLsbD 0 <;> simp_all

/-- A write to the control or the status register, or none, keeps the programmed
transfer. -/
theorem step_config (s : BurstCsr) (done : Bool) {i : AvsIn}
    (hi : i.avsWrite = true → i.avsAddress = 0 ∨ i.avsAddress = 1) :
    (s.step done i).ctrlSrcAddr = s.ctrlSrcAddr ∧
      (s.step done i).ctrlDstAddr = s.ctrlDstAddr ∧
      (s.step done i).ctrlLen = s.ctrlLen ∧
      (s.step done i).ctrlRdBurst = s.ctrlRdBurst ∧
      (s.step done i).ctrlWrBurst = s.ctrlWrBurst := by
  cases hw : i.avsWrite with
  | false => simp [step, hw]
  | true =>
      have haddr : i.avsAddress.toNat = 0 ∨ i.avsAddress.toNat = 1 := by
        rcases hi hw with h0 | h1
        · left
          rw [h0]
          rfl
        · right
          rw [h1]
          rfl
      rcases haddr with haddr | haddr <;> simp [step, hw, write, haddr]

/-- The Done flag after the edge: a clear wins over a completion. -/
theorem step_ctrlDoneReg_eq (s : BurstCsr) (done : Bool) (i : AvsIn) :
    (s.step done i).ctrlDoneReg = (!i.clearsDone && (done || s.ctrlDoneReg)) := by
  have hone : (i.avsAddress == 1) = decide (i.avsAddress.toNat = 1) := by
    rw [Bool.eq_iff_iff, beq_iff_eq, decide_eq_true_eq, ← BitVec.toNat_inj]
    rfl
  simp only [step, AvsIn.clearsDone, hone]
  cases i.avsWrite with
  | false => cases done <;> simp
  | true =>
      simp only [if_true, Bool.true_and, write]
      split <;> cases done <;> cases hb : i.avsWritedata.getLsbD 0 <;> simp_all

/-- The Done flag rises only after a completion. -/
theorem step_ctrlDoneReg {s : BurstCsr} {done : Bool} {i : AvsIn}
    (h0 : s.ctrlDoneReg = false) (h1 : (s.step done i).ctrlDoneReg = true) :
    done = true := by
  rw [step_ctrlDoneReg_eq, h0, Bool.or_false, Bool.and_eq_true] at h1
  exact h1.2

/-- `avs_readdata` of `burst_master`. -/
def avsReaddata (s : BurstCsr) (avsAddress : BitVec 3) : BitVec 32 :=
  match avsAddress.toNat with
  | 0 => 0#31 ++ BitVec.ofBool s.ctrlStart
  | 1 => 0#31 ++ BitVec.ofBool s.ctrlDoneReg
  | 2 => s.ctrlSrcAddr
  | 3 => s.ctrlDstAddr
  | 4 => s.ctrlLen
  | 5 => 0#23 ++ s.ctrlRdBurst
  | 6 => 0#23 ++ s.ctrlWrBurst
  | _ => 0

/-- Bit 0 of the status register reads the Done flag. -/
theorem avsReaddata_done (s : BurstCsr) :
    (s.avsReaddata 1).getLsbD 0 = s.ctrlDoneReg := by
  have hbit : ∀ b : Bool, (0#31 ++ BitVec.ofBool b).getLsbD 0 = b := by decide
  exact hbit s.ctrlDoneReg

end BurstCsr

/-- The states of the read master. -/
inductive RmState where
  | idle
  | read
  | waitFifo
deriving DecidableEq, Repr

/-- The registers of the read master. -/
structure ReadMaster where
  rmState : RmState
  rmAddress : BitVec 32
  rmRead : Bool
  rmBurstcount : BitVec 9
  currentSrcAddr : BitVec 32
  readRemainingLen : BitVec 32
  pendingReads : BitVec 32
deriving DecidableEq, Repr

namespace ReadMaster

/-- The values set by `reset_n`. -/
def reset (P : BurstParams) : ReadMaster where
  rmState := .idle
  rmAddress := 0
  rmRead := false
  rmBurstcount := BitVec.ofNat 9 P.burstCount
  currentSrcAddr := 0
  readRemainingLen := 0
  pendingReads := 0

/-- The signals that the read master samples at one `clk` edge. -/
structure Inputs where
  csr : BurstCsr
  internalDonePulse : Bool
  fifoUsed : BitVec 32
  rmWaitrequest : Bool
  rmReaddatavalid : Bool

/-- `pending_reads` after the edge: an accepted command adds its burst, a
received word takes one off. -/
def pendingNext (m : ReadMaster) (i : Inputs) : BitVec 32 :=
  if m.rmState == .read && !i.rmWaitrequest then
    m.pendingReads + m.rmBurstcount.setWidth 32 - (if i.rmReaddatavalid then 1 else 0)
  else if i.rmReaddatavalid then
    if m.pendingReads > 0 then m.pendingReads - 1 else m.pendingReads
  else m.pendingReads

/-- The FIFO has room for one more burst behind the pending ones. -/
def room (P : BurstParams) (m : ReadMaster) (i : Inputs) : Bool :=
  i.fifoUsed + m.pendingReads + i.csr.ctrlRdBurst.setWidth 32 ≤
    BitVec.ofNat 32 P.fifoDepth

/-- The `case` on `rm_state`. -/
def fsm (P : BurstParams) (m : ReadMaster) (i : Inputs) : ReadMaster :=
  match m.rmState with
  | .idle =>
      if i.csr.ctrlStart then
        { m with
          currentSrcAddr := i.csr.ctrlSrcAddr
          readRemainingLen := i.csr.ctrlLen
          rmState := .waitFifo }
      else m
  | .waitFifo =>
      if m.readRemainingLen > 0 then
        if m.room P i then
          { m with
            rmAddress := m.currentSrcAddr
            rmRead := true
            rmBurstcount := i.csr.ctrlRdBurst
            rmState := .read }
        else m
      else m
  | .read =>
      if !i.rmWaitrequest then
        { m with
          rmRead := false
          currentSrcAddr := m.currentSrcAddr + i.csr.ctrlRdBurst.setWidth 32 * 4
          readRemainingLen := m.readRemainingLen - i.csr.ctrlRdBurst.setWidth 32 * 4
          rmState := .waitFifo }
      else m

/-- One `clk` edge of the read master of `burst_master`: the completion comes
last in the block, so it wins. -/
def step (P : BurstParams) (m : ReadMaster) (i : Inputs) : ReadMaster :=
  let m1 := { m.fsm P i with pendingReads := m.pendingNext i }
  if i.internalDonePulse then { m1 with rmState := .idle, pendingReads := 0 } else m1

/-- The `case` on `rm_state` of `burst_master_4`, which also checks the
completion in `WAIT_FIFO`. -/
def fsm4 (P : BurstParams) (m : ReadMaster) (i : Inputs) : ReadMaster :=
  match m.rmState with
  | .idle =>
      if i.csr.ctrlStart then
        { m with
          currentSrcAddr := i.csr.ctrlSrcAddr
          readRemainingLen := i.csr.ctrlLen
          rmState := .waitFifo }
      else m
  | .waitFifo =>
      let m1 :=
        if m.readRemainingLen > 0 then
          if m.room P i then
            { m with
              rmAddress := m.currentSrcAddr
              rmRead := true
              rmBurstcount := i.csr.ctrlRdBurst
              rmState := .read }
          else m
        else m
      if i.internalDonePulse then { m1 with rmState := .idle } else m1
  | .read =>
      if !i.rmWaitrequest then
        { m with
          rmRead := false
          currentSrcAddr := m.currentSrcAddr + i.csr.ctrlRdBurst.setWidth 32 * 4
          readRemainingLen := m.readRemainingLen - i.csr.ctrlRdBurst.setWidth 32 * 4
          rmState := .waitFifo }
      else m

/-- One `clk` edge of the read master of `burst_master_4`. -/
def step4 (P : BurstParams) (m : ReadMaster) (i : Inputs) : ReadMaster :=
  let m1 := { m.fsm4 P i with pendingReads := m.pendingNext i }
  if i.internalDonePulse then { m1 with rmState := .idle, pendingReads := 0 } else m1

/-- The second check of the completion changes nothing: the last one wins. -/
theorem step4_eq_step (P : BurstParams) (m : ReadMaster) (i : Inputs) :
    m.step4 P i = m.step P i := by
  cases hd : i.internalDonePulse with
  | false => cases hs : m.rmState <;> simp [step4, step, fsm4, fsm, hs, hd]
  | true => cases hs : m.rmState <;> simp [step4, step, fsm4, fsm, hs, hd]

section Step

variable {P : BurstParams} {m : ReadMaster} {i : Inputs}

/-- A completion sends the read master to `IDLE`. -/
theorem step_of_done (hd : i.internalDonePulse = true) :
    (m.step P i).rmState = .idle ∧ (m.step P i).pendingReads = 0 := by
  simp [step, hd]

theorem step_of_not_done (hd : i.internalDonePulse = false) :
    m.step P i = { m.fsm P i with pendingReads := m.pendingNext i } := by
  simp [step, hd]

/-- What the FSM can do in `IDLE`. -/
theorem fsm_idle (hs : m.rmState = .idle) :
    (i.csr.ctrlStart = true ∧
      m.fsm P i =
        { m with
          currentSrcAddr := i.csr.ctrlSrcAddr
          readRemainingLen := i.csr.ctrlLen
          rmState := .waitFifo }) ∨
    (i.csr.ctrlStart = false ∧ m.fsm P i = m) := by
  cases hc : i.csr.ctrlStart with
  | true =>
      left
      exact ⟨rfl, by simp only [fsm, hs, hc, if_true]⟩
  | false =>
      right
      exact ⟨rfl, by simp only [fsm, hs, hc, Bool.false_eq_true, if_false]⟩

/-- What the FSM can do in `WAIT_FIFO`. -/
theorem fsm_waitFifo (hs : m.rmState = .waitFifo) :
    (m.readRemainingLen > 0 ∧ m.room P i = true ∧
      m.fsm P i =
        { m with
          rmAddress := m.currentSrcAddr
          rmRead := true
          rmBurstcount := i.csr.ctrlRdBurst
          rmState := .read }) ∨
    ((m.readRemainingLen > 0 → m.room P i = false) ∧ m.fsm P i = m) := by
  by_cases hrem : m.readRemainingLen > 0
  · cases hroom : m.room P i with
    | true =>
        left
        exact ⟨hrem, rfl, by simp only [fsm, hs, hrem, hroom, if_true]⟩
    | false =>
        right
        exact ⟨fun _ => rfl, by simp only [fsm, hs, hrem, hroom, if_true, Bool.false_eq_true,
          if_false]⟩
  · right
    exact ⟨fun h => absurd h hrem, by simp only [fsm, hs, hrem, if_false]⟩

/-- What the FSM can do in `READ`. -/
theorem fsm_read (hs : m.rmState = .read) :
    (i.rmWaitrequest = false ∧
      m.fsm P i =
        { m with
          rmRead := false
          currentSrcAddr := m.currentSrcAddr + i.csr.ctrlRdBurst.setWidth 32 * 4
          readRemainingLen := m.readRemainingLen - i.csr.ctrlRdBurst.setWidth 32 * 4
          rmState := .waitFifo }) ∨
    (i.rmWaitrequest = true ∧ m.fsm P i = m) := by
  cases hw : i.rmWaitrequest with
  | false =>
      left
      exact ⟨rfl, by simp only [fsm, hs, hw, Bool.not_false, if_true]⟩
  | true =>
      right
      exact ⟨rfl, by simp only [fsm, hs, hw, Bool.not_true, Bool.false_eq_true, if_false]⟩

end Step

end ReadMaster

/-- The states of the write master. -/
inductive WmFsm where
  | wIdle
  | wWaitData
  | wBurst
deriving DecidableEq, Repr

/-- The registers of the write master. -/
structure WriteMaster where
  wmFsm : WmFsm
  wmWrite : Bool
  wmWordCnt : BitVec 9
  wmAddress : BitVec 32
  wmBurstcount : BitVec 9
  currentDstAddr : BitVec 32
  remainingLen : BitVec 32
  internalDonePulse : Bool
deriving DecidableEq, Repr

namespace WriteMaster

/-- The values set by `reset_n`. -/
def reset (P : BurstParams) : WriteMaster where
  wmFsm := .wIdle
  wmWrite := false
  wmWordCnt := 0
  wmAddress := 0
  wmBurstcount := BitVec.ofNat 9 P.burstCount
  currentDstAddr := 0
  remainingLen := 0
  internalDonePulse := false

/-- The signals that the write master samples at one `clk` edge. -/
structure Inputs where
  csr : BurstCsr
  fifoUsed : BitVec 32
  wmWaitrequest : Bool

/-- `fifo_rd_en`: a beat of the burst is taken. -/
def fifoRdEn (m : WriteMaster) (wmWaitrequest : Bool) : Bool :=
  m.wmFsm == .wBurst && !wmWaitrequest && m.wmWordCnt < m.wmBurstcount

/-- The beat in progress is the last one of its burst:
`wm_word_cnt == wm_burstcount - 1`, compared in 32 bits. -/
def lastBeat (m : WriteMaster) : Bool :=
  m.wmWordCnt.setWidth 32 == m.wmBurstcount.setWidth 32 - 1

/-- One `clk` edge of the write master. -/
def step (m : WriteMaster) (i : Inputs) : WriteMaster :=
  let m0 := { m with internalDonePulse := false }
  match m.wmFsm with
  | .wIdle =>
      let m1 := { m0 with wmWrite := false }
      if i.csr.ctrlStart then
        { m1 with
          currentDstAddr := i.csr.ctrlDstAddr
          remainingLen := i.csr.ctrlLen
          wmFsm := .wWaitData }
      else m1
  | .wWaitData =>
      let m1 := { m0 with wmWrite := false }
      if m.remainingLen = 0 then
        { m1 with internalDonePulse := true, wmFsm := .wIdle }
      else if i.csr.ctrlWrBurst.setWidth 32 ≤ i.fifoUsed then
        { m1 with
          wmAddress := m.currentDstAddr
          wmBurstcount := i.csr.ctrlWrBurst
          wmWrite := true
          wmWordCnt := 0
          wmFsm := .wBurst }
      else m1
  | .wBurst =>
      if !i.wmWaitrequest then
        if m.lastBeat then
          { m0 with
            wmWrite := false
            currentDstAddr := m.currentDstAddr + m.wmBurstcount.setWidth 32 * 4
            remainingLen := m.remainingLen - m.wmBurstcount.setWidth 32 * 4
            wmFsm := .wWaitData }
        else { m0 with wmWordCnt := m.wmWordCnt + 1 }
      else m0

section Step

variable {m : WriteMaster} {i : Inputs}

/-- What the write master can do in `W_IDLE`. -/
theorem step_wIdle (hs : m.wmFsm = .wIdle) :
    (i.csr.ctrlStart = true ∧
      m.step i =
        { m with
          internalDonePulse := false
          wmWrite := false
          currentDstAddr := i.csr.ctrlDstAddr
          remainingLen := i.csr.ctrlLen
          wmFsm := .wWaitData }) ∨
    (i.csr.ctrlStart = false ∧
      m.step i = { m with internalDonePulse := false, wmWrite := false }) := by
  cases hc : i.csr.ctrlStart with
  | true =>
      left
      exact ⟨rfl, by simp only [step, hs, hc, if_true]⟩
  | false =>
      right
      exact ⟨rfl, by simp only [step, hs, hc, Bool.false_eq_true, if_false]⟩

/-- What the write master can do in `W_WAIT_DATA`. -/
theorem step_wWaitData (hs : m.wmFsm = .wWaitData) :
    (m.remainingLen = 0 ∧
      m.step i =
        { m with internalDonePulse := true, wmWrite := false, wmFsm := .wIdle }) ∨
    (m.remainingLen ≠ 0 ∧ i.csr.ctrlWrBurst.setWidth 32 ≤ i.fifoUsed ∧
      m.step i =
        { m with
          internalDonePulse := false
          wmAddress := m.currentDstAddr
          wmBurstcount := i.csr.ctrlWrBurst
          wmWrite := true
          wmWordCnt := 0
          wmFsm := .wBurst }) ∨
    (m.remainingLen ≠ 0 ∧ ¬ i.csr.ctrlWrBurst.setWidth 32 ≤ i.fifoUsed ∧
      m.step i = { m with internalDonePulse := false, wmWrite := false }) := by
  by_cases hrem : m.remainingLen = 0
  · left
    exact ⟨hrem, by simp only [step, hs, hrem, if_true]⟩
  · by_cases hused : i.csr.ctrlWrBurst.setWidth 32 ≤ i.fifoUsed
    · right
      left
      exact ⟨hrem, hused, by simp only [step, hs, hrem, hused, if_true, if_false]⟩
    · right
      right
      exact ⟨hrem, hused, by simp only [step, hs, hrem, hused, if_false]⟩

/-- What the write master can do in `W_BURST`. -/
theorem step_wBurst (hs : m.wmFsm = .wBurst) :
    (i.wmWaitrequest = false ∧ m.lastBeat = true ∧
      m.step i =
        { m with
          internalDonePulse := false
          wmWrite := false
          currentDstAddr := m.currentDstAddr + m.wmBurstcount.setWidth 32 * 4
          remainingLen := m.remainingLen - m.wmBurstcount.setWidth 32 * 4
          wmFsm := .wWaitData }) ∨
    (i.wmWaitrequest = false ∧ m.lastBeat = false ∧
      m.step i =
        { m with internalDonePulse := false, wmWordCnt := m.wmWordCnt + 1 }) ∨
    (i.wmWaitrequest = true ∧ m.step i = { m with internalDonePulse := false }) := by
  cases hw : i.wmWaitrequest with
  | true =>
      right
      right
      exact ⟨rfl, by simp only [step, hs, hw, Bool.not_true, Bool.false_eq_true, if_false]⟩
  | false =>
      cases hl : m.lastBeat with
      | true =>
          left
          exact ⟨rfl, rfl, by simp only [step, hs, hw, hl, Bool.not_false, if_true]⟩
      | false =>
          right
          left
          exact ⟨rfl, rfl, by simp only [step, hs, hw, hl, Bool.not_false, if_true,
            Bool.false_eq_true, if_false]⟩

end Step

end WriteMaster

/-- The registers of the shared control code. -/
structure BurstControl where
  csr : BurstCsr
  rm : ReadMaster
  wm : WriteMaster
deriving DecidableEq, Repr

namespace BurstControl

/-- What the control code samples at one `clk` edge. -/
structure Inputs where
  avs : AvsIn
  rmWaitrequest : Bool
  rmReaddatavalid : Bool
  wmWaitrequest : Bool
  rdUsed : BitVec 32
  wrUsed : BitVec 32

/-- The values set by `reset_n`. -/
def reset (P : BurstParams) : BurstControl where
  csr := BurstCsr.reset P
  rm := ReadMaster.reset P
  wm := WriteMaster.reset P

/-- The inputs of the read master. -/
def rmInputs (s : BurstControl) (i : Inputs) : ReadMaster.Inputs where
  csr := s.csr
  internalDonePulse := s.wm.internalDonePulse
  fifoUsed := i.rdUsed
  rmWaitrequest := i.rmWaitrequest
  rmReaddatavalid := i.rmReaddatavalid

/-- The inputs of the write master. -/
def wmInputs (s : BurstControl) (i : Inputs) : WriteMaster.Inputs where
  csr := s.csr
  fifoUsed := i.wrUsed
  wmWaitrequest := i.wmWaitrequest

/-- One `clk` edge of the control code of `burst_master`. -/
def step (P : BurstParams) (s : BurstControl) (i : Inputs) : BurstControl where
  csr := s.csr.step s.wm.internalDonePulse i.avs
  rm := s.rm.step P (s.rmInputs i)
  wm := s.wm.step (s.wmInputs i)

/-- One `clk` edge of the control code of `burst_master_4`. -/
def step4 (P : BurstParams) (s : BurstControl) (i : Inputs) : BurstControl where
  csr := s.csr.step s.wm.internalDonePulse i.avs
  rm := s.rm.step4 P (s.rmInputs i)
  wm := s.wm.step (s.wmInputs i)

theorem step4_eq_step (P : BurstParams) (s : BurstControl) (i : Inputs) :
    s.step4 P i = s.step P i := by
  rw [step4, step, ReadMaster.step4_eq_step]

end BurstControl
end VideoProcessing
