import VideoProcessing.Lib.Run
import VideoProcessing.Avalon.WordAddrs

/-!
# `video_dma_master` and the memory it reads

The DMA master fetches one frame per trigger: it issues read bursts of
`BURST_LEN` words while the FIFO has room and counts the words that come back.
`VideoDmaMaster` holds its registers and `VideoDmaMaster.step` is one `clk`
edge, one function per `always` block.

`DmaBus` closes the module with an in-order Avalon read slave: the slave owes
the words of the accepted bursts, oldest first, and may return the oldest one in
any later cycle.  The environment chooses `m_waitrequest` and the cycles and the
contents of the returned words.

`pending_bursts` is written only by the reset and read nowhere, so it is left
out.
-/

namespace VideoProcessing

/-- `parameter BURST_LEN = 8'd64`. -/
def burstLen : BitVec 8 := 64

/-- `parameter FIFO_DEPTH = 512`. -/
def fifoDepth : BitVec 32 := 512

/-- The states of the control FSM. -/
inductive DmaState where
  | idle
  | checkFifo
  | issueRead
  | waitEnd
deriving DecidableEq, Repr

/-- The registers of `video_dma_master`. -/
structure VideoDmaMaster where
  state : DmaState
  mAddress : BitVec 32
  mRead : Bool
  currentReadAddr : BitVec 32
  wordsCommanded : BitVec 32
  wordsReceived : BitVec 32
  isContMode : Bool
  frameActive : Bool
  dmaDone : Bool
deriving DecidableEq, Repr

namespace VideoDmaMaster

/-- The input ports sampled by one `clk` edge. -/
structure Inputs where
  startAddr : BitVec 32
  dmaStart : Bool
  dmaContEn : Bool
  vsyncEdge : Bool
  mWaitrequest : Bool
  mReaddata : BitVec 32
  mReaddatavalid : Bool
  fifoUsed : BitVec 9

/-- The values set by `reset_n`. -/
def reset : VideoDmaMaster where
  state := .idle
  mAddress := 0
  mRead := false
  currentReadAddr := 0
  wordsCommanded := 0
  wordsReceived := 0
  isContMode := false
  frameActive := false
  dmaDone := false

/-- `assign busy = frame_active`. -/
def busy (m : VideoDmaMaster) : Bool := m.frameActive

/-- `assign m_burstcount = BURST_LEN`. -/
def mBurstcount (_ : VideoDmaMaster) : BitVec 8 := burstLen

/-- `assign fifo_wr_en = m_readdatavalid`. -/
def fifoWrEn (i : Inputs) : Bool := i.mReaddatavalid

/-- `assign fifo_wr_data = m_readdata`. -/
def fifoWrData (i : Inputs) : BitVec 32 := i.mReaddata

/-- A frame is requested: `dma_start`, or `dma_cont_en` with `vsync_edge`. -/
def Inputs.trigger (i : Inputs) : Bool :=
  i.dmaStart || (i.dmaContEn && i.vsyncEdge)

/-- The overflow check of `CHECK_FIFO`: the used and the pending words leave
room for one more burst. -/
def room (m : VideoDmaMaster) (i : Inputs) : Bool :=
  i.fifoUsed.setWidth 32 + (m.wordsCommanded - m.wordsReceived) ≤
    fifoDepth - burstLen.setWidth 32 - 2

/-- The registers written by the control FSM, all but `words_received` and `dma_done`.  The
emergency stop comes last in the block of `IDLE`, so it wins. -/
def control (frameSizeWords : BitVec 32) (m : VideoDmaMaster) (i : Inputs) :
    VideoDmaMaster :=
  match m.state with
  | .idle =>
      let m1 := { m with mRead := false, wordsCommanded := 0 }
      let m2 :=
        if i.dmaStart then
          { m1 with
            currentReadAddr := i.startAddr
            isContMode := false
            frameActive := true
            state := .checkFifo }
        else if i.dmaContEn && i.vsyncEdge then
          { m1 with
            currentReadAddr := i.startAddr
            isContMode := true
            frameActive := true
            state := .checkFifo }
        else { m1 with frameActive := false }
      if m.isContMode && !i.dmaContEn then { m2 with isContMode := false } else m2
  | .checkFifo =>
      let m1 := { m with mRead := false }
      if m.wordsCommanded ≥ frameSizeWords then { m1 with state := .waitEnd }
      else if m.room i then
        { m1 with
          mAddress := m.currentReadAddr
          mRead := true
          state := .issueRead }
      else m1
  | .issueRead =>
      if !i.mWaitrequest then
        { m with
          mRead := false
          currentReadAddr := m.currentReadAddr + burstLen.setWidth 32 * 4
          wordsCommanded := m.wordsCommanded + burstLen.setWidth 32
          state := .checkFifo }
      else m
  | .waitEnd =>
      let m1 := { m with mRead := false }
      if m.wordsReceived ≥ frameSizeWords then
        { m1 with state := .idle, frameActive := false }
      else m1

/-- The data receiver: `words_received` after the edge. -/
def receiver (m : VideoDmaMaster) (i : Inputs) : BitVec 32 :=
  if i.mReaddatavalid then m.wordsReceived + 1
  else if m.state = .idle ∧ i.trigger then 0
  else m.wordsReceived

/-- The done pulse: `dma_done` after the edge. -/
def donePulse (frameSizeWords : BitVec 32) (m : VideoDmaMaster) (i : Inputs) : Bool :=
  i.mReaddatavalid && m.wordsReceived == frameSizeWords - 1

/-- One `clk` edge of `video_dma_master`. -/
def step (frameSizeWords : BitVec 32) (m : VideoDmaMaster) (i : Inputs) :
    VideoDmaMaster :=
  { m.control frameSizeWords i with
    wordsReceived := m.receiver i
    dmaDone := m.donePulse frameSizeWords i }

section Control

variable {N : BitVec 32} {m : VideoDmaMaster} {i : Inputs}

/-- What the FSM can do in `IDLE`. -/
theorem control_idle (hs : m.state = .idle) :
    (i.trigger = true ∧ ∃ cont, m.control N i =
      { m with
        mRead := false
        wordsCommanded := 0
        currentReadAddr := i.startAddr
        isContMode := cont
        frameActive := true
        state := .checkFifo }) ∨
    (i.trigger = false ∧ ∃ cont, m.control N i =
      { m with
        mRead := false
        wordsCommanded := 0
        isContMode := cont
        frameActive := false }) := by
  simp only [control, hs, Inputs.trigger]
  cases hstart : i.dmaStart with
  | true =>
      left
      refine ⟨rfl, ?_⟩
      split <;> exact ⟨_, rfl⟩
  | false =>
      cases hvs : i.dmaContEn && i.vsyncEdge with
      | true =>
          left
          refine ⟨rfl, ?_⟩
          split <;> exact ⟨_, rfl⟩
      | false =>
          right
          refine ⟨rfl, ?_⟩
          split
          · exact ⟨false, by simp⟩
          · exact ⟨m.isContMode, by simp⟩

/-- What the FSM can do in `CHECK_FIFO`. -/
theorem control_checkFifo (hs : m.state = .checkFifo) :
    (N ≤ m.wordsCommanded ∧
      m.control N i = { m with mRead := false, state := .waitEnd }) ∨
    (¬ N ≤ m.wordsCommanded ∧ m.room i = true ∧
      m.control N i =
        { m with mRead := true, mAddress := m.currentReadAddr, state := .issueRead }) ∨
    (¬ N ≤ m.wordsCommanded ∧ m.room i = false ∧
      m.control N i = { m with mRead := false }) := by
  by_cases hall : N ≤ m.wordsCommanded
  · left
    exact ⟨hall, by simp only [control, hs, ge_iff_le, hall, if_true]⟩
  · right
    cases hroom : m.room i with
    | true =>
        left
        refine ⟨hall, rfl, ?_⟩
        simp only [control, hs, ge_iff_le, hall, if_false, hroom, if_true]
    | false =>
        right
        refine ⟨hall, rfl, ?_⟩
        simp only [control, hs, ge_iff_le, hall, if_false, hroom, Bool.false_eq_true]

/-- What the FSM can do in `ISSUE_READ`. -/
theorem control_issueRead (hs : m.state = .issueRead) :
    (i.mWaitrequest = false ∧
      m.control N i =
        { m with
          mRead := false
          currentReadAddr := m.currentReadAddr + 256
          wordsCommanded := m.wordsCommanded + 64
          state := .checkFifo }) ∨
    (i.mWaitrequest = true ∧ m.control N i = m) := by
  cases hw : i.mWaitrequest with
  | false =>
      left
      refine ⟨rfl, ?_⟩
      simp only [control, hs, hw, Bool.not_false, if_true]
      rfl
  | true =>
      right
      exact ⟨rfl,
        by simp only [control, hs, hw, Bool.not_true, Bool.false_eq_true, if_false]⟩

/-- What the FSM can do in `WAIT_END`. -/
theorem control_waitEnd (hs : m.state = .waitEnd) :
    (N ≤ m.wordsReceived ∧
      m.control N i =
        { m with mRead := false, state := .idle, frameActive := false }) ∨
    (¬ N ≤ m.wordsReceived ∧ m.control N i = { m with mRead := false }) := by
  by_cases hall : N ≤ m.wordsReceived
  · left
    exact ⟨hall, by simp only [control, hs, ge_iff_le, hall, if_true]⟩
  · right
    exact ⟨hall, by simp only [control, hs, ge_iff_le, hall, if_false]⟩

end Control

end VideoDmaMaster

/-- The DMA master with the words that the read slave still owes it, oldest
first. -/
structure DmaBus where
  dma : VideoDmaMaster
  owed : List (BitVec 32)
deriving DecidableEq, Repr

namespace DmaBus

/-- One cycle of the environment: the control inputs, the FIFO level, whether
the slave stalls, and the word it would return if it owes one. -/
structure Cycle where
  startAddr : BitVec 32
  dmaStart : Bool
  dmaContEn : Bool
  vsyncEdge : Bool
  fifoUsed : BitVec 9
  mWaitrequest : Bool
  ret : Option (BitVec 32)

/-- After reset nothing is owed. -/
def init : DmaBus where
  dma := VideoDmaMaster.reset
  owed := []

/-- The word returned in this cycle, with the address it was read from. -/
def returned (s : DmaBus) (c : Cycle) : Option (BitVec 32 × BitVec 32) :=
  match s.owed, c.ret with
  | a :: _, some d => some (a, d)
  | _, _ => none

/-- The ports of the DMA master in this cycle. -/
def inputs (s : DmaBus) (c : Cycle) : VideoDmaMaster.Inputs where
  startAddr := c.startAddr
  dmaStart := c.dmaStart
  dmaContEn := c.dmaContEn
  vsyncEdge := c.vsyncEdge
  mWaitrequest := c.mWaitrequest
  mReaddata := ((s.returned c).map Prod.snd).getD 0
  mReaddatavalid := (s.returned c).isSome
  fifoUsed := c.fifoUsed

/-- The address of the read command accepted in this cycle: `m_read` is high
and the slave does not stall. -/
def accepted (s : DmaBus) (c : Cycle) : Option (BitVec 32) :=
  if s.dma.mRead && !c.mWaitrequest then some s.dma.mAddress else none

/-- The words owed after this cycle: a returned word leaves in front, the words
of an accepted burst queue up behind. -/
def owedNext (s : DmaBus) (c : Cycle) : List (BitVec 32) :=
  (if (s.returned c).isSome then s.owed.tail else s.owed) ++
    match s.accepted c with
    | some a => wordAddrs a s.dma.mBurstcount.toNat
    | none => []

/-- One clock cycle of the DMA master and the slave. -/
def step (frameSizeWords : BitVec 32) (s : DmaBus) (c : Cycle) : DmaBus where
  dma := s.dma.step frameSizeWords (s.inputs c)
  owed := s.owedNext c

/-- A trigger is accepted: the FSM is in `IDLE` and a frame is requested. -/
def triggers (s : DmaBus) (c : Cycle) : Bool :=
  s.dma.state == .idle && (s.inputs c).trigger

/-- The read commands accepted over a log, oldest first. -/
def commands (l : List (DmaBus × Cycle)) : List (BitVec 32) :=
  l.filterMap fun p => p.1.accepted p.2

/-- The words pushed to the FIFO over a log with their addresses, oldest first. -/
def pushed (l : List (DmaBus × Cycle)) : List (BitVec 32 × BitVec 32) :=
  l.filterMap fun p => p.1.returned p.2

end DmaBus
end VideoProcessing
