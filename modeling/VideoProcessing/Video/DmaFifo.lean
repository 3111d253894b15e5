import VideoProcessing.Fifo.DcfifoQueue
import VideoProcessing.Video.DmaFrame

/-!
# The video DMA in front of the dual-clock FIFO

`DmaFifo` wires `video_dma_master` to `simple_dcfifo` as `video_pipeline` does:
a returned word is written to the FIFO in the cycle it arrives, and `fifo_used`
is `wrusedw`.  The read side of the FIFO, the control inputs of the DMA and the
slave are left to the environment.

`dma_never_overflows` is the flow-control theorem: the FIFO never holds, and the
slave never owes, more words together than fit.
-/

namespace VideoProcessing

open Lib

/-- The DMA master, its read slave and the 512-word FIFO. -/
structure DmaFifo where
  bus : DmaBus
  fifo : SimpleDcfifo 32 9

namespace DmaFifo

/-- What the environment does at a `clk_50` edge. -/
structure ClkIn where
  startAddr : BitVec 32
  dmaStart : Bool
  dmaContEn : Bool
  vsyncEdge : Bool
  mWaitrequest : Bool
  ret : Option (BitVec 32)

/-- An edge of `clk_50`, of `clk_hdmi`, or of both at the same instant; in the
last case with the bits of the two gray pointers that are sampled new. -/
inductive Event where
  | clk50 (c : ClkIn)
  | clkHdmi (rdreq : Bool)
  | both (c : ClkIn) (rdreq : Bool) (rdMask wrMask : BitVec 10)

/-- Reset DMA, empty FIFO with unknown memory. -/
def init (mem0 : BitVec 9 → BitVec 32) : DmaFifo where
  bus := DmaBus.init
  fifo := SimpleDcfifo.init mem0

/-- The DMA cycle of a `clk_50` edge: `fifo_used` is `wrusedw`. -/
def cycle (s : DmaFifo) (c : ClkIn) : DmaBus.Cycle where
  startAddr := c.startAddr
  dmaStart := c.dmaStart
  dmaContEn := c.dmaContEn
  vsyncEdge := c.vsyncEdge
  fifoUsed := s.fifo.wr.wrusedw
  mWaitrequest := c.mWaitrequest
  ret := c.ret

/-- The ports of the DMA master at a `clk_50` edge. -/
def inputs (s : DmaFifo) (c : ClkIn) : VideoDmaMaster.Inputs :=
  s.bus.inputs (s.cycle c)

/-- The DMA cycles of an event. -/
def cycles (s : DmaFifo) : Event → List DmaBus.Cycle
  | .clk50 c => [s.cycle c]
  | .clkHdmi _ => []
  | .both c _ _ _ => [s.cycle c]

/-- The FIFO edge of an event: `wrreq` is `fifo_wr_en`, `data` is
`fifo_wr_data`. -/
def fifoEdge (s : DmaFifo) : Event → SimpleDcfifo.Edge 32 9
  | .clk50 c =>
      .wrclk (VideoDmaMaster.fifoWrEn (s.inputs c)) (VideoDmaMaster.fifoWrData (s.inputs c))
  | .clkHdmi rdreq => .rdclk rdreq
  | .both c rdreq rdMask wrMask =>
      .both (VideoDmaMaster.fifoWrEn (s.inputs c)) (VideoDmaMaster.fifoWrData (s.inputs c))
        rdreq rdMask wrMask

/-- One event of the DMA and the FIFO. -/
def step (frameSizeWords : BitVec 32) (s : DmaFifo) (e : Event) : DmaFifo where
  bus := run (DmaBus.step frameSizeWords) s.bus (s.cycles e)
  fifo := s.fifo.step (s.fifoEdge e)

/-- The event asserts `fifo_wr_en`. -/
def wrEn (s : DmaFifo) (e : Event) : Bool :=
  match e with
  | .clk50 c => VideoDmaMaster.fifoWrEn (s.inputs c)
  | .clkHdmi _ => false
  | .both c _ _ _ => VideoDmaMaster.fifoWrEn (s.inputs c)

/-- The FIFO part of a log. -/
def fifoLog (l : List (DmaFifo × Event)) :
    List (SimpleDcfifo 32 9 × SimpleDcfifo.Edge 32 9) :=
  l.map fun p => (p.1.fifo, p.1.fifoEdge p.2)

/-- The DMA part of a log. -/
def busLog (frameSizeWords : BitVec 32) (l : List (DmaFifo × Event)) :
    List (DmaBus × DmaBus.Cycle) :=
  l.flatMap fun p => log (DmaBus.step frameSizeWords) p.1.bus (p.1.cycles p.2)

/-- The words accepted by the FIFO over a log, oldest first. -/
def written (l : List (DmaFifo × Event)) : List (BitVec 32) :=
  SimpleDcfifo.writes (fifoLog l)

/-- The words read from the FIFO over a log, oldest first. -/
def taken (l : List (DmaFifo × Event)) : List (BitVec 32) :=
  SimpleDcfifo.reads (fifoLog l)

section Projections

variable {N : BitVec 32}

theorem run_bus (s : DmaFifo) (es : List Event) :
    (run (step N) s es).bus =
      run (DmaBus.step N) s.bus ((log (step N) s es).flatMap fun p => p.1.cycles p.2) :=
  run_project (π := DmaFifo.bus) (fun _ _ => rfl) s es

theorem log_bus (s : DmaFifo) (es : List Event) :
    busLog N (log (step N) s es) =
      log (DmaBus.step N) s.bus ((log (step N) s es).flatMap fun p => p.1.cycles p.2) :=
  (log_project (π := DmaFifo.bus) (fun _ _ => rfl) s es).symm

end Projections

variable {N : BitVec 32}

section Credit

/-- The flow-control invariant: with the reads that the write side knows of,
the stored and the owed words stay below the limit. -/
structure Credit (N : BitVec 32) (s : DmaFifo) (ws rs : List (BitVec 32)) : Prop where
  settled : DmaBus.Settled N s.bus
  bound : ∃ r2 r1 w2 w1, SimpleDcfifo.Synced s.fifo ws rs r2 r1 w2 w1 ∧
    ws.length + s.bus.owed.length ≤ r2 + DmaBus.limit s.bus.dma

theorem credit_init (mem0 : BitVec 9 → BitVec 32) : Credit N (init mem0) [] [] := by
  obtain ⟨r2, r1, w2, w1, h⟩ := SimpleDcfifo.tracks_init mem0
  exact ⟨Or.inl DmaBus.idle_init, r2, r1, w2, w1, h, by simp [init, DmaBus.init]⟩

variable {s : DmaFifo} {ws rs : List (BitVec 32)}

/-- With credit the FIFO is not full. -/
theorem Credit.wrfull (h : Credit N s ws rs) : s.fifo.wr.wrfull = false := by
  obtain ⟨r2, r1, w2, w1, hsync, hbound⟩ := h.bound
  have hr2 := hsync.r2_le
  have hr1 := hsync.r1_le
  have hrw := hsync.reads_le
  have hw2 := hsync.w2_le
  have hw1 := hsync.w1_le
  have hlimit : DmaBus.limit s.bus.dma ≤ 510 := by
    rw [DmaBus.limit]
    split <;> omega
  by_contra hfull
  rw [Bool.not_eq_false] at hfull
  have := (hsync.wr.wrfull_iff (by omega) (by omega) hsync.cap).1 hfull
  omega

/-- Every event keeps the credit. -/
theorem Credit.step (hpos : 0 < N.toNat) (hdvd : 64 ∣ N.toNat) (h : Credit N s ws rs)
    (e : Event) :
    Credit N (s.step N e) (ws ++ (SimpleDcfifo.acceptedWrite s.fifo (s.fifoEdge e)).toList)
      (rs ++ (SimpleDcfifo.acceptedRead s.fifo (s.fifoEdge e)).toList) := by
  have hfull := h.wrfull
  obtain ⟨r2, r1, w2, w1, hsync, hbound⟩ := h.bound
  obtain ⟨r2', r1', w2', w1', ⟨hmono, _⟩, hsync'⟩ := hsync.step (by omega) (s.fifoEdge e)
  have hr2 := hsync.r2_le
  have hr1 := hsync.r1_le
  have hrw := hsync.reads_le
  have hw2 := hsync.w2_le
  have hw1 := hsync.w1_le
  have hcycle : ∀ c : ClkIn,
      DmaBus.Settled N (s.bus.step N (s.cycle c)) ∧
      ws.length + (VideoDmaMaster.fifoWrEn (s.inputs c)).toNat +
        (s.bus.step N (s.cycle c)).owed.length ≤
          r2 + DmaBus.limit (s.bus.step N (s.cycle c)).dma := by
    intro c
    have hused : (s.cycle c).fifoUsed.toNat = min (ws.length - r2) 511 :=
      hsync.wr.wrusedw_toNat (by omega) hsync.cap
    have hcredit := h.settled.credit_step hdvd hused (by omega)
    refine ⟨DmaBus.Settled.step hpos hdvd h.settled _, ?_⟩
    have hret : (VideoDmaMaster.fifoWrEn (s.inputs c)).toNat =
        (s.bus.returned (s.cycle c)).isSome.toNat := rfl
    rw [hret]
    omega
  have haccept : ∀ b : Bool, s.fifo.wr.accepts b = b := by
    intro b
    simp [SimpleDcfifo.WrSide.accepts, hfull]
  cases e with
  | clk50 c =>
      obtain ⟨hset, hlen⟩ := hcycle c
      refine ⟨hset, r2', r1', w2', w1', hsync', ?_⟩
      have hbus : (s.step N (.clk50 c)).bus = s.bus.step N (s.cycle c) := rfl
      rw [hbus]
      simp only [fifoEdge, SimpleDcfifo.acceptedWrite, haccept]
      cases hw : VideoDmaMaster.fifoWrEn (s.inputs c) <;> rw [hw] at hlen <;>
        simp at hlen ⊢ <;> omega
  | clkHdmi rdreq =>
      refine ⟨h.settled, r2', r1', w2', w1', hsync', ?_⟩
      have hbus : (s.step N (.clkHdmi rdreq)).bus = s.bus := rfl
      rw [hbus]
      simp only [fifoEdge, SimpleDcfifo.acceptedWrite, Option.toList_none, List.append_nil]
      omega
  | both c rdreq rdMask wrMask =>
      obtain ⟨hset, hlen⟩ := hcycle c
      refine ⟨hset, r2', r1', w2', w1', hsync', ?_⟩
      have hbus : (s.step N (.both c rdreq rdMask wrMask)).bus =
          s.bus.step N (s.cycle c) := rfl
      rw [hbus]
      simp only [fifoEdge, SimpleDcfifo.acceptedWrite, haccept]
      cases hw : VideoDmaMaster.fifoWrEn (s.inputs c) <;> rw [hw] at hlen <;>
        simp at hlen ⊢ <;> omega

end Credit

theorem fifoLog_snoc (l : List (DmaFifo × Event)) (s : DmaFifo) (e : Event) :
    fifoLog (l ++ [(s, e)]) = fifoLog l ++ [(s.fifo, s.fifoEdge e)] := by
  simp [fifoLog]

/-- The credit holds along every run from power-up. -/
theorem credit_run (hpos : 0 < N.toNat) (hdvd : 64 ∣ N.toNat)
    (mem0 : BitVec 9 → BitVec 32) (es : List Event) :
    Credit N (run (step N) (init mem0) es) (written (log (step N) (init mem0) es))
      (taken (log (step N) (init mem0) es)) := by
  refine log_invariant (P := fun s l => Credit N s (written l) (taken l)) ?_ ?_ es
  · exact credit_init mem0
  · intro s l e h
    rw [written, taken, fifoLog_snoc, SimpleDcfifo.writes_snoc, SimpleDcfifo.reads_snoc]
    exact h.step hpos hdvd e

section Words

theorem written_snoc (l : List (DmaFifo × Event)) (s : DmaFifo) (e : Event) :
    written (l ++ [(s, e)]) =
      written l ++ (SimpleDcfifo.acceptedWrite s.fifo (s.fifoEdge e)).toList := by
  rw [written, fifoLog_snoc, SimpleDcfifo.writes_snoc]
  rfl

theorem busLog_snoc (l : List (DmaFifo × Event)) (s : DmaFifo) (e : Event) :
    busLog N (l ++ [(s, e)]) = busLog N l ++ log (DmaBus.step N) s.bus (s.cycles e) := by
  simp [busLog]

/-- A `clk_50` edge writes the word that the slave returns, unless the FIFO is full. -/
theorem accepted_clk (s : DmaFifo) (c : ClkIn) :
    (if s.fifo.wr.accepts (VideoDmaMaster.fifoWrEn (s.inputs c)) then
      some (VideoDmaMaster.fifoWrData (s.inputs c)) else none) =
    if s.fifo.wr.wrfull then none else (s.bus.returned (s.cycle c)).map Prod.snd := by
  change (if (s.bus.returned (s.cycle c)).isSome && !s.fifo.wr.wrfull then
    some (((s.bus.returned (s.cycle c)).map Prod.snd).getD 0) else none) = _
  cases s.bus.returned (s.cycle c) <;> cases s.fifo.wr.wrfull <;> simp

/-- A returned word reaches the FIFO when it is not full. -/
theorem acceptedWrite_eq (s : DmaFifo) (hfull : s.fifo.wr.wrfull = false) (e : Event) :
    (SimpleDcfifo.acceptedWrite s.fifo (s.fifoEdge e)).toList =
      (DmaBus.pushed (log (DmaBus.step N) s.bus (s.cycles e))).map Prod.snd := by
  have hcycle := fun c => s.accepted_clk c
  simp only [hfull, Bool.false_eq_true, if_false] at hcycle
  cases e with
  | clk50 c =>
      simp only [fifoEdge, SimpleDcfifo.acceptedWrite, hcycle, cycles, log_cons, log_nil]
      cases h : s.bus.returned (s.cycle c) <;> simp [DmaBus.pushed, h]
  | clkHdmi rdreq => rfl
  | both c rdreq rdMask wrMask =>
      simp only [fifoEdge, SimpleDcfifo.acceptedWrite, hcycle, cycles, log_cons, log_nil]
      cases h : s.bus.returned (s.cycle c) <;> simp [DmaBus.pushed, h]

/-- No returned word is dropped. -/
theorem written_eq_pushed (hpos : 0 < N.toNat) (hdvd : 64 ∣ N.toNat)
    (mem0 : BitVec 9 → BitVec 32) (es : List Event) :
    written (log (step N) (init mem0) es) =
      (DmaBus.pushed (busLog N (log (step N) (init mem0) es))).map Prod.snd := by
  induction es using List.reverseRecOn with
  | nil => rfl
  | append_singleton es e ih =>
      have hfull := (credit_run hpos hdvd mem0 es).wrfull
      rw [log_snoc, written_snoc, busLog_snoc, ih, DmaBus.pushed_append, List.map_append,
        acceptedWrite_eq (N := N) _ hfull]

end Words

/-- `FRAME_SIZE_WORDS = H_RES * V_RES` as `video_pipeline` sets them. -/
def frameSizeWords : BitVec 32 := 960 * 540

theorem frameSizeWords_pos : 0 < frameSizeWords.toNat := by decide

theorem frameSizeWords_dvd : 64 ∣ frameSizeWords.toNat := by decide

/-- **The video DMA never overflows the dual-clock FIFO.**  In every state
reached from power-up: outside `IDLE` the difference of the two word counters is
the number of words that are accepted and not yet returned; in `IDLE` there are
none; stored and owed words together are at most 510; and so no write meets a
full FIFO and every returned word is stored. -/
theorem dma_never_overflows (mem0 : BitVec 9 → BitVec 32) (es : List Event) :
    let s := run (step frameSizeWords) (init mem0) es
    let l := log (step frameSizeWords) (init mem0) es
    let bl := busLog frameSizeWords l
    burstLen.toNat * (DmaBus.commands bl).length =
      (DmaBus.pushed bl).length + s.bus.owed.length ∧
    (s.bus.dma.state ≠ .idle →
      (s.bus.dma.wordsCommanded - s.bus.dma.wordsReceived).toNat = s.bus.owed.length ∧
        s.bus.dma.wordsReceived.toNat ≤ s.bus.dma.wordsCommanded.toNat) ∧
    (s.bus.dma.state = .idle → s.bus.owed = []) ∧
    (taken l).length ≤ (written l).length ∧
    (written l).length - (taken l).length + s.bus.owed.length ≤ 510 ∧
    (∀ e, s.wrEn e = true → s.fifo.wr.wrfull = false) ∧
    written l = (DmaBus.pushed bl).map Prod.snd := by
  intro s l bl
  have hcredit : Credit frameSizeWords s (written l) (taken l) :=
    credit_run frameSizeWords_pos frameSizeWords_dvd mem0 es
  obtain ⟨r2, r1, w2, w1, hsync, hbound⟩ := hcredit.bound
  have hr2 := hsync.r2_le
  have hr1 := hsync.r1_le
  have hrw := hsync.reads_le
  have hw2 := hsync.w2_le
  have hw1 := hsync.w1_le
  have hlimit : DmaBus.limit s.bus.dma ≤ 510 := by
    rw [DmaBus.limit]
    split <;> omega
  refine ⟨?_, ?_, ?_, by omega, by omega, fun _ _ => hcredit.wrfull, ?_⟩
  · have hlog : bl = log (DmaBus.step frameSizeWords) DmaBus.init _ :=
      log_bus (init mem0) es
    have hrun : s.bus = run (DmaBus.step frameSizeWords) DmaBus.init _ :=
      run_bus (init mem0) es
    rw [hlog, hrun]
    exact DmaBus.commands_conserved _
  · intro hbusy
    rcases hcredit.settled with h | ⟨a0, k, r, h⟩
    · exact absurd h.state hbusy
    · exact h.pending
  · intro hidle
    exact (hcredit.settled.idle hidle).owed
  · exact written_eq_pushed frameSizeWords_pos frameSizeWords_dvd mem0 es

end DmaFifo
end VideoProcessing
