import VideoProcessing.Video.FrameIntegrity

/-!
# The first pixel of a frame after any history

`reset_n` may come at any time; the FIFO has neither a reset nor a flush and keeps
its words.  So the first pixel of a frame shows the oldest word that the FIFO holds
when the frame is triggered, and word 0 of the frame when it holds none and the
slave owes none (`first_pixel_oldest_word`).
-/

namespace VideoProcessing

open Lib

namespace DmaBus

variable {N : BitVec 32}

/-- A read command is pending in `ISSUE_READ` only. -/
def Commanding (s : DmaBus) : Prop :=
  s.dma.mRead = true → s.dma.state = .issueRead

theorem commanding_step (s : DmaBus) (c : Cycle) : Commanding (s.step N c) := by
  change (s.dma.control N (s.inputs c)).mRead = true →
    (s.dma.control N (s.inputs c)).state = .issueRead
  cases hs : s.dma.state with
  | idle =>
      rcases VideoDmaMaster.control_idle (N := N) (i := s.inputs c) hs with
        ⟨_, cont, he⟩ | ⟨_, cont, he⟩ <;> rw [he] <;> simp
  | checkFifo =>
      rcases VideoDmaMaster.control_checkFifo (N := N) (i := s.inputs c) hs with
        ⟨_, he⟩ | ⟨_, _, he⟩ | ⟨_, _, he⟩ <;> rw [he] <;> simp
  | issueRead =>
      rcases VideoDmaMaster.control_issueRead (N := N) (i := s.inputs c) hs with
        ⟨_, he⟩ | ⟨_, he⟩ <;> rw [he]
      · simp
      · exact fun _ => hs
  | waitEnd =>
      rcases VideoDmaMaster.control_waitEnd (N := N) (i := s.inputs c) hs with
        ⟨_, he⟩ | ⟨_, he⟩ <;> rw [he] <;> simp

end DmaBus

namespace VideoPipeline

/-- An event of the clocks, or `reset_n` pulled low: a reset that lasts is one after
every event. -/
inductive Action where
  | event (e : Event)
  | reset

/-- The pipeline with its reset. -/
def act (s : VideoPipeline) : Action → VideoPipeline
  | .event e => s.step e
  | .reset => s.reset

/-- As for events; a reset starts the raster anew. -/
def Action.covered (seen : Bool) : Action → Bool
  | .event e => e.covered seen
  | .reset => true

def Action.seen : Action → Bool
  | .event e => e.seen
  | .reset => true

/-- Every `clk_hdmi` period contains a `clk_50` edge. -/
def coveredActs (seen : Bool) : List Action → Bool
  | [] => true
  | a :: as => a.covered seen && coveredActs a.seen as

/-- The running `clk_hdmi` period has had its `clk_50` edge after the actions. -/
def seenActs (seen : Bool) : List Action → Bool
  | [] => seen
  | a :: as => seenActs a.seen as

/-- The FIFO holds a word. -/
def stores (s : VideoPipeline) : Bool :=
  s.dmaFifo.fifo.wr.wrPtrBin != s.dmaFifo.fifo.rd.rdPtrBin

/-- The oldest word that the FIFO holds. -/
def oldest (s : VideoPipeline) : BitVec 32 :=
  s.dmaFifo.fifo.wr.mem (s.dmaFifo.fifo.rd.rdPtrBin.setWidth 9)

/-- The frame is held: mode 8, no empty read in the visible area, no next VSync. -/
def held (s : VideoPipeline) (e : Event) : Bool :=
  s.csr.mode == 8 && !(e.ticksHdmi && s.streamRdEn && s.dmaFifo.fifo.rd.rdempty) &&
    !s.vsyncRise e

/-- What every history keeps. -/
structure Reached (s : VideoPipeline) (seen : Bool) : Prop where
  synced : Synced s seen
  tracks : ∃ ws rs, SimpleDcfifo.Tracks s.dmaFifo.fifo ws rs
  commanding : DmaBus.Commanding s.dmaFifo.bus

theorem reached_init (mem0 : BitVec 9 → BitVec 32) (csr0 : HdmiCsr) :
    Reached (init mem0 csr0) true where
  synced := synced_reset (init mem0 csr0)
  tracks := ⟨[], [], SimpleDcfifo.tracks_init mem0⟩
  commanding hc := (Bool.false_ne_true hc).elim

variable {s : VideoPipeline} {seen : Bool} {e : Event} {l : List (VideoPipeline × Event)}

theorem Reached.act (h : Reached s seen) {a : Action} (hcov : a.covered seen = true) :
    Reached (s.act a) a.seen := by
  cases a with
  | reset => exact ⟨synced_reset s, h.tracks, fun hc => (Bool.false_ne_true hc).elim⟩
  | event e =>
      refine ⟨h.synced.step hcov, ?_, ?_⟩
      · obtain ⟨ws, rs, ht⟩ := h.tracks
        have hstep := ht.step (by omega) (s.fifoEdge e)
        rw [← step_fifo] at hstep
        exact ⟨_, _, hstep⟩
      · change DmaBus.Commanding (s.step e).dmaFifo.bus
        rw [step_bus]
        cases e.clkIn with
        | none => exact h.commanding
        | some c => exact DmaBus.commanding_step _ _

theorem reached_run (h : Reached s seen) {as : List Action}
    (hcov : coveredActs seen as = true) :
    Reached (run VideoPipeline.act s as) (seenActs seen as) := by
  induction as generalizing s seen with
  | nil => exact h
  | cons a as ih =>
      rw [coveredActs, Bool.and_eq_true] at hcov
      exact ih (h.act hcov.1) hcov.2

section Opening

/-- A held frame before its second pixel: `ws0` and `rs0` are the words written and
read before its trigger, and `l` starts with the trigger. -/
structure Opening (ws0 rs0 : List (BitVec 32)) (s : VideoPipeline)
    (l : List (VideoPipeline × Event)) : Prop where
  synced : Synced s (seenAfter l)
  owes : s.owesPulse = false
  reads : (taken l).length = s.readsDue
  tracks : SimpleDcfifo.Tracks s.dmaFifo.fifo (ws0 ++ written l) (rs0 ++ taken l)
  last : taken l = [] ∨ (taken l).getLast? = some s.dmaFifo.fifo.rd.q

variable {ws0 rs0 : List (BitVec 32)}

theorem tracks_step
    (h : SimpleDcfifo.Tracks s.dmaFifo.fifo (ws0 ++ written l) (rs0 ++ taken l))
    (e : Event) : SimpleDcfifo.Tracks (s.step e).dmaFifo.fifo
      (ws0 ++ written (l ++ [(s, e)])) (rs0 ++ taken (l ++ [(s, e)])) := by
  rw [step_fifo, written_snoc, taken_snoc, ← List.append_assoc, ← List.append_assoc]
  exact h.step (by omega) _

theorem last_step (h : taken l = [] ∨ (taken l).getLast? = some s.dmaFifo.fifo.rd.q)
    (e : Event) : taken (l ++ [(s, e)]) = [] ∨
      (taken (l ++ [(s, e)])).getLast? = some (s.step e).dmaFifo.fifo.rd.q := by
  rw [taken_snoc, step_fifo, SimpleDcfifo.step_q]
  cases SimpleDcfifo.acceptedRead s.dmaFifo.fifo (s.fifoEdge e) with
  | none => simpa using h
  | some w => simp

/-- The pulse that triggers the frame opens it. -/
theorem opening_of_pulse (h : Synced s seen)
    (ht : SimpleDcfifo.Tracks s.dmaFifo.fifo ws0 rs0) (hcov : e.covered seen = true)
    (hp : s.vsyncPulse e = true) :
    Opening ws0 rs0 (s.step e) [(s, e)] := by
  obtain ⟨hdue, hvis⟩ := h.readsDue_after_pulse hcov hp
  have hno : (taken [(s, e)]).length = 0 := by
    have hlen := length_taken_snoc [] s e
    rw [List.nil_append] at hlen
    rw [hlen]
    have hrd : (e.ticksHdmi && (s.streamRdEn && !s.dmaFifo.fifo.rd.rdempty)) = false := by
      rw [streamRdEn, HdmiPixel.streamRdEn]
      cases ht : e.ticksHdmi with
      | false => rfl
      | true =>
          rw [ht, Bool.true_and] at hvis
          rw [hvis]
          rfl
    rw [hrd]
    rfl
  have ho : s.owesPulse = true := by
    rw [vsyncPulse, Bool.and_eq_true] at hp
    exact (h.of_pulse hp.2).1
  have howes := h.owesPulse_step e
  rw [hp, ho, h.not_rise_of_owes ho e] at howes
  refine ⟨?_, ?_, ?_, ?_, ?_⟩
  · exact h.step hcov
  · rw [← Bool.toNat_eq_zero]
    simpa using howes
  · rw [hno, hdue]
  · have ht' :
        SimpleDcfifo.Tracks s.dmaFifo.fifo (ws0 ++ written []) (rs0 ++ taken []) := by
      rw [written_nil, taken_nil, List.append_nil, List.append_nil]
      exact ht
    exact tracks_step ht' e
  · exact last_step (l := []) (Or.inl rfl) e

/-- A held event keeps the frame open. -/
theorem Opening.step (h : Opening ws0 rs0 s l) (hcov : Covered l s e)
    (hheld : s.held e = true) : Opening ws0 rs0 (s.step e) (l ++ [(s, e)]) := by
  simp only [held, Bool.and_eq_true, Bool.not_eq_true', beq_iff_eq] at hheld
  obtain ⟨⟨hmode, hfed⟩, hrise⟩ := hheld
  have howes := h.synced.owesPulse_step e
  rw [h.owes, hrise] at howes
  have hdue := h.synced.readsDue_step hcov
  refine ⟨?_, ?_, ?_, tracks_step h.tracks e, last_step h.last e⟩
  · rw [seenAfter_snoc]
    exact h.synced.step hcov
  · rw [← Bool.toNat_eq_zero]
    simp only [Bool.toNat_false] at howes
    omega
  · have hp : (s.vsyncPulse e).toNat = 0 := by
      simp only [Bool.toNat_false] at howes
      omega
    have hread : (e.ticksHdmi && (s.streamRdEn && !s.dmaFifo.fifo.rd.rdempty)) =
        (e.ticksHdmi && s.pixel.visible params) := by
      rw [streamRdEn_eq hmode] at hfed ⊢
      revert hfed
      cases e.ticksHdmi <;> cases s.pixel.visible params <;>
        cases s.dmaFifo.fifo.rd.rdempty <;> simp
    rw [hp] at hdue
    rw [length_taken_snoc, hread, h.reads]
    omega

/-- The slave owes the words of the frame from its first one on, and the FIFO takes
the first one. -/
structure Filling (ws0 rs0 : List (BitVec 32)) (ptr : BitVec 32) (s : VideoPipeline)
    (l : List (VideoPipeline × Event)) : Prop where
  pushed : DmaBus.pushed (busLog l) = []
  written : VideoPipeline.written l = []
  reading : ∃ k, DmaBus.Reading s.dmaFifo.bus ptr k ∧
    s.dmaFifo.bus.owed = wordAddrs ptr (64 * k)
  received : s.dmaFifo.bus.dma.wordsReceived = 0
  fifo : ∃ r2 r1 w2 w1,
    SimpleDcfifo.Synced s.dmaFifo.fifo ws0 (rs0 ++ taken l) r2 r1 w2 w1 ∧
      ws0.length ≤ r1 ∧ (s.dmaFifo.bus.owed = [] ∨ ws0.length ≤ r2)

/-- The first word of the frame is the first one written. -/
def Filled (ptr : BitVec 32) (l : List (VideoPipeline × Event)) : Prop :=
  ∃ d, (DmaBus.pushed (busLog l)).head? = some (ptr, d) ∧
    (VideoPipeline.written l).head? = some d

theorem Filled.step {ptr : BitVec 32} (h : Filled ptr l) (s : VideoPipeline) (e : Event) :
    Filled ptr (l ++ [(s, e)]) := by
  obtain ⟨d, hpush, hwrite⟩ := h
  refine ⟨d, ?_, ?_⟩
  · rw [busLog_snoc, DmaBus.pushed_append, List.head?_append, hpush]
    rfl
  · rw [written_snoc, List.head?_append, hwrite]
    rfl

/-- The write of an event: the word that the slave returns, unless the FIFO is
full. -/
theorem acceptedWrite_eq (s : VideoPipeline) (e : Event) :
    SimpleDcfifo.acceptedWrite s.dmaFifo.fifo (s.fifoEdge e) =
      match e.clkIn with
      | some c =>
          if s.dmaFifo.fifo.wr.wrfull then none
          else (s.dmaFifo.bus.returned (s.busCycle c)).map Prod.snd
      | none => none := by
  cases e with
  | clk50 c => exact s.dmaFifo.accepted_clk (s.dmaIn c)
  | clkHdmi => rfl
  | both c rdMask wrMask vsNew toggleNew => exact s.dmaFifo.accepted_clk (s.dmaIn c)

/-- The trigger of a frame when the FIFO and the slave hold nothing. -/
theorem filling_of_trigger {r2 r1 w2 w1 : Nat}
    (hs : SimpleDcfifo.Synced s.dmaFifo.fifo ws0 rs0 r2 r1 w2 w1)
    (hall : ws0.length = rs0.length) (howed : s.dmaFifo.bus.owed = [])
    (hcmd : DmaBus.Commanding s.dmaFifo.bus) (ht : s.triggers e = true) :
    Filling ws0 rs0 s.csr.shadowPtr (s.step e) [(s, e)] := by
  rw [triggers] at ht
  cases hc : e.clkIn with
  | none =>
      rw [hc] at ht
      exact (Bool.false_ne_true ht).elim
  | some c =>
      rw [hc] at ht
      have ht' : s.dmaFifo.bus.triggers (s.busCycle c) = true := ht
      rw [DmaBus.triggers, Bool.and_eq_true, beq_iff_eq] at ht'
      obtain ⟨hidle, htrig⟩ := ht'
      have hret : s.dmaFifo.bus.returned (s.busCycle c) = none :=
        DmaBus.returned_of_owed_nil _ howed
      have hacc : s.dmaFifo.bus.accepted (s.busCycle c) = none := by
        have hread : s.dmaFifo.bus.dma.mRead = false := by
          rw [Bool.eq_false_iff]
          intro hr
          exact absurd (hidle.symm.trans (hcmd hr)) (by decide)
        simp [DmaBus.accepted, hread]
      have hwrite : SimpleDcfifo.acceptedWrite s.dmaFifo.fifo (s.fifoEdge e) = none := by
        rw [acceptedWrite_eq, hc]
        simp [hret]
      have hlog : busLog [(s, e)] = [(s.dmaFifo.bus, s.busCycle c)] := by
        have hb := busLog_snoc [] s e
        rw [hc] at hb
        exact hb
      refine ⟨?_, ?_, ?_, ?_, ?_⟩
      · rw [hlog]
        simp [DmaBus.pushed, hret]
      · have hw := written_snoc [] s e
        rw [hwrite] at hw
        exact hw
      · refine ⟨0, ?_, ?_⟩
        · rw [step_bus, hc]
          exact (DmaBus.reading_of_trigger hidle (s.busCycle c) htrig).2
        · rw [step_bus, hc]
          change s.dmaFifo.bus.owedNext (s.busCycle c) = _
          simp [DmaBus.owedNext, hret, hacc, howed, wordAddrs]
      · rw [step_bus, hc]
        change s.dmaFifo.bus.dma.receiver (s.dmaFifo.bus.inputs (s.busCycle c)) = 0
        have hvalid : (s.dmaFifo.bus.inputs (s.busCycle c)).mReaddatavalid = false := by
          simp [DmaBus.inputs, hret]
        simp [VideoDmaMaster.receiver, hvalid, hidle, htrig]
      · obtain ⟨r2', r1', w2', w1', ⟨_, _, hnew⟩, hs'⟩ := hs.step (by omega) (s.fifoEdge e)
        have hclk : (s.fifoEdge e).hasWrclk = true := by
          cases e with
          | clk50 c => rfl
          | clkHdmi => exact absurd hc (by simp [Event.clkIn])
          | both c rdMask wrMask vsNew toggleNew => rfl
        refine ⟨r2', r1', w2', w1', ?_, ?_, Or.inl ?_⟩
        · rw [hwrite, Option.toList_none, List.append_nil, ← step_fifo] at hs'
          have htk := taken_snoc [] s e
          rw [List.nil_append, taken_nil, List.nil_append] at htk
          rw [htk]
          exact hs'
        · have := (hnew hclk).2
          omega
        · rw [step_bus, hc]
          change s.dmaFifo.bus.owedNext (s.busCycle c) = _
          simp [DmaBus.owedNext, hret, hacc, howed]

theorem hasWrclk_fifoEdge (s : VideoPipeline) (e : Event) :
    (s.fifoEdge e).hasWrclk = e.ticks50 := by
  cases e <;> rfl

/-- The FIFO part of `Filling` after an event that writes nothing. -/
theorem Filling.fifo_step {ptr : BitVec 32} (h : Filling ws0 rs0 ptr s l)
    (hall : ws0.length = rs0.length)
    (hwrite : SimpleDcfifo.acceptedWrite s.dmaFifo.fifo (s.fifoEdge e) = none) :
    ∃ r2 r1 w2 w1,
      SimpleDcfifo.Synced (s.step e).dmaFifo.fifo ws0 (rs0 ++ taken (l ++ [(s, e)]))
        r2 r1 w2 w1 ∧ ws0.length ≤ r1 ∧
      (e.ticks50 = true ∨ s.dmaFifo.bus.owed ≠ [] → ws0.length ≤ r2) := by
  obtain ⟨r2, r1, w2, w1, hs, hr1, hr2⟩ := h.fifo
  obtain ⟨r2', r1', w2', w1', ⟨hmono2, hmono1, hnew⟩, hs'⟩ :=
    hs.step (by omega) (s.fifoEdge e)
  rw [hwrite, Option.toList_none, List.append_nil, ← step_fifo, List.append_assoc,
    ← taken_snoc] at hs'
  refine ⟨r2', r1', w2', w1', hs', by omega, ?_⟩
  rintro (ht | howed)
  · have := (hnew ((hasWrclk_fifoEdge s e).trans ht)).1
    omega
  · have := hr2.resolve_left howed
    omega

/-- An event without a `clk_50` edge. -/
theorem Filling.step_away {ptr : BitVec 32} (h : Filling ws0 rs0 ptr s l)
    (hall : ws0.length = rs0.length) (hc : e.clkIn = none) :
    Filling ws0 rs0 ptr (s.step e) (l ++ [(s, e)]) := by
  have hwrite : SimpleDcfifo.acceptedWrite s.dmaFifo.fifo (s.fifoEdge e) = none := by
    rw [acceptedWrite_eq, hc]
  have hbus : (s.step e).dmaFifo.bus = s.dmaFifo.bus := by
    rw [step_bus, hc]
  obtain ⟨r2, r1, w2, w1, hs', hr1', hr2'⟩ := h.fifo_step hall hwrite
  refine ⟨?_, ?_, ?_, ?_, r2, r1, w2, w1, hs', hr1', ?_⟩
  · rw [busLog_snoc, hc]
    simpa using h.pushed
  · rw [written_snoc, hwrite, h.written]
    rfl
  · rw [hbus]
    exact h.reading
  · rw [hbus]
    exact h.received
  · rw [hbus]
    by_cases hnil : s.dmaFifo.bus.owed = []
    · exact Or.inl hnil
    · exact Or.inr (hr2' (Or.inr hnil))

/-- What the DMA gets in a `clk_50` cycle of the frame so far. -/
theorem Filling.pushed_snoc {ptr : BitVec 32} (h : Filling ws0 rs0 ptr s l)
    {c : ClkIn} (hc : e.clkIn = some c) :
    DmaBus.pushed (busLog (l ++ [(s, e)])) =
      (s.dmaFifo.bus.returned (s.busCycle c)).toList := by
  rw [busLog_snoc, hc, Option.map_some, Option.toList_some, DmaBus.pushed_snoc, h.pushed,
    List.nil_append]

/-- A `clk_50` cycle in which the slave returns no word. -/
theorem Filling.step_noWord {ptr : BitVec 32} (h : Filling ws0 rs0 ptr s l)
    (hall : ws0.length = rs0.length) {c : ClkIn} (hc : e.clkIn = some c)
    (hret : s.dmaFifo.bus.returned (s.busCycle c) = none) :
    Filling ws0 rs0 ptr (s.step e) (l ++ [(s, e)]) := by
  obtain ⟨k, hread, howed⟩ := h.reading
  have hburst : s.dmaFifo.bus.dma.mBurstcount.toNat = 64 := rfl
  have hbus : (s.step e).dmaFifo.bus =
      s.dmaFifo.bus.step DmaFifo.frameSizeWords (s.busCycle c) := by
    rw [step_bus, hc]
  have hwrite : SimpleDcfifo.acceptedWrite s.dmaFifo.fifo (s.fifoEdge e) = none := by
    rw [acceptedWrite_eq, hc]
    simp [hret]
  obtain ⟨r2, r1, w2, w1, hs', hr1', hr2'⟩ := h.fifo_step hall hwrite
  refine ⟨?_, ?_, ?_, ?_, r2, r1, w2, w1, hs', hr1', Or.inr (hr2' (Or.inl ?_))⟩
  · rw [h.pushed_snoc hc, hret]
    rfl
  · rw [written_snoc, hwrite, h.written]
    rfl
  · rw [hbus]
    rcases hread.step (N := DmaFifo.frameSizeWords) (s.busCycle c) with ⟨_, hle⟩ | hread'
    · rw [h.received] at hle
      exact absurd hle (by decide)
    · refine ⟨_, hread', ?_⟩
      change s.dmaFifo.bus.owedNext (s.busCycle c) = _
      rw [DmaBus.owedNext, hret, howed, hburst, hread.accepted]
      by_cases hi : s.dmaFifo.bus.dma.state = .issueRead ∧ (s.busCycle c).mWaitrequest = false
      · rw [if_pos hi]
        simp [Nat.mul_add, wordAddrs_add]
      · rw [if_neg hi]
        simp
  · rw [hbus]
    change s.dmaFifo.bus.dma.receiver (s.dmaFifo.bus.inputs (s.busCycle c)) = 0
    have hvalid : (s.dmaFifo.bus.inputs (s.busCycle c)).mReaddatavalid = false := by
      simp [DmaBus.inputs, hret]
    simp [VideoDmaMaster.receiver, hvalid, hread.busy, h.received]
  · rw [Event.ticks50, hc]
    rfl

/-- The first word owed is the first one of the frame. -/
theorem Filling.first_word {ptr : BitVec 32} (h : Filling ws0 rs0 ptr s l)
    {c : ClkIn} {w : BitVec 32 × BitVec 32}
    (hret : s.dmaFifo.bus.returned (s.busCycle c) = some w) :
    w = (ptr, w.2) ∧ s.dmaFifo.bus.owed ≠ [] := by
  obtain ⟨k, _, howed⟩ := h.reading
  rw [DmaBus.returned, howed] at hret
  cases k with
  | zero => exact absurd hret (by simp [wordAddrs])
  | succ k =>
      have hhead := drop_wordAddrs ptr (n := 64 * (k + 1)) (r := 0) (by omega)
      rw [List.drop_zero] at hhead
      rw [howed, hhead]
      rw [hhead] at hret
      cases hr : (s.busCycle c).ret with
      | none =>
          rw [hr] at hret
          exact absurd hret (by simp)
      | some d =>
          rw [hr] at hret
          have hwd := Option.some.inj hret
          rw [← hwd]
          simp

/-- While words are owed, the write side has seen all reads and is not full. -/
theorem Filling.wrfull_eq {ptr : BitVec 32} (h : Filling ws0 rs0 ptr s l)
    (hall : ws0.length = rs0.length) (howed : s.dmaFifo.bus.owed ≠ []) :
    s.dmaFifo.fifo.wr.wrfull = false := by
  obtain ⟨r2, r1, w2, w1, hs, _, hr2⟩ := h.fifo
  have hge := hr2.resolve_left howed
  have h1 := hs.r2_le
  have h2 := hs.r1_le
  have h3 := hs.reads_le
  have h4 := hs.w2_le
  have h5 := hs.w1_le
  rw [Bool.eq_false_iff]
  intro hfull
  have hmany := (hs.wr.wrfull_iff (by omega) (by omega) hs.cap).1 hfull
  omega

/-- The `clk_50` cycle in which the slave returns the first word. -/
theorem Filling.step_word {ptr : BitVec 32} (h : Filling ws0 rs0 ptr s l)
    (hall : ws0.length = rs0.length) {c : ClkIn} (hc : e.clkIn = some c)
    {w : BitVec 32 × BitVec 32} (hret : s.dmaFifo.bus.returned (s.busCycle c) = some w) :
    Filled ptr (l ++ [(s, e)]) := by
  obtain ⟨hw, howed⟩ := h.first_word hret
  have hfull := h.wrfull_eq hall howed
  refine ⟨w.2, ?_, ?_⟩
  · rw [h.pushed_snoc hc, hret, ← hw]
    rfl
  · rw [written_snoc, h.written, acceptedWrite_eq, hc]
    simp [hret, hfull]

/-- Until the slave returns the first word of the frame, nothing changes. -/
theorem Filling.step {ptr : BitVec 32} (h : Filling ws0 rs0 ptr s l)
    (hall : ws0.length = rs0.length) (e : Event) :
    Filling ws0 rs0 ptr (s.step e) (l ++ [(s, e)]) ∨ Filled ptr (l ++ [(s, e)]) := by
  cases hc : e.clkIn with
  | none => exact Or.inl (h.step_away hall hc)
  | some c =>
      cases hret : s.dmaFifo.bus.returned (s.busCycle c) with
      | none => exact Or.inl (h.step_noWord hall hc hret)
      | some w => exact Or.inr (h.step_word hall hc hret)

/-- The frame stays open over a held run. -/
theorem opening_run (h : Opening ws0 rs0 s l) {es : List Event}
    (hcov : coveredRun (seenAfter l) es = true)
    (hheld : ∀ p ∈ log VideoPipeline.step s es, p.1.held p.2 = true) :
    Opening ws0 rs0 (run VideoPipeline.step s es) (l ++ log VideoPipeline.step s es) := by
  induction es generalizing s l with
  | nil => simpa using h
  | cons e es ih =>
      rw [coveredRun, Bool.and_eq_true] at hcov
      have hstep := h.step hcov.1 (hheld (s, e) (by simp))
      have hrest := ih hstep (by rw [seenAfter_snoc]; exact hcov.2)
        fun p hp => hheld p (List.mem_cons_of_mem _ hp)
      rw [List.append_assoc] at hrest
      exact hrest

/-- The first word of the frame is the first one written, or nothing is. -/
theorem filling_run {ptr : BitVec 32} (hall : ws0.length = rs0.length)
    (h : Filling ws0 rs0 ptr s l ∨ Filled ptr l) (es : List Event) :
    Filling ws0 rs0 ptr (run VideoPipeline.step s es) (l ++ log VideoPipeline.step s es) ∨
      Filled ptr (l ++ log VideoPipeline.step s es) := by
  induction es generalizing s l with
  | nil => simpa using h
  | cons e es ih =>
      have hstep : Filling ws0 rs0 ptr (s.step e) (l ++ [(s, e)]) ∨
          Filled ptr (l ++ [(s, e)]) := by
        rcases h with h | h
        · exact h.step hall e
        · exact Or.inr (h.step s e)
      have hrest := ih hstep
      rw [List.append_assoc] at hrest
      exact hrest

/-- The word in the output register at the second position of the raster. -/
theorem Opening.first_word (h : Opening ws0 rs0 s l) (hh : s.pixel.hCnt.toNat = 1)
    (hv : s.pixel.vCnt.toNat = 0) :
    (ws0 ++ written l)[rs0.length]? = some s.dmaFifo.fifo.rd.q := by
  have hlen : (taken l).length = 1 := by
    rw [h.reads, readsDue, hh, hv, h.owes]
    rfl
  obtain ⟨w, hw⟩ := List.length_eq_one_iff.1 hlen
  have hq : w = s.dmaFifo.fifo.rd.q := by
    rcases h.last with hnil | hlast
    · rw [hw] at hnil
      exact absurd hnil (by simp)
    · rw [hw] at hlast
      exact Option.some.inj hlast
  obtain ⟨t, ht⟩ := h.tracks.reads_prefix
  rw [← ht, hw, hq]
  simp

/-- The FIFO holds a word when more is written than read, and the oldest one stands
at the read pointer. -/
theorem stores_iff (h : SimpleDcfifo.Tracks s.dmaFifo.fifo ws0 rs0) :
    (s.stores = true ↔ rs0.length < ws0.length) ∧
      (s.stores = true → ws0[rs0.length]? = some s.oldest) := by
  obtain ⟨r2, r1, w2, w1, hs⟩ := h
  have h1 := hs.r2_le
  have h2 := hs.r1_le
  have h3 := hs.reads_le
  have h4 := hs.w2_le
  have h5 := hs.w1_le
  have hcap := hs.cap
  have hiff : s.stores = true ↔ rs0.length < ws0.length := by
    rw [stores, bne_iff_ne, hs.wr.bin, hs.rd.bin, ne_eq,
      eq_comm, Counter.ofNat_eq_iff (by omega) (by omega)]
    omega
  refine ⟨hiff, fun hst => ?_⟩
  rw [hs.stores rs0.length (Nat.le_refl _) (hiff.1 hst), oldest, hs.rd.bin,
    Counter.setWidth_ofNat (by omega)]

end Opening

/-- **The first pixel of a frame.**  After any history, with resets, a VSync triggers
a frame, which is then held: the position `(0, 0)` shows the oldest word that the
FIFO stored at the trigger, if there is one; if there is none, the first word
written to the FIFO since; and this is word 0 of the frame at the pointer latched by
the trigger when the slave owed nothing at the trigger. -/
theorem first_pixel_oldest_word (mem0 : BitVec 9 → BitVec 32) (csr0 : HdmiCsr)
    (as : List Action) (e0 : Event) (es : List Event) (e1 : Event)
    (hcov : coveredActs true as = true)
    (hcov' : coveredRun (seenActs true as) (e0 :: es) = true)
    (hpulse : (run act (init mem0 csr0) as).vsyncPulse e0 = true)
    (htrig : (run act (init mem0 csr0) as).triggers e0 = true)
    (hheld : ∀ p ∈ log step ((run act (init mem0 csr0) as).step e0) (es ++ [e1]),
      p.1.held p.2 = true)
    (hh : (run step (run act (init mem0 csr0) as) (e0 :: es)).pixel.hCnt = 1)
    (hv : (run step (run act (init mem0 csr0) as) (e0 :: es)).pixel.vCnt = 0)
    (he1 : e1.ticksHdmi = true) :
    let s0 := run act (init mem0 csr0) as
    let l := log step s0 (e0 :: es)
    let s := run step s0 (e0 :: es)
    ∃ w, (s.step e1).pixel.hdmiDe = true ∧
      (s.step e1).pixel.hdmiD =
        HdmiPixel.outputColor s.csr.gammaEn s.csr.lutMem (w.setWidth 24) ∧
      (s0.stores = true → w = s0.oldest) ∧
      (s0.stores = false → (written l).head? = some w) ∧
      (s0.stores = false → s0.dmaFifo.bus.owed = [] →
        (DmaBus.pushed (busLog l)).head? = some (s0.csr.shadowPtr, w)) := by
  intro s0 l s
  have hreach : Reached s0 (seenActs true as) := reached_run (reached_init mem0 csr0) hcov
  obtain ⟨ws0, rs0, ht⟩ := hreach.tracks
  rw [coveredRun, Bool.and_eq_true] at hcov'
  have hopen0 : Opening ws0 rs0 (s0.step e0) [(s0, e0)] :=
    opening_of_pulse hreach.synced ht hcov'.1 hpulse
  rw [log_append] at hheld
  have hopen : Opening ws0 rs0 s l :=
    opening_run hopen0 (by simpa [seenAfter] using hcov'.2)
      fun p hp => hheld p (List.mem_append_left _ hp)
  have hlast := hheld (s, e1) (List.mem_append_right _ (List.mem_singleton.2 rfl))
  have hmode : s.csr.mode = 8 := by
    simp only [held, Bool.and_eq_true, beq_iff_eq] at hlast
    exact hlast.1.1
  have hh' : s.pixel.hCnt.toNat = 1 := congrArg BitVec.toNat hh
  have hv' : s.pixel.vCnt.toNat = 0 := congrArg BitVec.toNat hv
  have hword := hopen.first_word hh' hv'
  have hd1 : s.pixel.visibleD1 = true := by
    rw [hopen.synced.raster.visibleD1, hh', hv']
    rfl
  obtain ⟨hstores, holdest⟩ := stores_iff ht
  have hnone : s0.stores = false → ws0.length = rs0.length := by
    intro hst
    have hle := ht.reads_prefix.length_le
    have hnot : ¬ rs0.length < ws0.length := fun hc => by
      rw [hstores.2 hc] at hst
      exact absurd hst (by decide)
    omega
  have hhead : s0.stores = false → (written l).head? = some s.dmaFifo.fifo.rd.q := by
    intro hst
    rw [List.getElem?_append_right (by rw [hnone hst]), hnone hst, Nat.sub_self] at hword
    rw [List.head?_eq_getElem?]
    exact hword
  refine ⟨s.dmaFifo.fifo.rd.q, ?_, ?_, ?_, hhead, ?_⟩
  · rw [step_pixel, he1]
    exact hd1
  · rw [step_pixel, he1]
    change (if s.pixel.visibleD1 then _ else _) = _
    rw [if_pos hd1, HdmiPixel.preGammaD, hmode]
    rfl
  · intro hst
    rw [List.getElem?_append_left (hstores.1 hst), holdest hst] at hword
    exact (Option.some.inj hword).symm
  · intro hst howed
    obtain ⟨r2, r1, w2, w1, hs⟩ := ht
    have hfill := filling_of_trigger hs (hnone hst) howed hreach.commanding htrig
    rcases filling_run (hnone hst) (Or.inl hfill) es with hfilling | ⟨d, hpush, hwrite⟩
    · have hnil : written l = [] := hfilling.written
      have hsome := hhead hst
      rw [hnil] at hsome
      exact absurd hsome (by simp)
    · have hd : some d = some s.dmaFifo.fifo.rd.q := hwrite.symm.trans (hhead hst)
      rw [← Option.some.inj hd]
      exact hpush

section LeftOver

/-- A reset cuts off a frame after its first burst; then all is quiet up to the pulse
of the first VSync. -/
def cutOff : List Action := fetchLeft.map .event ++ .reset :: toTrigger.map .event

theorem run_act_event (s : VideoPipeline) (es : List Event) :
    run VideoPipeline.act s (es.map .event) = run VideoPipeline.step s es := by
  induction es generalizing s with
  | nil => rfl
  | cons e es ih => exact ih (s.step e)

theorem coveredActs_event (b : Bool) (es : List Event) (as : List Action) :
    coveredActs b (es.map .event ++ as) =
      (coveredRun b es && coveredActs (seenRun b es) as) := by
  induction es generalizing b with
  | nil => rfl
  | cons e es ih =>
      rw [List.map_cons, List.cons_append, coveredActs, coveredRun, Bool.and_assoc]
      exact congrArg _ (ih e.seen)

theorem run_cutOff :
    run VideoPipeline.act (init (fun _ => 0) HdmiCsr.blank) cutOff = atPulse true := by
  rw [cutOff, run_append, run_act_event, run_cons, run_act_event]
  exact run_toTrigger true

theorem covered_cutOff :
    coveredActs true cutOff = true ∧
      ∀ b, coveredRun b (.clk50 stallIn :: toPixel ++ [.clkHdmi]) = true := by
  have hleft : coveredRun true fetchLeft = true := by decide
  have hrest : coveredActs true (toTrigger.map .event) = true := by
    have happ := coveredActs_event true toTrigger []
    rw [List.append_nil, covered_firstFrame.1 true, coveredActs] at happ
    exact happ
  refine ⟨?_, covered_firstFrame.2⟩
  rw [cutOff, coveredActs_event, hleft, Bool.true_and, coveredActs, Action.covered,
    Action.seen, hrest]
  rfl

/-- The frame after the reset is held up to its first position. -/
theorem held_firstFrame (left : Bool) :
    ∀ p ∈ log VideoPipeline.step ((atPulse left).step (.clk50 stallIn)) (toPixel ++ [.clkHdmi]),
      p.1.held p.2 = true := by
  have hheld : ∀ p, frameCheck p = true → p.1.held p.2 = true := by
    intro p hp
    simp only [frameCheck, streaming, Bool.and_eq_true] at hp
    simp only [held, Bool.and_eq_true]
    exact ⟨⟨hp.1.1.1.1, hp.1.2⟩, hp.2⟩
  intro p hp
  rw [log_append, List.mem_append] at hp
  rcases hp with hp | hp
  · exact hheld p (frameCheck_log left p (List.mem_cons_of_mem _ hp))
  · rw [List.mem_singleton.1 hp, ← run_cons VideoPipeline.step]
    exact hheld _ (shows_first left).1

/-- At the pulse after the reset the FIFO stores what the cut-off frame left. -/
theorem stores_atPulse (left : Bool) :
    (atPulse left).vsyncPulse (.clk50 stallIn) = true ∧ (atPulse left).stores = left ∧
      (left = true → (atPulse left).oldest = 7) := by
  revert left
  decide +kernel

end LeftOver

/-- After the cut-off frame the first position shows a word that it left. -/
theorem first_pixel_oldest_word_cut_off :
    let s0 := run act (init (fun _ => 0) HdmiCsr.blank) cutOff
    s0.stores = true ∧ s0.oldest = 7 ∧
      ((run step s0 (.clk50 stallIn :: toPixel)).step .clkHdmi).pixel.hdmiDe = true ∧
      ((run step s0 (.clk50 stallIn :: toPixel)).step .clkHdmi).pixel.hdmiD = 7 := by
  have hcov := covered_cutOff.2 (seenActs true cutOff)
  rw [coveredRun_append, Bool.and_eq_true] at hcov
  have hinst := first_pixel_oldest_word (fun _ => 0) HdmiCsr.blank cutOff (.clk50 stallIn)
    toPixel .clkHdmi covered_cutOff.1 hcov.1
  rw [run_cutOff] at hinst ⊢
  obtain ⟨hcheck, hh, hv, _⟩ := shows_first true
  obtain ⟨hpulse, hstores, holdest⟩ := stores_atPulse true
  obtain ⟨w, hde, hd, hold, _⟩ := hinst hpulse (noTrigger_after true).1 (held_firstFrame true)
    hh hv rfl
  refine ⟨hstores, holdest rfl, hde, ?_⟩
  rw [hd, gammaEn_of_frameCheck hcheck, hold hstores, holdest rfl]
  rfl

/-- A word left over is shown in the place of word 0 of the next frame: the frame starts
with the word 9, the display with the word 7. -/
theorem first_pixel_left_over :
    ¬ ∀ (mem0 : BitVec 9 → BitVec 32) (csr0 : HdmiCsr) (as : List Action) (e0 : Event)
        (es : List Event) (e1 : Event),
      let s0 := run act (init mem0 csr0) as
      let s := run step s0 (e0 :: es)
      coveredActs true as = true →
      coveredRun (seenActs true as) (e0 :: es ++ [e1]) = true →
      s0.vsyncPulse e0 = true →
      s0.triggers e0 = true →
      (∀ p ∈ log step (s0.step e0) (es ++ [e1]), p.1.held p.2 = true) →
      s.pixel.hCnt = 1 → s.pixel.vCnt = 0 → e1.ticksHdmi = true →
      ∃ d, (DmaBus.pushed (busLog (log step s0 (e0 :: es)))).head? =
          some (s0.csr.shadowPtr, d) ∧
        (s.step e1).pixel.hdmiD =
          HdmiPixel.outputColor s.csr.gammaEn s.csr.lutMem (d.setWidth 24) := by
  intro h
  have hinst := h (fun _ => 0) HdmiCsr.blank cutOff (.clk50 stallIn) toPixel .clkHdmi
    covered_cutOff.1 (covered_cutOff.2 _)
  rw [run_cutOff] at hinst
  obtain ⟨hcheck, hh, hv, _, _, hd⟩ := shows_first true
  obtain ⟨d, hpush, hshow⟩ := hinst (stores_atPulse true).1 (noTrigger_after true).1
    (held_firstFrame true) hh hv rfl
  have hpush' := (pushed_first true).symm.trans hpush
  have hd9 : (9 : BitVec 32) = d := by simpa using hpush'
  rw [hd, gammaEn_of_frameCheck hcheck, ← hd9] at hshow
  exact absurd hshow (by decide)

end VideoPipeline
end VideoProcessing
