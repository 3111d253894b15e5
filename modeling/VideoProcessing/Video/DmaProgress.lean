import VideoProcessing.Lib.Fairness
import VideoProcessing.Video.DmaFifo

/-!
# A frame is fetched in the end

Between the trigger of a frame and its last word the video DMA waits for the slave, which
may stall a command or delay a word, or for room in the FIFO, which the read side makes;
and what the read side has done is seen only through the synchronisers of the FIFO.

A `Place` says how far each part has come: the FSM, the words received, the words taken
from the FIFO and the four counts on their way through the synchronisers.  An event moves
none of them back (`Fetching.step`), and one that meets an open need moves one of them on;
so the frame is complete some time (`frame_completes`).
-/

namespace VideoProcessing

open Lib

namespace DmaBus

variable {N : BitVec 32} {s : DmaBus} {a0 : BitVec 32} {k r : Nat}

/-- How far the FSM has come in a frame when `k` bursts are commanded. -/
def fsmGauge (state : DmaState) (k : Nat) : Nat :=
  2 * k + if state = .checkFifo then 0 else 1

/-- The overflow check on natural numbers. -/
theorem InFrame.room_iff (h : InFrame N s a0 k r) (howed : s.owed.length ≤ 510)
    (c : Cycle) :
    s.dma.room (s.inputs c) = true ↔ c.fifoUsed.toNat + s.owed.length ≤ 446 := by
  have hused := c.fifoUsed.isLt
  have hsum : ((s.inputs c).fifoUsed.setWidth 32 +
      (s.dma.wordsCommanded - s.dma.wordsReceived)).toNat =
        c.fifoUsed.toNat + s.owed.length := by
    change (c.fifoUsed.setWidth 32 + _).toNat = _
    rw [BitVec.toNat_add, h.pending.1, BitVec.toNat_setWidth,
      Nat.mod_eq_of_lt (a := c.fifoUsed.toNat) (by omega), Nat.mod_eq_of_lt (by omega)]
  have hconst : (fifoDepth - burstLen.setWidth 32 - 2).toNat = 446 := by decide
  rw [VideoDmaMaster.room, decide_eq_true_eq, BitVec.le_def, hsum, hconst]

/-- A cycle of a frame moves the FSM on, or the FSM waits: for the slave to take its
command, or for room. -/
theorem InFrame.fsm_step (h : InFrame N s a0 k r) (hr : r < N.toNat)
    (howed : s.owed.length ≤ 510) (c : Cycle) :
    fsmGauge s.dma.state k <
        fsmGauge (s.step N c).dma.state (k + (s.accepted c).isSome.toNat) ∨
      (s.step N c).dma.state = s.dma.state ∧ s.accepted c = none ∧
        (s.dma.state = .issueRead → c.mWaitrequest = true) ∧
        (s.dma.state = .checkFifo →
          64 * k < N.toNat ∧ 446 < c.fifoUsed.toNat + s.owed.length) := by
  have hN := N.isLt
  have hrk := h.r_le
  have hk := h.k_le
  have hacc := h.accepted c
  have hstate : (s.step N c).dma.state = (s.dma.control N (s.inputs c)).state := rfl
  have hcmd : s.dma.wordsCommanded.toNat = 64 * k := by
    rw [h.commanded, Counter.toNat_ofNat_of_lt (by omega)]
  have hrcv : s.dma.wordsReceived.toNat = r := by
    rw [h.received, Counter.toNat_ofNat_of_lt (by omega)]
  rw [hstate]
  cases hs : s.dma.state with
  | idle => exact absurd hs h.state_ne_idle
  | checkFifo =>
      have hnone : s.accepted c = none := by rw [hacc]; simp [hs]
      rw [hnone]
      rcases VideoDmaMaster.control_checkFifo (N := N) (i := s.inputs c) hs with
        ⟨-, he⟩ | ⟨-, -, he⟩ | ⟨hall, hroom, he⟩
      · left
        rw [he]
        exact Nat.lt_succ_self _
      · left
        rw [he]
        exact Nat.lt_succ_self _
      · right
        rw [BitVec.le_def, hcmd] at hall
        rw [Bool.eq_false_iff, Ne, h.room_iff howed] at hroom
        rw [he]
        exact ⟨hs, rfl, fun heq => absurd heq (by decide), fun _ => ⟨by omega, by omega⟩⟩
  | issueRead =>
      rcases VideoDmaMaster.control_issueRead (N := N) (i := s.inputs c) hs with
        ⟨hwait, he⟩ | ⟨hwait, he⟩
      · left
        have hw : c.mWaitrequest = false := hwait
        rw [he, hacc, hs, if_pos ⟨rfl, hw⟩]
        change 2 * k + 1 < 2 * (k + 1) + 0
        omega
      · right
        have hw : c.mWaitrequest = true := hwait
        rw [he, hacc, hs, hw]
        exact ⟨rfl, if_neg (by simp), fun _ => rfl, fun heq => absurd heq (by decide)⟩
  | waitEnd =>
      rcases VideoDmaMaster.control_waitEnd (N := N) (i := s.inputs c) hs with
        ⟨hall, -⟩ | ⟨-, he⟩
      · rw [BitVec.le_def, hrcv] at hall
        omega
      · right
        rw [he, hacc, hs]
        exact ⟨rfl, if_neg (by simp), fun heq => absurd heq (by decide),
          fun heq => absurd heq (by decide)⟩

end DmaBus

namespace DmaFifo

/-- The `clk_50` edge of an event. -/
def Event.clk : Event → Option ClkIn
  | .clk50 c => some c
  | .clkHdmi _ => none
  | .both c _ _ _ => some c

/-- The `clk_hdmi` edge of an event, with `rdreq`. -/
def Event.rd : Event → Option Bool
  | .clk50 _ => none
  | .clkHdmi rdreq => some rdreq
  | .both _ rdreq _ _ => some rdreq

/-- What a frame may wait for: that the slave takes a command at a `clk_50` edge, that it
returns a word, and that the read side takes a word at a `clk_hdmi` edge. -/
inductive Need
  | command
  | reply
  | read

/-- The event is one that was waited for. -/
def Need.Met : Need → Event → Prop
  | .command, e => ∃ c, e.clk = some c ∧ c.mWaitrequest = false
  | .reply, e => ∃ c, e.clk = some c ∧ c.ret.isSome = true
  | .read, e => e.rd = some true

/-- How far the parts have come in a frame: the state of the FSM, the commands, the words
received, the words taken from the FIFO in all, the counts of them that the write side has
seen, and the counts of written words that the read side has seen. -/
structure Place where
  state : DmaState
  k : Nat
  r : Nat
  taken : Nat
  r2 : Nat
  r1 : Nat
  w2 : Nat
  w1 : Nat

namespace Place

/-- The sum of it all. -/
def gauge (p : Place) : Nat :=
  DmaBus.fsmGauge p.state p.k + p.r + p.taken + p.r2 + p.r1 + p.w2 + p.w1

/-- What is waited for in a frame of `n` words when the FIFO had taken `base` words
before. -/
def needs (n base : Nat) (p : Place) : Need → Prop
  | .command => p.state = .issueRead ∨ p.state = .checkFifo ∧
      (64 * p.k = n ∨ base + p.r - p.r2 + (64 * p.k - p.r) ≤ 446 ∨ p.r2 < p.r1 ∨ p.r1 < p.taken)
  | .reply => p.r < 64 * p.k
  | .read => p.taken < base + p.r

end Place

/-- In the frame at `a0` of which the first word was the word `base` of the FIFO. -/
structure Fetching (N : BitVec 32) (a0 : BitVec 32) (base : Nat) (p : Place) (s : DmaFifo) :
    Prop where
  state : s.bus.dma.state = p.state
  frame : DmaBus.InFrame N s.bus a0 p.k p.r
  fifo : ∃ ws rs, Credit N s ws rs ∧ SimpleDcfifo.Synced s.fifo ws rs p.r2 p.r1 p.w2 p.w1 ∧
    ws.length = base + p.r ∧ rs.length = p.taken

variable {N a0 : BitVec 32} {base : Nat} {p : Place} {s : DmaFifo}

/-- No place of a frame is higher than this. -/
theorem Fetching.gauge_le (h : Fetching N a0 base p s) :
    p.gauge ≤ 2 * N.toNat + 1 + 5 * (base + N.toNat) := by
  have hr := h.frame.r_le
  have hk := h.frame.k_le
  obtain ⟨ws, rs, -, hsync, hws, hrs⟩ := h.fifo
  have hr2 := hsync.r2_le
  have hr1 := hsync.r1_le
  have hrw := hsync.reads_le
  have hw2 := hsync.w2_le
  have hw1 := hsync.w1_le
  rw [Place.gauge, DmaBus.fsmGauge]
  split <;> omega

/-- Before the last word something is waited for. -/
theorem Fetching.exists_needs (h : Fetching N a0 base p s) (hr : p.r < N.toNat) :
    ∃ k, p.needs N.toNat base k := by
  have hrk := h.frame.r_le
  have hp := h.frame.phase
  by_cases hreply : p.r < 64 * p.k
  · exact ⟨.reply, hreply⟩
  rw [DmaBus.Phase] at hp
  obtain ⟨ws, rs, -, hsync, hws, hrs⟩ := h.fifo
  have hr2 := hsync.r2_le
  have hr1 := hsync.r1_le
  cases hs : s.bus.dma.state with
  | idle => exact absurd hs h.frame.state_ne_idle
  | issueRead => exact ⟨.command, Or.inl (h.state.symm.trans hs)⟩
  | waitEnd =>
      rw [hs] at hp
      have hall : 64 * p.k = N.toNat := hp.2
      omega
  | checkFifo =>
      by_cases hwait : 446 < base + p.r - p.r2 ∧ p.r2 = p.r1 ∧ p.r1 = p.taken
      · exact ⟨.read, show p.taken < base + p.r by omega⟩
      · exact ⟨.command, Or.inr ⟨h.state.symm.trans hs, by omega⟩⟩

section Step

theorem cycles_eq (s : DmaFifo) (e : Event) : s.cycles e = (e.clk.map s.cycle).toList := by
  cases e <;> rfl

theorem hasWrclk_fifoEdge (s : DmaFifo) (e : Event) :
    (s.fifoEdge e).hasWrclk = e.clk.isSome := by
  cases e <;> rfl

theorem hasRdclk_fifoEdge (s : DmaFifo) (e : Event) :
    (s.fifoEdge e).hasRdclk = e.rd.isSome := by
  cases e <;> rfl

/-- A read request at a `clk_hdmi` edge takes a word when the FIFO shows one. -/
theorem acceptedRead_isSome {e : Event} (hrd : e.rd = some true)
    (hne : s.fifo.rd.rdempty = false) :
    (SimpleDcfifo.acceptedRead s.fifo (s.fifoEdge e)).isSome = true := by
  have haccepts : s.fifo.rd.accepts true = true := by
    rw [SimpleDcfifo.RdSide.accepts, hne]
    rfl
  cases e with
  | clk50 c => exact absurd hrd (by simp [Event.rd])
  | clkHdmi rdreq =>
      obtain rfl : rdreq = true := Option.some.inj hrd
      simp only [fifoEdge, SimpleDcfifo.acceptedRead, haccepts, if_true,
        Option.isSome_some]
  | both c rdreq rdMask wrMask =>
      obtain rfl : rdreq = true := Option.some.inj hrd
      simp only [fifoEdge, SimpleDcfifo.acceptedRead, haccepts, if_true,
        Option.isSome_some]

/-- What an event does to the DMA in a frame. -/
structure BusStep (N a0 : BitVec 32) (p : Place) (s : DmaFifo) (e : Event) (k r : Nat) : Prop where
  frame : DmaBus.InFrame N (s.step N e).bus a0 k r
  k_le : p.k ≤ k
  addrs : wordAddrs a0 r = wordAddrs a0 p.r ++
    (DmaBus.pushed (log (DmaBus.step N) s.bus (s.cycles e))).map Prod.fst
  fsm : DmaBus.fsmGauge p.state p.k < DmaBus.fsmGauge (s.step N e).bus.dma.state k ∨
    (s.step N e).bus.dma.state = p.state ∧ k = p.k ∧ ∀ c, e.clk = some c →
      (p.state = .issueRead → c.mWaitrequest = true) ∧
      (p.state = .checkFifo → 64 * p.k < N.toNat ∧
        446 < s.fifo.wr.wrusedw.toNat + (64 * p.k - p.r))
  reply : p.r < 64 * p.k → Need.Met .reply e → p.r < r

theorem Fetching.owed_length (h : Fetching N a0 base p s) :
    s.bus.owed.length = 64 * p.k - p.r := by
  rw [h.frame.owed, List.length_drop, length_wordAddrs]

theorem Credit.owed_le {ws rs : List (BitVec 32)} (h : Credit N s ws rs) :
    s.bus.owed.length ≤ 510 := by
  obtain ⟨r2, r1, w2, w1, hsync, hbound⟩ := h.bound
  have hr2 := hsync.r2_le
  have hr1 := hsync.r1_le
  have hrw := hsync.reads_le
  have hw2 := hsync.w2_le
  have hw1 := hsync.w1_le
  have hlimit : DmaBus.limit s.bus.dma ≤ 510 := by
    rw [DmaBus.limit]
    split <;> omega
  omega

theorem Fetching.bus_step (hdvd : 64 ∣ N.toNat) (h : Fetching N a0 base p s)
    (hr : p.r < N.toNat) (e : Event) : ∃ k r, BusStep N a0 p s e k r := by
  obtain ⟨ws, rs, hcredit, -⟩ := h.fifo
  have howed := hcredit.owed_le
  have hcycles := cycles_eq s e
  cases hclk : e.clk with
  | none =>
      rw [hclk] at hcycles
      have hbus : (s.step N e).bus = s.bus := by
        change run (DmaBus.step N) s.bus (s.cycles e) = s.bus
        rw [hcycles]
        rfl
      refine ⟨p.k, p.r, ?_, Nat.le_refl _, ?_, Or.inr ⟨?_, rfl, ?_⟩, ?_⟩
      · rw [hbus]
        exact h.frame
      · rw [hcycles]
        exact (List.append_nil _).symm
      · rw [hbus, h.state]
      · intro c hc
        rw [hclk] at hc
        exact absurd hc (by simp)
      · rintro - ⟨c, hc, -⟩
        rw [hclk] at hc
        exact absurd hc (by simp)
  | some c =>
      rw [hclk] at hcycles
      have hbus : (s.step N e).bus = s.bus.step N (s.cycle c) := by
        change run (DmaBus.step N) s.bus (s.cycles e) = _
        rw [hcycles]
        rfl
      have hpushed : DmaBus.pushed (log (DmaBus.step N) s.bus (s.cycles e)) =
          (s.bus.returned (s.cycle c)).toList := by
        rw [hcycles]
        cases hret : s.bus.returned (s.cycle c) <;> simp [DmaBus.pushed, hret]
      refine ⟨p.k + (s.bus.accepted (s.cycle c)).isSome.toNat,
        p.r + (s.bus.returned (s.cycle c)).isSome.toNat, ?_, Nat.le_add_right _ _, ?_, ?_, ?_⟩
      · rw [hbus]
        exact h.frame.step hdvd hr (s.cycle c)
      · rw [hpushed]
        exact (h.frame.pushed_next (s.cycle c)).symm
      · rw [hbus, ← h.state]
        rcases h.frame.fsm_step hr howed (s.cycle c) with hlt | ⟨hsame, hnone, hissue, hcheck⟩
        · exact Or.inl hlt
        · right
          refine ⟨hsame, by rw [hnone]; rfl, ?_⟩
          rintro c' hc'
          rw [hclk] at hc'
          obtain rfl : c = c' := Option.some.inj hc'
          refine ⟨hissue, fun hs => ?_⟩
          rw [← h.owed_length]
          exact hcheck hs
      · rintro hlt ⟨c', hc', hret⟩
        rw [hclk] at hc'
        obtain rfl : c = c' := Option.some.inj hc'
        rcases h.frame.returned (s.cycle c) with hnone | ⟨-, d, hsome⟩
        · exfalso
          rw [DmaBus.returned, h.frame.owed, drop_wordAddrs a0 hlt] at hnone
          cases hd : c.ret with
          | none => rw [hd] at hret; exact absurd hret (by decide)
          | some d =>
              have hcret : (s.cycle c).ret = some d := hd
              rw [hcret] at hnone
              exact absurd hnone (by simp)
        · rw [hsome]
          exact Nat.lt_succ_self _

/-- When the slave takes commands, a frame that waits for a `clk_50` edge moves on, or the
write side has still to see that words were taken. -/
theorem BusStep.command {e : Event} {k r : Nat} (h : BusStep N a0 p s e k r)
    (hused : s.fifo.wr.wrusedw.toNat = min (base + p.r - p.r2) 511)
    (hneeds : p.needs N.toNat base .command) (hmet : Need.Met .command e) :
    DmaBus.fsmGauge p.state p.k < DmaBus.fsmGauge (s.step N e).bus.dma.state k ∨
      p.r2 < p.r1 ∨ p.r1 < p.taken := by
  obtain ⟨c, hclk, hw⟩ := hmet
  rcases h.fsm with hlt | ⟨-, -, hstill⟩
  · exact Or.inl hlt
  obtain ⟨hissue, hcheck⟩ := hstill c hclk
  rcases hneeds with hs | ⟨hs, hwait⟩
  · exact absurd (hw.symm.trans (hissue hs)) Bool.false_ne_true
  · obtain ⟨hmore, hfull⟩ := hcheck hs
    rw [hused] at hfull
    rcases hwait with hall | hroom | hsees
    · omega
    · omega
    · exact Or.inr hsees

/-- What an event does to the FIFO: no count goes back, and one that waits goes on when
its clock has an edge, and a word is requested. -/
theorem synced_step {ws rs : List (BitVec 32)} {r2 r1 w2 w1 : Nat}
    (h : SimpleDcfifo.Synced s.fifo ws rs r2 r1 w2 w1) (e : Event) :
    ∃ rs' r2' r1' w2' w1', SimpleDcfifo.Synced (s.fifo.step (s.fifoEdge e))
        (ws ++ (SimpleDcfifo.acceptedWrite s.fifo (s.fifoEdge e)).toList) rs' r2' r1' w2' w1' ∧
      rs' = rs ++ (SimpleDcfifo.acceptedRead s.fifo (s.fifoEdge e)).toList ∧
      (rs.length ≤ rs'.length ∧ r2 ≤ r2' ∧ r1 ≤ r1' ∧ w2 ≤ w2' ∧ w1 ≤ w1') ∧
      (e.clk.isSome = true → r2 < r1 ∨ r1 < rs.length → r2 < r2' ∨ r1 < r1') ∧
      (e.rd = some true → rs.length < ws.length →
        rs.length < rs'.length ∨ w2 < w2' ∨ w1 < w1') := by
  obtain ⟨r2', r1', w2', w1', ⟨hr2, hr1, hwr⟩, ⟨hw2, hw1, hrd⟩, h'⟩ :=
    h.step_both (by decide) (s.fifoEdge e)
  refine ⟨_, r2', r1', w2', w1', h', rfl, ⟨?_, hr2, hr1, hw2, hw1⟩, ?_, ?_⟩
  · rw [List.length_append]
    exact Nat.le_add_right _ _
  · intro hclk hwait
    obtain ⟨h2, h1⟩ := hwr ((hasWrclk_fifoEdge s e).trans hclk)
    omega
  · intro hread hlt
    have hreads := h.reads_le
    have hcap := h.cap
    have hr2' := h.r2_le
    have hr1' := h.r1_le
    have hw2' := h.w2_le
    have hw1' := h.w1_le
    obtain ⟨h2, h1⟩ := hrd ((hasRdclk_fifoEdge s e).trans (by rw [hread]; rfl))
    by_cases hseen : rs.length < w2
    · left
      have hne : s.fifo.rd.rdempty = false := by
        rw [Bool.eq_false_iff, Ne, h.rd.rdempty_iff hreads (by omega)]
        omega
      obtain ⟨d, hd⟩ := Option.isSome_iff_exists.1 (acceptedRead_isSome hread hne)
      rw [hd, List.length_append]
      exact Nat.lt_succ_self _
    · omega

/-- A gauge that does not increase leaves the place. -/
theorem Place.eq_of_gauge_le {p p' : Place} (hk : p.k ≤ p'.k)
    (hfsm : DmaBus.fsmGauge p.state p.k < DmaBus.fsmGauge p'.state p'.k ∨
      p'.state = p.state ∧ p'.k = p.k) (hr : p.r ≤ p'.r) (htaken : p.taken ≤ p'.taken)
    (hr2 : p.r2 ≤ p'.r2) (hr1 : p.r1 ≤ p'.r1) (hw2 : p.w2 ≤ p'.w2) (hw1 : p.w1 ≤ p'.w1)
    (hle : p'.gauge ≤ p.gauge) : p' = p := by
  obtain ⟨state, k, r, taken, r2, r1, w2, w1⟩ := p
  obtain ⟨state', k', r', taken', r2', r1', w2', w1'⟩ := p'
  simp only [Place.gauge] at hle hk hfsm hr htaken hr2 hr1 hw2 hw1
  rcases hfsm with hlt | ⟨rfl, rfl⟩
  · omega
  · simp only [Place.mk.injEq, true_and]
    omega

/-- An event of a frame: nothing goes back, and what is waited for makes something go
on. -/
theorem Fetching.step (hpos : 0 < N.toNat) (hdvd : 64 ∣ N.toNat)
    (h : Fetching N a0 base p s) (hr : p.r < N.toNat) (e : Event) :
    ∃ p', Fetching N a0 base p' (s.step N e) ∧
      wordAddrs a0 p'.r = wordAddrs a0 p.r ++
        (DmaBus.pushed (log (DmaBus.step N) s.bus (s.cycles e))).map Prod.fst ∧
      (p.gauge < p'.gauge ∨ p' = p ∧ ∀ k, p.needs N.toNat base k → ¬ k.Met e) := by
  obtain ⟨k', r', hbus⟩ := h.bus_step hdvd hr e
  obtain ⟨ws, rs, hcredit, hsync, hws, hrs⟩ := h.fifo
  obtain ⟨rs', r2', r1', w2', w1', hsync', rfl, ⟨htaken, hr2, hr1, hw2, hw1⟩, hclock, hread⟩ :=
    synced_step hsync e
  have hwrite := acceptedWrite_eq (N := N) s hcredit.wrfull e
  have hlen := congrArg List.length hbus.addrs
  rw [List.length_append, List.length_map, length_wordAddrs, length_wordAddrs] at hlen
  have hused := hsync.wr.wrusedw_toNat
    (Nat.le_trans hsync.r2_le (Nat.le_trans hsync.r1_le (Nat.le_trans hsync.reads_le
      (Nat.le_trans hsync.w2_le hsync.w1_le)))) hsync.cap
  rw [hws] at hused
  rw [hrs] at htaken hclock hread
  generalize hrs' : (rs ++ (SimpleDcfifo.acceptedRead s.fifo (s.fifoEdge e)).toList).length =
    taken' at htaken hread
  have hfetch : Fetching N a0 base
      ⟨(s.step N e).bus.dma.state, k', r', taken', r2', r1', w2', w1'⟩ (s.step N e) := by
    refine ⟨rfl, hbus.frame, _, _, hcredit.step hpos hdvd e, hsync', ?_, hrs'⟩
    rw [List.length_append, hwrite, List.length_map, hws]
    change base + p.r + _ = base + r'
    omega
  refine ⟨_, hfetch, hbus.addrs, ?_⟩
  refine or_iff_not_imp_left.2 fun hlt => ?_
  have hsame : ⟨(s.step N e).bus.dma.state, k', r', taken', r2', r1', w2', w1'⟩ = p :=
    Place.eq_of_gauge_le hbus.k_le (hbus.fsm.imp id fun h => ⟨h.1, h.2.1⟩)
      (show p.r ≤ r' by omega) htaken hr2 hr1 hw2 hw1 (Nat.le_of_not_lt hlt)
  have hk : k' = p.k := congrArg Place.k hsame
  have hr' : r' = p.r := congrArg Place.r hsame
  have hstate : (s.step N e).bus.dma.state = p.state := congrArg Place.state hsame
  have htaken' : taken' = p.taken := congrArg Place.taken hsame
  have hr2' : r2' = p.r2 := congrArg Place.r2 hsame
  have hr1' : r1' = p.r1 := congrArg Place.r1 hsame
  have hw2' : w2' = p.w2 := congrArg Place.w2 hsame
  have hw1' : w1' = p.w1 := congrArg Place.w1 hsame
  refine ⟨hsame, ?_⟩
  intro k hneeds hmet
  cases k with
  | command =>
      have hclk : e.clk.isSome = true := by
        obtain ⟨c, hc, -⟩ := hmet
        rw [hc]
        rfl
      rcases hbus.command hused hneeds hmet with hmoves | hsees
      · rw [hstate, hk] at hmoves
        exact Nat.lt_irrefl _ hmoves
      · have hmoves := hclock hclk hsees
        omega
  | reply =>
      have hmoves := hbus.reply hneeds hmet
      omega
  | read =>
      have hmoves := hread hmet (by rw [hws]; exact hneeds)
      omega

end Step

section Run

/-- The last word of a frame is the one at which `dma_done` is set. -/
theorem Fetching.done_iff (h : Fetching N a0 base p s) :
    s.bus.dma.dmaDone = true ↔ p.r = N.toNat := by
  rw [h.frame.done, decide_eq_true_eq]

theorem Fetching.lt_of_not_done (h : Fetching N a0 base p s)
    (hd : ¬ s.bus.dma.dmaDone = true) :
    p.r < N.toNat := by
  have hne := mt h.done_iff.2 hd
  have hrk := h.frame.r_le
  have hk := h.frame.k_le
  omega

/-- A frame makes progress. -/
theorem progress (hpos : 0 < N.toNat) (hdvd : 64 ∣ N.toNat) :
    Progress (step N) (fun _ _ => True) Need.Met (fun p _ => p.needs N.toNat base) Place.gauge
      (fun s => s.bus.dma.dmaDone = true) (Fetching N a0 base)
      (2 * N.toNat + 1 + 5 * (base + N.toNat)) where
  le_bound h := h.gauge_le
  step := by
    intro p s e h hd _
    have hr := h.lt_of_not_done hd
    obtain ⟨p', h', -, hgauge⟩ := h.step hpos hdvd hr e
    refine ⟨p', h', Or.inr ?_⟩
    rcases hgauge with hlt | ⟨rfl, hunmet⟩
    · exact Or.inl hlt
    · exact Or.inr ⟨rfl, h.exists_needs hr, fun k hk => ⟨hk, hunmet k hk⟩⟩

/-- Up to the last word of a frame its words are written to the FIFO in order. -/
theorem Fetching.run (hpos : 0 < N.toNat) (hdvd : 64 ∣ N.toNat)
    (h : Fetching N a0 base p s) (h0 : p.r = 0) (es : Nat → Event) (t : Nat)
    (hd : ∀ t', t' < t → ¬ (states (DmaFifo.step N) s es t').bus.dma.dmaDone = true) :
    let l := log (DmaFifo.step N) s ((List.range t).map es)
    ∃ p', Fetching N a0 base p' (states (DmaFifo.step N) s es t) ∧
      (DmaBus.pushed (busLog N l)).map Prod.fst = wordAddrs a0 p'.r ∧
      written l = (DmaBus.pushed (busLog N l)).map Prod.snd := by
  induction t with
  | zero => exact ⟨p, h, by rw [h0]; rfl, rfl⟩
  | succ t ih =>
      obtain ⟨p', h', haddrs, hwritten⟩ := ih fun t' ht' => hd t' (Nat.lt_succ_of_lt ht')
      have hr := h'.lt_of_not_done (hd t (Nat.lt_succ_self t))
      obtain ⟨p'', h'', hnext, -⟩ := h'.step hpos hdvd hr (es t)
      obtain ⟨ws, rs, hcredit, -⟩ := h'.fifo
      refine ⟨p'', h'', ?_, ?_⟩
      · rw [List.range_succ, List.map_append, List.map_singleton, log_snoc,
          ← states_eq_run, busLog_snoc, DmaBus.pushed_append, List.map_append, haddrs]
        exact hnext.symm
      · rw [List.range_succ, List.map_append, List.map_singleton, log_snoc,
          ← states_eq_run, busLog_snoc, DmaBus.pushed_append, List.map_append,
          written_snoc, hwritten, acceptedWrite_eq (N := N) _ hcredit.wrfull]

/-- A trigger opens a frame. -/
theorem fetching_of_trigger (hpos : 0 < N.toNat) (mem0 : BitVec 9 → BitVec 32)
    (hdvd : 64 ∣ N.toNat) (pre : List Event) {e : Event} {c : ClkIn}
    (hclk : e.clk = some c)
    (htrig : let s := Lib.run (DmaFifo.step N) (init mem0) pre
      s.bus.triggers (s.cycle c) = true) :
    ∃ base p, p.r = 0 ∧ Fetching N c.startAddr base p
      (Lib.run (DmaFifo.step N) (init mem0) (pre ++ [e])) := by
  have hcredit := credit_run hpos hdvd mem0 pre
  have hcredit' := credit_run hpos hdvd mem0 (pre ++ [e])
  rw [run_snoc] at hcredit' ⊢
  generalize Lib.run (DmaFifo.step N) (init mem0) pre = s at htrig hcredit hcredit' ⊢
  change s.bus.triggers (s.cycle c) = true at htrig
  rw [DmaBus.triggers, Bool.and_eq_true, beq_iff_eq] at htrig
  have hframe := (hcredit.settled.idle htrig.1).step_trigger hpos (s.cycle c) htrig.2
  have hbus : (s.step N e).bus = s.bus.step N (s.cycle c) := by
    change Lib.run (DmaBus.step N) s.bus (s.cycles e) = _
    rw [cycles_eq, hclk]
    rfl
  obtain ⟨r2, r1, w2, w1, hsync, hbound⟩ := hcredit'.bound
  exact ⟨_, ⟨(s.step N e).bus.dma.state, 0, 0, _, r2, r1, w2, w1⟩, rfl, rfl, hbus ▸ hframe, _, _,
    hcredit', hsync, rfl, rfl⟩

/-- **A frame is fetched in the end.**  Take any run from power-up whose last event
triggers a frame.  However the slave stalls and delays its words, however the clocks are
related and whenever the read side takes words, as long as a command, a reply and a read
request meet their clock edges again and again, `dma_done` is set some time; by then all
words of the frame, and no others, have been returned and written to the FIFO, in order,
and the next `clk_50` edge makes the DMA ready for the next frame. -/
theorem frame_completes (hpos : 0 < N.toNat) (hdvd : 64 ∣ N.toNat)
    (mem0 : BitVec 9 → BitVec 32) (pre : List Event) (e : Event) (c : ClkIn)
    (hclk : e.clk = some c)
    (htrig : let s := run (step N) (init mem0) pre
      s.bus.triggers (s.cycle c) = true)
    (es : Nat → Event) (hfair : Fair Need.Met es) :
    let s := run (step N) (init mem0) (pre ++ [e])
    ∃ t, let l := log (step N) s ((List.range t).map es)
      let s' := states (step N) s es t
      s'.bus.dma.dmaDone = true ∧
        (DmaBus.pushed (busLog N l)).map Prod.fst = wordAddrs c.startAddr N.toNat ∧
        written l = (DmaBus.pushed (busLog N l)).map Prod.snd ∧
        ∀ e', e'.clk.isSome = true → (s'.step N e').bus.dma.state = .idle := by
  intro s
  obtain ⟨base, p, h0, h⟩ := fetching_of_trigger hpos mem0 hdvd pre hclk htrig
  have hex : ∃ t, (states (step N) s es t).bus.dma.dmaDone = true := by
    obtain ⟨t, -, -, hd⟩ := (progress hpos hdvd).eventually hfair (fun _ => trivial) h
    exact ⟨t, hd⟩
  refine ⟨Nat.find hex, ?_⟩
  obtain ⟨p', h', haddrs, hwritten⟩ := h.run hpos hdvd h0 es (Nat.find hex)
    fun t' ht' => Nat.find_min hex ht'
  have hd := Nat.find_spec hex
  have hall := h'.done_iff.1 hd
  rw [hall] at haddrs
  refine ⟨hd, haddrs, hwritten, ?_⟩
  intro e' he'
  obtain ⟨c', hc'⟩ := Option.isSome_iff_exists.1 he'
  have hlast :=
    (h'.frame.step_last hall ((states (step N) s es (Nat.find hex)).cycle c')).1.state
  change (Lib.run (DmaBus.step N) _ (cycles _ e')).dma.state = _
  rw [cycles_eq, hc']
  exact hlast

end Run

end DmaFifo
end VideoProcessing
