import VideoProcessing.Video.DmaFrames
import VideoProcessing.Video.FramePointer
import VideoProcessing.Video.StillRun

/-!
# End-to-end frame integrity

The invariant `Displaying` ties the raster to the words: `readsDue` is the number
of words that the raster has read of the frame it shows, and all frames before it
have been read to their last word.  So every VSync finds the DMA idle
(`Displaying.idle_of_pulse`), and the word in the output register is that of the
position (`Displaying.step_output`).
-/

namespace VideoProcessing
namespace VideoPipeline

open Lib
open HdmiPixel (vsStart)

/-- The words accepted by the FIFO over a log, oldest first. -/
def written (l : List (VideoPipeline × Event)) : List (BitVec 32) :=
  DmaFifo.written (dmaLog l)

/-- The words read from the FIFO over a log, oldest first. -/
def taken (l : List (VideoPipeline × Event)) : List (BitVec 32) :=
  DmaFifo.taken (dmaLog l)

/-- The values of `shadow_ptr` latched by the triggers of a log, oldest first. -/
def latched (l : List (VideoPipeline × Event)) : List (BitVec 32) :=
  l.filterMap fun p => if p.1.triggers p.2 then some p.1.csr.shadowPtr else none

variable {s : VideoPipeline} {l : List (VideoPipeline × Event)} {e : Event} {seen : Bool}

section Snoc

@[simp] theorem written_nil : written [] = [] := rfl

@[simp] theorem taken_nil : taken [] = [] := rfl

/-- The FIFO edge of an event. -/
def fifoEdge (s : VideoPipeline) (e : Event) : SimpleDcfifo.Edge 32 9 :=
  s.dmaFifo.fifoEdge (s.fifoEvent e)

theorem dmaLog_snoc (l : List (VideoPipeline × Event)) (s : VideoPipeline) (e : Event) :
    dmaLog (l ++ [(s, e)]) = dmaLog l ++ [(s.dmaFifo, s.fifoEvent e)] := by
  simp [dmaLog]

theorem written_snoc (l : List (VideoPipeline × Event)) (s : VideoPipeline) (e : Event) :
    written (l ++ [(s, e)]) =
      written l ++ (SimpleDcfifo.acceptedWrite s.dmaFifo.fifo (s.fifoEdge e)).toList := by
  rw [written, dmaLog_snoc, DmaFifo.written_snoc]
  rfl

theorem taken_snoc (l : List (VideoPipeline × Event)) (s : VideoPipeline) (e : Event) :
    taken (l ++ [(s, e)]) =
      taken l ++ (SimpleDcfifo.acceptedRead s.dmaFifo.fifo (s.fifoEdge e)).toList := by
  rw [taken, DmaFifo.taken, dmaLog_snoc, DmaFifo.fifoLog_snoc, SimpleDcfifo.reads_snoc]
  rfl

theorem latched_snoc (l : List (VideoPipeline × Event)) (s : VideoPipeline) (e : Event) :
    latched (l ++ [(s, e)]) =
      latched l ++ if s.triggers e then [s.csr.shadowPtr] else [] := by
  simp only [latched, List.filterMap_append]
  cases h : s.triggers e <;> simp [h]

/-- The triggers start the frames of the DMA at `shadow_ptr`. -/
theorem latched_eq (l : List (VideoPipeline × Event)) :
    latched l = DmaBus.startAddrs (busLog l) := by
  induction l using List.reverseRecOn with
  | nil => rfl
  | append_singleton l p ih =>
      obtain ⟨s, e⟩ := p
      rw [latched_snoc, busLog_snoc, ih, triggers]
      cases e.clkIn with
      | none => simp
      | some c =>
          rw [Option.map_some, Option.toList_some, DmaBus.startAddrs_snoc]
          rfl

theorem step_fifo (s : VideoPipeline) (e : Event) :
    (s.step e).dmaFifo.fifo = s.dmaFifo.fifo.step (s.fifoEdge e) := by
  rw [step_dmaFifo]
  rfl

/-- A read of the FIFO: a pixel clock with `stream_rd_en` high and a word there. -/
theorem acceptedRead_isSome (s : VideoPipeline) (e : Event) :
    (SimpleDcfifo.acceptedRead s.dmaFifo.fifo (s.fifoEdge e)).isSome =
      (e.ticksHdmi && (s.streamRdEn && !s.dmaFifo.fifo.rd.rdempty)) := by
  have hite : ∀ (b : Bool) (w : BitVec 32), (if b then some w else none).isSome = b := by
    intro b w
    cases b <;> rfl
  cases e with
  | clk50 c => rfl
  | clkHdmi => exact hite _ _
  | both c rdMask wrMask vsNew toggleNew => exact hite _ _

end Snoc

/-- What the DMA and the FIFO keep over every run from power-up. -/
structure Wired (s : VideoPipeline) (l : List (VideoPipeline × Event)) : Prop where
  credit : DmaFifo.Credit DmaFifo.frameSizeWords s.dmaFifo (written l) (taken l)
  words : written l = (DmaBus.pushed (busLog l)).map Prod.snd
  framed : DmaBus.Framed DmaFifo.frameSizeWords s.dmaFifo.bus (busLog l)
  last : taken l = [] ∨ (taken l).getLast? = some s.dmaFifo.fifo.rd.q

theorem wired_init (mem0 : BitVec 9 → BitVec 32) (csr0 : HdmiCsr) :
    Wired (init mem0 csr0) [] where
  credit := DmaFifo.credit_init mem0
  words := rfl
  framed := Or.inl ⟨DmaBus.idle_init, rfl, rfl⟩
  last := Or.inl rfl

theorem Wired.step (h : Wired s l) (e : Event) : Wired (s.step e) (l ++ [(s, e)]) where
  credit := by
    rw [step_dmaFifo, written_snoc, taken_snoc]
    exact h.credit.step DmaFifo.frameSizeWords_pos DmaFifo.frameSizeWords_dvd _
  words := by
    rw [written_snoc, busLog, dmaLog_snoc, DmaFifo.busLog_snoc, DmaBus.pushed_append,
      List.map_append, h.words, fifoEdge,
      DmaFifo.acceptedWrite_eq (N := DmaFifo.frameSizeWords) _ h.credit.wrfull]
    rfl
  framed := by
    rw [step_bus, busLog_snoc]
    cases e.clkIn with
    | none => simpa using h.framed
    | some c =>
        exact h.framed.step DmaFifo.frameSizeWords_pos DmaFifo.frameSizeWords_dvd _
  last := by
    rw [taken_snoc, step_fifo, SimpleDcfifo.step_q]
    cases SimpleDcfifo.acceptedRead s.dmaFifo.fifo (s.fifoEdge e) with
    | none => simpa using h.last
    | some w => simp

theorem Wired.tracks (h : Wired s l) :
    SimpleDcfifo.Tracks s.dmaFifo.fifo (written l) (taken l) := by
  obtain ⟨r2, r1, w2, w1, hsync, _⟩ := h.credit.bound
  exact ⟨r2, r1, w2, w1, hsync⟩

/-- No frame brings more than its words. -/
theorem Wired.written_le (h : Wired s l) :
    (written l).length ≤ 518400 * (latched l).length := by
  have hN : DmaFifo.frameSizeWords.toNat = 518400 := rfl
  have hw := congrArg List.length h.words
  rw [List.length_map] at hw
  rw [hw, latched_eq]
  rcases h.framed with ⟨_, hwords, _⟩ | ⟨as, a0, k, r, hf, has, hwords, _⟩
  · have hlen := congrArg List.length hwords
    rw [List.length_map, DmaBus.length_frameAddrs, hN] at hlen
    omega
  · have hlen := congrArg List.length hwords
    have hr := hf.r_le
    have hk := hf.k_le
    rw [List.length_map, List.length_append, DmaBus.length_frameAddrs, length_wordAddrs,
      hN] at hlen
    rw [hN] at hk
    rw [has, List.length_append, List.length_singleton]
    omega

/-- When all words of the started frames are there, the DMA is idle or in the last
cycle of a frame. -/
theorem Wired.idle_or_last (h : Wired s l)
    (hall : 518400 * (latched l).length ≤ (written l).length) :
    DmaBus.Idle s.dmaFifo.bus ∨
      ∃ a0 k, DmaBus.InFrame DmaFifo.frameSizeWords s.dmaFifo.bus a0 k
        DmaFifo.frameSizeWords.toNat := by
  have hN : DmaFifo.frameSizeWords.toNat = 518400 := rfl
  have hw := congrArg List.length h.words
  rw [List.length_map] at hw
  rw [hw, latched_eq] at hall
  rcases h.framed with ⟨hidle, _⟩ | ⟨as, a0, k, r, hf, has, hwords, _⟩
  · exact Or.inl hidle
  · right
    have hlen := congrArg List.length hwords
    have hr := hf.r_le
    have hk := hf.k_le
    rw [List.length_map, List.length_append, DmaBus.length_frameAddrs, length_wordAddrs,
      hN] at hlen
    rw [has, List.length_append, List.length_singleton] at hall
    have hr' : r = DmaFifo.frameSizeWords.toNat := by omega
    exact ⟨a0, k, hr' ▸ hf⟩

/-- Before the first trigger the DMA is idle. -/
theorem Wired.idle_of_none (h : Wired s l) (hnone : (latched l).length = 0) :
    DmaBus.Idle s.dmaFifo.bus := by
  rw [latched_eq] at hnone
  rcases h.framed with ⟨hidle, _⟩ | ⟨as, a0, k, r, _, has, _⟩
  · exact hidle
  · rw [has, List.length_append, List.length_singleton] at hnone
    omega

section Raster

/-- The words that the raster has read of the frame it shows: none between the
pulse of a VSync and the first line, all of them from the last line to the next
pulse. -/
def readsAt (h v : Nat) (owes : Bool) : Nat :=
  if 543 ≤ v ∧ owes = false then 0
  else 960 * min v 540 + if v < 540 then min h 960 else 0

theorem readsAt_stay {h v : Nat} {o o' pulse : Bool}
    (ho : o'.toNat + pulse.toNat = o.toNat) (hplace : o = true → v = 543) :
    readsAt h v o' + 518400 * pulse.toNat = readsAt h v o := by
  cases pulse with
  | false =>
      obtain rfl : o' = o := by cases o' <;> cases o <;> simp_all
      rfl
  | true =>
      obtain ⟨rfl, rfl⟩ : o' = false ∧ o = true := by cases o' <;> cases o <;> simp_all
      rw [hplace rfl]
      simp [readsAt]

theorem readsAt_next {h v h' v' : Nat} {o o' pulse rise : Bool} (hh : h < 1120)
    (hv : v < 563) (hh' : h' = if h = 1119 then 0 else h + 1)
    (hv' : v' = if h = 1119 then if v = 562 then 0 else v + 1 else v)
    (ho : o'.toNat + pulse.toNat = o.toNat + rise.toNat)
    (hplace : o = true → v = 543 ∧ h ≤ 3) (hplace' : o' = true → v' = 543 ∧ h' ≤ 3)
    (hrise : rise = true ↔ h' = 0 ∧ v' = 543) :
    readsAt h' v' o' + 518400 * pulse.toNat =
      readsAt h v o + if h < 960 ∧ v < 540 then 1 else 0 := by
  by_cases hwrap : h = 1119
  · rw [if_pos hwrap] at hh' hv'
    have hof : o = false := by
      rw [Bool.eq_false_iff]
      intro hc
      have := (hplace hc).2
      omega
    subst hof
    by_cases h562 : v = 562
    · rw [if_pos h562] at hv'
      cases o' <;> cases pulse <;> cases rise <;> simp_all [readsAt]
    · rw [if_neg h562] at hv'
      cases o' <;> cases pulse <;> cases rise <;> simp [readsAt] at * <;> split_ifs <;> omega
  · rw [if_neg hwrap] at hh' hv'
    have hrf : rise = false := by
      rw [Bool.eq_false_iff]
      intro hc
      have := (hrise.1 hc).1
      omega
    subst hrf
    cases o' <;> cases pulse <;> cases o <;> simp [readsAt] at * <;> split_ifs <;> omega

def readsDue (s : VideoPipeline) : Nat :=
  readsAt s.pixel.hCnt.toNat s.pixel.vCnt.toNat s.owesPulse

theorem step_pixel (s : VideoPipeline) (e : Event) :
    (s.step e).pixel = if e.ticksHdmi then s.pixelNext else s.pixel := by
  cases e <;> rfl

theorem visible_iff (s : VideoPipeline) :
    s.pixel.visible params = true ↔
      s.pixel.hCnt.toNat < 960 ∧ s.pixel.vCnt.toNat < 540 := by
  rw [HdmiPixel.visible, Bool.and_eq_true, decide_eq_true_eq, decide_eq_true_eq]
  rfl

/-- A pulse is owed only at the start of the first line of VSync. -/
theorem Synced.owesPulse_place (h : Synced s seen) (ho : s.owesPulse = true) :
    s.pixel.vCnt.toNat = 543 ∧ s.pixel.hCnt.toNat ≤ 3 := by
  rw [owesPulse, Bool.or_eq_true] at ho
  rcases ho with hf | hf
  · obtain ⟨hz, hv, _⟩ := h.flip hf
    exact ⟨hv, by omega⟩
  · exact ⟨h.place hf, (h.inFlight_hCnt hf).2⟩

/-- The next position of the raster. -/
theorem Synced.next_pos (h : Synced s seen) :
    (s.pixelNext.hCnt.toNat =
      if s.pixel.hCnt.toNat = 1119 then 0 else s.pixel.hCnt.toNat + 1) ∧
    (s.pixelNext.vCnt.toNat =
      if s.pixel.hCnt.toNat = 1119 then
        if s.pixel.vCnt.toNat = 562 then 0 else s.pixel.vCnt.toNat + 1
      else s.pixel.vCnt.toNat) :=
  ⟨h.raster.step_hCnt _ _, h.raster.step_vCnt _ _⟩

/-- VSync does not rise while its last pulse is owed. -/
theorem Synced.not_rise_of_owes (h : Synced s seen) (ho : s.owesPulse = true) (e : Event) :
    s.vsyncRise e = false := by
  rw [Bool.eq_false_iff]
  intro hr
  rw [vsyncRise, Bool.and_eq_true] at hr
  have hz := ((h.raster.rise_iff _ _).1 hr.2).1
  have hle := (h.owesPulse_place ho).2
  have hh := h.next_pos.1
  rw [if_neg (by omega)] at hh
  rw [pixelNext] at hh
  omega

/-- A pixel clock in the visible area reads a word, and a pulse starts afresh. -/
theorem Synced.readsDue_step (h : Synced s seen) (hcov : e.covered seen = true) :
    (s.step e).readsDue + 518400 * (s.vsyncPulse e).toNat =
      s.readsDue + (e.ticksHdmi && s.pixel.visible params).toNat := by
  have howes := h.owesPulse_step e
  have hplace' := (h.step hcov).owesPulse_place
  rw [readsDue, readsDue]
  rw [step_pixel] at hplace' ⊢
  cases ht : e.ticksHdmi with
  | false =>
      have hno : s.vsyncRise e = false := by
        rw [vsyncRise, ht, Bool.false_and]
      rw [hno] at howes
      exact readsAt_stay howes fun ho => (h.owesPulse_place ho).1
  | true =>
      rw [ht] at hplace'
      have hrise : s.vsyncRise e = true ↔
          s.pixelNext.hCnt.toNat = 0 ∧ s.pixelNext.vCnt.toNat = 543 := by
        rw [vsyncRise, ht, Bool.true_and]
        exact h.raster.rise_iff _ _
      have hread : (true && s.pixel.visible params).toNat =
          if s.pixel.hCnt.toNat < 960 ∧ s.pixel.vCnt.toNat < 540 then 1 else 0 := by
        rw [Bool.true_and]
        by_cases hv : s.pixel.visible params = true
        · rw [hv, if_pos (s.visible_iff.1 hv)]
          rfl
        · rw [if_neg fun hc => hv (s.visible_iff.2 hc), Bool.eq_false_iff.2 hv]
          rfl
      rw [hread]
      exact readsAt_next h.raster.h_lt h.raster.v_lt h.next_pos.1 h.next_pos.2 howes
        h.owesPulse_place hplace' hrise

end Raster

/-- A control write of software that sets the Start bit. -/
def ClkIn.start (c : ClkIn) : Bool :=
  c.sWrite && c.sAddress == 1 && c.sWritedata.getLsbD 2

/-- The output registers show the position `(x, y)`: they are two pixel clocks
behind the counters. -/
structure ShownAt (s : VideoPipeline) (x y : Nat) : Prop where
  x_lt : x < 960
  y_lt : y < 540
  hCnt : s.pixel.hCnt.toNat = x + 2
  vCnt : s.pixel.vCnt.toNat = y

/-- What the run must keep to: the clocks, no Start, and from the first trigger on
mode 8, Cont, registers that satisfy `look` and a FIFO that is never read empty. -/
structure Steady (look : HdmiCsr → Prop) (l : List (VideoPipeline × Event))
    (s : VideoPipeline) (e : Event) : Prop where
  covered : Covered l s e
  noStart : ∀ c, e.clkIn = some c → c.start = false
  held : 0 < (latched l).length →
    s.csr.mode = 8 ∧ s.csr.dmaContEn = true ∧ look s.csr
  fed : 0 < (latched l).length → e.ticksHdmi = true → s.streamRdEn = true →
    s.dmaFifo.fifo.rd.rdempty = false

/-- The control registers that the last pixel clock found. -/
def sampled (l : List (VideoPipeline × Event)) : Option HdmiCsr :=
  (l.filter fun p => p.2.ticksHdmi).getLast?.map fun p => p.1.csr

theorem sampled_snoc (l : List (VideoPipeline × Event)) (s : VideoPipeline) (e : Event) :
    sampled (l ++ [(s, e)]) = if e.ticksHdmi then some s.csr else sampled l := by
  rw [sampled, List.filter_append]
  cases h : e.ticksHdmi with
  | false => simp [sampled, h]
  | true => simp [h]

/-- What the output register holds for the word `d`: the three lower bytes, each of them
through the table when gamma is on. -/
theorem outputColor_word (g : Bool) (lut : BitVec 8 → BitVec 8) (d : BitVec 32) :
    HdmiPixel.outputColor g lut (d.setWidth 24) =
      if g then
        lut (d.extractLsb' 16 8) ++ lut (d.extractLsb' 8 8) ++ lut (d.extractLsb' 0 8)
      else d.extractLsb' 0 24 := by
  have hbyte : ∀ n, n + 8 ≤ 24 →
      (d.setWidth 24).extractLsb' n 8 = d.extractLsb' n 8 := by
    intro n hn
    ext i hi
    simp only [BitVec.getElem_extractLsb', BitVec.getLsbD_setWidth]
    rw [decide_eq_true (by omega), Bool.true_and]
  have hword : d.setWidth 24 = d.extractLsb' 0 24 := by
    ext i hi
    simp
  cases g with
  | false => exact hword
  | true =>
      rw [if_pos rfl, HdmiPixel.outputColor, if_pos rfl, HdmiPixel.gammaD,
        hbyte 16 (by decide), hbyte 8 (by decide), hbyte 0 (by decide)]

/-- The last word of the frame was read a `clk_50` edge ago. -/
def Late (s : VideoPipeline) (seen : Bool) : Prop :=
  540 ≤ s.pixel.vCnt.toNat ∨ s.pixel.vCnt.toNat = 539 ∧
    (961 ≤ s.pixel.hCnt.toNat ∨ s.pixel.hCnt.toNat = 960 ∧ seen = true)

/-- The invariant of a steady run. -/
structure Displaying (look : HdmiCsr → Prop) (s : VideoPipeline)
    (l : List (VideoPipeline × Event)) : Prop where
  start : s.csr.dmaStartPulse = false
  none_taken : (latched l).length = 0 → taken l = []
  count : 0 < (latched l).length →
    (taken l).length + 518400 = 518400 * (latched l).length + s.readsDue
  rested : 0 < (latched l).length → s.Late (seenAfter l) → s.readsDue = 518400 →
    DmaBus.Idle s.dmaFifo.bus
  output : ∀ n x y, (latched l).length = n + 1 → s.ShownAt x y →
    ∃ d c, (taken l)[518400 * n + (960 * y + x)]? = some d ∧ sampled l = some c ∧ look c ∧
      s.pixel.hdmiD = HdmiPixel.outputColor c.gammaEn c.lutMem (d.setWidth 24)

/-- A word read for a position of the last frame is the one that the slave returned for its
address. -/
theorem Wired.pushed_of_taken (hw : Wired s l) {n x y : Nat} {d : BitVec 32}
    (hn : (latched l).length = n + 1) (hat : s.ShownAt x y)
    (hd : (taken l)[518400 * n + (960 * y + x)]? = some d) :
    ∃ ptr, (latched l)[n]? = some ptr ∧
      (DmaBus.pushed (busLog l))[518400 * n + (960 * y + x)]? =
        some (ptr + 4 * BitVec.ofNat 32 (960 * y + x), d) := by
  have hi : 960 * y + x < DmaFifo.frameSizeWords.toNat := by
    have hx := hat.x_lt
    have hy := hat.y_lt
    change 960 * y + x < 518400
    omega
  have hwritten : (written l)[518400 * n + (960 * y + x)]? = some d := by
    obtain ⟨t, ht⟩ := hw.tracks.reads_prefix
    have hlt := (List.getElem?_eq_some_iff.1 hd).1
    rw [← ht, List.getElem?_append_left hlt]
    exact hd
  rw [hw.words, List.getElem?_map, Option.map_eq_some_iff] at hwritten
  obtain ⟨w, hwget, rfl⟩ := hwritten
  have hstarts : DmaBus.starts (busLog l) = n + 1 := by
    rw [← DmaBus.length_startAddrs, ← latched_eq]
    exact hn
  obtain ⟨ptr, hptr, haddr⟩ := hw.framed.pushed_last hstarts hi hwget
  rw [← latched_eq] at hptr
  exact ⟨ptr, hptr, by rw [← haddr]; exact hwget⟩

section Step

variable {look : HdmiCsr → Prop}

theorem displaying_init (mem0 : BitVec 9 → BitVec 32) (csr0 : HdmiCsr) :
    Displaying look (init mem0 csr0) [] where
  start := rfl
  none_taken _ := rfl
  count hpos := absurd hpos (by decide)
  rested hpos := absurd hpos (by decide)
  output n x y hn := absurd hn (by simp [latched])

/-- Without a Start only the pulse of a VSync triggers. -/
theorem triggers_eq (hstart : s.csr.dmaStartPulse = false) (e : Event) :
    s.triggers e =
      (s.vsyncPulse e && (s.csr.dmaContEn && s.dmaFifo.bus.dma.state == .idle)) := by
  rw [triggers, vsyncPulse, Event.ticks50]
  cases e.clkIn with
  | none => rfl
  | some c =>
      change (s.dmaFifo.bus.dma.state == .idle &&
        (s.csr.dmaStartPulse || (s.csr.dmaContEn && s.vsyncEdgeSync))) = _
      rw [hstart, Bool.false_or, Option.isSome_some, Bool.true_and]
      cases s.csr.dmaContEn <;> cases s.vsyncEdgeSync <;> simp

/-- At a pulse all words of the frame have been read. -/
theorem Synced.readsDue_pulse (h : Synced s seen) (hp : s.vsyncEdgeSync = true) :
    s.readsDue = 518400 ∧ s.pixel.vCnt.toNat = 543 := by
  have ho := (h.of_pulse hp).1
  have hv := (h.owesPulse_place ho).1
  rw [readsDue, ho, hv]
  exact ⟨by simp [readsAt], rfl⟩

/-- Every pulse finds the DMA idle. -/
theorem Displaying.idle_of_pulse (h : Displaying look s l) (hw : Wired s l)
    (hs : Synced s (seenAfter l)) (hp : s.vsyncEdgeSync = true) :
    DmaBus.Idle s.dmaFifo.bus := by
  obtain ⟨hdue, hv⟩ := hs.readsDue_pulse hp
  rcases Nat.eq_zero_or_pos (latched l).length with hnone | hpos
  · exact hw.idle_of_none hnone
  · exact h.rested hpos (Or.inl (by omega)) hdue

/-- From the first trigger on every pulse triggers. -/
theorem Displaying.triggers_pulse (h : Displaying look s l) (hw : Wired s l)
    (hs : Synced s (seenAfter l)) (hcont : s.csr.dmaContEn = true) (e : Event) :
    s.triggers e = s.vsyncPulse e := by
  rw [triggers_eq h.start, hcont, Bool.true_and]
  cases hp : s.vsyncPulse e with
  | false => rfl
  | true =>
      rw [vsyncPulse, Bool.and_eq_true] at hp
      rw [(h.idle_of_pulse hw hs hp.2).state]
      rfl

theorem length_latched_snoc (l : List (VideoPipeline × Event)) (s : VideoPipeline)
    (e : Event) : (latched (l ++ [(s, e)])).length =
      (latched l).length + (s.triggers e).toNat := by
  rw [latched_snoc, List.length_append]
  cases s.triggers e <;> rfl

theorem length_taken_snoc (l : List (VideoPipeline × Event)) (s : VideoPipeline)
    (e : Event) : (taken (l ++ [(s, e)])).length = (taken l).length +
      (e.ticksHdmi && (s.streamRdEn && !s.dmaFifo.fifo.rd.rdempty)).toNat := by
  rw [taken_snoc, List.length_append, ← acceptedRead_isSome]
  cases SimpleDcfifo.acceptedRead s.dmaFifo.fifo (s.fifoEdge e) <;> rfl

theorem streamRdEn_eq (hmode : s.csr.mode = 8) :
    s.streamRdEn = s.pixel.visible params := by
  rw [streamRdEn, HdmiPixel.streamRdEn, hmode, HdmiPixel.visible]
  cases decide (s.pixel.hCnt.toNat < params.hVisible) <;>
    cases decide (s.pixel.vCnt.toNat < params.vVisible) <;> rfl

/-- In a steady run a pixel clock of the visible area reads a word. -/
theorem Steady.length_taken (hok : Steady look l s e) (hpos : 0 < (latched l).length) :
    (taken (l ++ [(s, e)])).length =
      (taken l).length + (e.ticksHdmi && s.pixel.visible params).toNat := by
  rw [length_taken_snoc]
  have hfed := hok.fed hpos
  rw [streamRdEn_eq (hok.held hpos).1] at hfed ⊢
  cases ht : e.ticksHdmi with
  | false => rfl
  | true =>
      cases hv : s.pixel.visible params with
      | false => rfl
      | true => rw [hfed ht hv]; rfl

/-- Before the first trigger there is nothing to read. -/
theorem Displaying.none_read (h : Displaying look s l) (hw : Wired s l)
    (hnone : (latched l).length = 0) (e : Event) : taken (l ++ [(s, e)]) = [] := by
  have hle := hw.written_le
  have hlt := hw.tracks.lt_of_not_empty
  have hempty : s.dmaFifo.fifo.rd.rdempty = true := by
    by_contra hc
    have := hlt (Bool.eq_false_iff.2 hc)
    omega
  apply List.eq_nil_of_length_eq_zero
  rw [length_taken_snoc, h.none_taken hnone, hempty, Bool.not_true, Bool.and_false,
    Bool.and_false]
  rfl

/-- A pulse ends the frame in which it comes. -/
theorem Synced.readsDue_after_pulse (h : Synced s seen) (hcov : e.covered seen = true)
    (hp : s.vsyncPulse e = true) :
    (s.step e).readsDue = 0 ∧ (e.ticksHdmi && s.pixel.visible params) = false := by
  have hstep := h.readsDue_step hcov
  have hp' := hp
  rw [vsyncPulse, Bool.and_eq_true] at hp'
  obtain ⟨hdue, hv⟩ := h.readsDue_pulse hp'.2
  have hvis : (e.ticksHdmi && s.pixel.visible params) = false := by
    rw [Bool.and_eq_false_iff, Bool.eq_false_iff (b := s.pixel.visible params)]
    right
    intro hc
    have := (s.visible_iff.1 hc).2
    omega
  rw [hp, hdue, hvis] at hstep
  exact ⟨by simpa using hstep, hvis⟩

theorem Displaying.count_step (h : Displaying look s l) (hw : Wired s l)
    (hs : Synced s (seenAfter l)) (hok : Steady look l s e)
    (hpos' : 0 < (latched (l ++ [(s, e)])).length) :
    (taken (l ++ [(s, e)])).length + 518400 =
      518400 * (latched (l ++ [(s, e)])).length + (s.step e).readsDue := by
  rw [length_latched_snoc] at hpos' ⊢
  rcases Nat.eq_zero_or_pos (latched l).length with hnone | hpos
  · rw [h.none_read hw hnone e]
    have htrig : s.triggers e = true := by
      by_contra hc
      rw [Bool.eq_false_iff.2 hc, hnone] at hpos'
      exact absurd hpos' (by decide)
    have hp : s.vsyncPulse e = true := by
      rw [triggers_eq h.start, Bool.and_eq_true] at htrig
      exact htrig.1
    rw [(hs.readsDue_after_pulse hok.covered hp).1, htrig, hnone]
    rfl
  · have hcount := h.count hpos
    have hdue := hs.readsDue_step hok.covered
    rw [hok.length_taken hpos, h.triggers_pulse hw hs (hok.held hpos).2.1 e]
    omega

/-- A state in which all is read lies behind one that is late, or the last word has
just been read. -/
theorem Synced.late_of_pixel (h : Synced s seen) (hseen : seen = true)
    (hlate : Late { s with pixel := s.pixelNext } false) :
    s.Late seen ∧ s.pixel.visible params = false := by
  obtain ⟨hh, hv⟩ := h.next_pos
  have hhlt : s.pixel.hCnt.toNat < 1120 := h.raster.h_lt
  have hvis := s.visible_iff
  simp only [Late, hh, hv, Bool.false_eq_true, and_false, or_false] at hlate
  refine ⟨?_, ?_⟩
  · rw [Late, hseen]
    by_cases hwrap : s.pixel.hCnt.toNat = 1119
    · simp only [hwrap, if_true] at hlate
      split at hlate <;> omega
    · simp only [hwrap, if_false] at hlate
      simp only [and_true]
      omega
  · rw [Bool.eq_false_iff]
    intro hc
    obtain ⟨hx, hy⟩ := hvis.1 hc
    rw [if_neg (by omega), if_neg (by omega)] at hlate
    omega

theorem Displaying.rested_step (h : Displaying look s l) (hw : Wired s l)
    (hs : Synced s (seenAfter l)) (hok : Steady look l s e)
    (hpos' : 0 < (latched (l ++ [(s, e)])).length) (hlate : (s.step e).Late e.seen)
    (hall : (s.step e).readsDue = 518400) : DmaBus.Idle (s.step e).dmaFifo.bus := by
  have hno : s.vsyncPulse e = false := by
    rw [Bool.eq_false_iff]
    intro hp
    have := (hs.readsDue_after_pulse hok.covered hp).1
    omega
  have htrig : s.triggers e = false := by
    rw [triggers_eq h.start, hno, Bool.false_and]
  rw [length_latched_snoc, htrig] at hpos'
  have hpos : 0 < (latched l).length := hpos'
  have hdue := hs.readsDue_step hok.covered
  have hcount := h.count hpos
  rw [hno, hall] at hdue
  rw [step_bus]
  cases hc : e.clkIn with
  | none =>
      have he : e = .clkHdmi := by
        cases e with
        | clkHdmi => rfl
        | clk50 c => exact absurd hc (by simp [Event.clkIn])
        | both c rdMask wrMask vsNew toggleNew => exact absurd hc (by simp [Event.clkIn])
      subst he
      obtain ⟨hlate', hvis⟩ := hs.late_of_pixel hok.covered hlate
      rw [hvis] at hdue
      exact h.rested hpos hlate' (by simpa using hdue.symm)
  | some c =>
      have hwords : 518400 * (latched l).length ≤ (written l).length := by
        have hle := hw.tracks.reads_prefix.length_le
        have hlen := hok.length_taken hpos
        have hlt := hw.tracks.lt_of_not_empty
        cases hread : e.ticksHdmi && s.pixel.visible params with
        | false =>
            rw [hread] at hdue
            simp only [Bool.toNat_false, Nat.add_zero, Nat.mul_zero] at hdue
            omega
        | true =>
            rw [hread] at hdue
            simp only [Bool.toNat_true, Bool.toNat_false, Nat.mul_zero,
              Nat.add_zero] at hdue
            rw [Bool.and_eq_true] at hread
            have hne := hlt (hok.fed hpos hread.1
              ((streamRdEn_eq (hok.held hpos).1).trans hread.2))
            omega
      rcases hw.idle_or_last hwords with hidle | ⟨a0, k, hlast⟩
      · refine hidle.step_none _ ?_
        rw [← hidle.triggers]
        rw [triggers, hc] at htrig
        exact htrig
      · exact (hlast.step_last rfl _).1

/-- Nothing is triggered on the way to a visible position: no pulse comes there. -/
theorem Displaying.noTrigger_of_shown (h : Displaying look s l)
    (hs : Synced s (seenAfter l)) {x y : Nat} (hat : (s.step e).ShownAt x y) :
    s.triggers e = false := by
  obtain ⟨-, hy, -, hv'⟩ := hat
  have hv := hs.next_pos.2
  rw [step_pixel] at hv'
  rw [triggers_eq h.start, Bool.and_eq_false_iff]
  left
  rw [Bool.eq_false_iff]
  intro hp
  rw [vsyncPulse, Bool.and_eq_true] at hp
  have hplace := hs.owesPulse_place (hs.of_pulse hp.2).1
  cases ht : e.ticksHdmi with
  | false =>
      rw [ht] at hv'
      simp only [Bool.false_eq_true, if_false] at hv'
      omega
  | true =>
      rw [ht] at hv'
      simp only [if_true, hv] at hv'
      rw [if_neg (by omega)] at hv'
      omega

/-- One pixel clock puts the word in the output register of the FIFO on the
display. -/
theorem Displaying.output_step (h : Displaying look s l) (hw : Wired s l)
    (hs : Synced s (seenAfter l)) (hok : Steady look l s e) {n x y : Nat}
    (hn : (latched (l ++ [(s, e)])).length = n + 1) (hat : (s.step e).ShownAt x y) :
    ∃ d c, (taken (l ++ [(s, e)]))[518400 * n + (960 * y + x)]? = some d ∧
      sampled (l ++ [(s, e)]) = some c ∧ look c ∧
      (s.step e).pixel.hdmiD =
        HdmiPixel.outputColor c.gammaEn c.lutMem (d.setWidth 24) := by
  have hno := h.noTrigger_of_shown hs hat
  obtain ⟨hx, hy, hh', hv'⟩ := hat
  obtain ⟨hh, hv⟩ := hs.next_pos
  rw [step_pixel] at hh' hv' ⊢
  rw [length_latched_snoc, hno, Bool.toNat_false, Nat.add_zero] at hn
  have hpos : 0 < (latched l).length := by omega
  obtain ⟨hmode, _, hlook⟩ := hok.held hpos
  have hkeep : ∀ d, (taken l)[518400 * n + (960 * y + x)]? = some d →
      (taken (l ++ [(s, e)]))[518400 * n + (960 * y + x)]? = some d := by
    intro d hd
    rw [taken_snoc]
    have hlt := (List.getElem?_eq_some_iff.1 hd).1
    rw [List.getElem?_append_left hlt]
    exact hd
  cases ht : e.ticksHdmi with
  | false =>
      rw [ht] at hh' hv'
      obtain ⟨d, c, hd, hc, hlook, hout⟩ := h.output n x y hn ⟨hx, hy, hh', hv'⟩
      refine ⟨d, c, hkeep d hd, ?_, hlook, hout⟩
      rw [sampled_snoc, ht]
      exact hc
  | true =>
      rw [ht] at hh' hv'
      simp only [if_true, hh, hv] at hh' hv' ⊢
      have hwrap : ¬ s.pixel.hCnt.toNat = 1119 := by
        intro hc
        rw [if_pos hc] at hh'
        omega
      rw [if_neg hwrap] at hh' hv'
      have hcount := h.count hpos
      have hdue : s.readsDue = 960 * y + (x + 1) := by
        rw [readsDue, readsAt, hv', if_neg (by omega), if_pos hy]
        omega
      rw [hdue, hn] at hcount
      have hlen : (taken l).length = 518400 * n + (960 * y + x) + 1 := by omega
      have hlast : (taken l)[518400 * n + (960 * y + x)]? = some s.dmaFifo.fifo.rd.q := by
        rcases hw.last with hnil | hlast
        · rw [hnil] at hlen
          exact absurd hlen (by simp)
        · rw [List.getLast?_eq_getElem?, hlen, Nat.add_sub_cancel] at hlast
          exact hlast
      refine ⟨s.dmaFifo.fifo.rd.q, s.csr, hkeep _ hlast, ?_, hlook, ?_⟩
      · rw [sampled_snoc, ht]
        rfl
      have hd1 : s.pixel.visibleD1 = true := by
        rw [hs.raster.visibleD1, decide_eq_true_eq]
        exact ⟨by omega, by change s.pixel.hCnt.toNat ≤ 960; omega,
          by change s.pixel.vCnt.toNat < 540; omega⟩
      change (if s.pixel.visibleD1 then _ else _) = _
      rw [if_pos hd1, HdmiPixel.preGammaD, hmode]
      rfl

theorem Displaying.step (h : Displaying look s l) (hw : Wired s l)
    (hs : Synced s (seenAfter l)) (hok : Steady look l s e) :
    Displaying look (s.step e) (l ++ [(s, e)]) where
  start := by
    have hclk : ∀ c v, e.clkIn = some c →
        (s.csr.step (s.csrIn c v)).dmaStartPulse = false := by
      intro c v hc
      rw [HdmiCsr.step_dmaStartPulse]
      exact hok.noStart c hc
    cases e with
    | clk50 c => exact hclk c _ rfl
    | clkHdmi => exact h.start
    | both c rdMask wrMask vsNew toggleNew => exact hclk c _ rfl
  none_taken hnone := by
    rw [length_latched_snoc] at hnone
    exact h.none_read hw (by omega) e
  count hpos := h.count_step hw hs hok hpos
  rested hpos hlate hall := by
    rw [seenAfter_snoc] at hlate
    exact h.rested_step hw hs hok hpos hlate hall
  output n x y hn hat := h.output_step hw hs hok hn hat

theorem displaying_run (mem0 : BitVec 9 → BitVec 32) (csr0 : HdmiCsr) {es : List Event}
    (hok : Guarded (Steady look) step (init mem0 csr0) es) :
    let s := run step (init mem0 csr0) es
    let l := log step (init mem0 csr0) es
    Synced s (seenAfter l) ∧ Wired s l ∧ Displaying look s l := by
  refine log_invariant_of (G := Steady look)
    (P := fun s l => Synced s (seenAfter l) ∧ Wired s l ∧ Displaying look s l) ?_ ?_ es hok
  · exact ⟨synced_reset (init mem0 csr0), wired_init mem0 csr0, displaying_init mem0 csr0⟩
  · rintro s l e ⟨hs, hw, h⟩ hok
    refine ⟨?_, hw.step e, h.step hw hs hok⟩
    rw [seenAfter_snoc]
    exact hs.step hok.covered

end Step

section Scenario

variable {look : HdmiCsr → Prop}

theorem latched_eq_nil (h : ∀ x ∈ l, x.1.triggers x.2 = false) : latched l = [] := by
  rw [latched, List.filterMap_eq_nil_iff]
  intro x hx
  rw [h x hx]
  rfl

/-- A run is steady when what comes before its first trigger triggers nothing and
the rest is held. -/
theorem guarded_steady {s0 : VideoPipeline} {es es' : List Event}
    (hcov : coveredRun true (es ++ es') = true)
    (hstart : ∀ e ∈ es ++ es', ∀ c, e.clkIn = some c → c.start = false)
    (hnone : ∀ x ∈ log VideoPipeline.step s0 es, x.1.triggers x.2 = false)
    (hheld : ∀ x ∈ log VideoPipeline.step (run VideoPipeline.step s0 es) es',
      (x.1.csr.mode = 8 ∧ x.1.csr.dmaContEn = true ∧ look x.1.csr) ∧
      (x.2.ticksHdmi = true → x.1.streamRdEn = true →
        x.1.dmaFifo.fifo.rd.rdempty = false)) :
    Guarded (Steady look) VideoPipeline.step s0 (es ++ es') := by
  intro pre e post hes
  have hlater : 0 < (latched (log VideoPipeline.step s0 pre)).length →
      (run VideoPipeline.step s0 pre, e) ∈
        log VideoPipeline.step (run VideoPipeline.step s0 es) es' := by
    intro hpos
    rcases List.append_eq_append_iff.1 hes with ⟨mid, rfl, rfl⟩ | ⟨mid, rfl, _⟩
    · rw [mem_log_iff]
      exact ⟨mid, post, rfl, run_append _ _ _ _⟩
    · rw [log_append] at hnone
      rw [latched_eq_nil fun x hx => hnone x (List.mem_append_left _ hx)] at hpos
      exact absurd hpos (by decide)
  exact {
    covered := guarded_covered hcov pre e post hes
    noStart := hstart e (by rw [hes]; simp)
    held := fun hpos => (hheld _ (hlater hpos)).1
    fed := fun hpos => (hheld _ (hlater hpos)).2 }

/-- Software writes neither the Start bit nor the LUT. -/
def Event.tame (e : Event) : Bool :=
  e.clkIn.all fun c => !c.start && !(c.sWrite && c.sAddress == 3)

theorem step_lutMem (s : VideoPipeline) (h : e.tame = true) :
    (s.step e).csr.lutMem = s.csr.lutMem := by
  have hclk : ∀ c v, e.clkIn = some c →
      (s.csr.step (s.csrIn c v)).lutMem = s.csr.lutMem := by
    intro c v hc
    rw [Event.tame, hc, Option.all_some, Bool.and_eq_true, Bool.not_eq_true'] at h
    exact HdmiCsr.step_lutMem _ (Bool.not_eq_true' _ ▸ h.2)
  cases e with
  | clk50 c => exact hclk c _ rfl
  | clkHdmi => rfl
  | both c rdMask wrMask vsNew toggleNew => exact hclk c _ rfl

theorem log_lutMem (s : VideoPipeline) {es : List Event}
    (h : ∀ x ∈ log VideoPipeline.step s es, x.2.tame = true) :
    (run VideoPipeline.step s es).csr.lutMem = s.csr.lutMem ∧
      ∀ x ∈ log VideoPipeline.step s es, x.1.csr.lutMem = s.csr.lutMem := by
  induction es generalizing s with
  | nil => exact ⟨rfl, fun x hx => absurd hx (by simp)⟩
  | cons e es ih =>
      rw [log_cons] at h ⊢
      obtain ⟨hrun, hlog⟩ := ih (s.step e) fun x hx => h x (List.mem_cons_of_mem _ hx)
      have hstep := s.step_lutMem (h (s, e) List.mem_cons_self)
      refine ⟨hrun.trans hstep, fun x hx => ?_⟩
      rcases List.mem_cons.1 hx with rfl | hx
      · rfl
      · exact (hlog x hx).trans hstep

/-- Before the first trigger: nothing triggers, and software is tame. -/
def restCheck (x : VideoPipeline × Event) : Bool := x.2.tame && !x.1.triggers x.2

/-- The settings of the first frame: mode 8, Cont and the gamma bit `g`. -/
def frameSettings (g : Bool) (c : HdmiCsr) : Bool :=
  c.mode == 8 && c.dmaContEn && c.gammaEn == g

/-- From the first trigger on: software is tame, the settings stay, and the FIFO is not
read empty. -/
def heldCheck (g : Bool) (x : VideoPipeline × Event) : Bool :=
  x.2.tame && frameSettings g x.1.csr &&
    !(x.2.ticksHdmi && x.1.streamRdEn && x.1.dmaFifo.fifo.rd.rdempty)

theorem tame_of_quiet {c : ClkIn} {x : VideoPipeline × Event} (h : Quiet s c x)
    (hc : c.start = false) (hw : c.sWrite = false) : x.2.tame = true := by
  rcases h.event with he | he
  · rw [he, Event.tame, Event.clkIn, Option.all_some, hc, hw]
    rfl
  · rw [he]
    rfl

theorem restCheck_quiet {x : VideoPipeline × Event} (h : Quiet s stallIn x) :
    restCheck x = true := by
  rw [restCheck, tame_of_quiet h rfl rfl, h.noTrigger]
  rfl

theorem heldCheck_quiet {g : Bool} {x : VideoPipeline × Event}
    (hs : frameSettings g s.csr = true) (h : Quiet s stallIn x) :
    heldCheck g x = true := by
  have hcsr : x.1.csr = s.csr := by rw [h.same]
  rw [heldCheck, tame_of_quiet h rfl rfl, hcsr, hs, h.noRead]
  simp

/-- A run in pieces is steady, with the table that it begins with. -/
theorem steady_pieces {g : Bool} {s0 : VideoPipeline} (hr : s0.pixel.Raster params)
    {ps ps' : List Piece} (hcov : (ps ++ ps').all Piece.covered = true)
    (hbefore : checksAll restCheck (fun _ => true) s0 ps = true)
    (hafter : checksAll (heldCheck g) (fun s => frameSettings g s.csr) (applyAll s0 ps) ps' =
      true) :
    Guarded (Steady fun c => c.gammaEn = g ∧ c.lutMem = s0.csr.lutMem) VideoPipeline.step s0
      (unfoldAll ps ++ unfoldAll ps') := by
  obtain ⟨hrun, hrest, -⟩ := run_pieces (fun _ _ _ hx => restCheck_quiet hx) hr ps hbefore
  have hr' : (applyAll s0 ps).pixel.Raster params := by
    rw [← hrun]
    exact raster_run hr _
  obtain ⟨-, hheld, -⟩ :=
    run_pieces (fun _ _ hs hx => heldCheck_quiet hs hx) hr' ps' hafter
  rw [← hrun] at hheld
  have htame : ∀ x ∈ log VideoPipeline.step s0 (unfoldAll ps ++ unfoldAll ps'),
      x.2.tame = true := by
    intro x hx
    rw [log_append] at hx
    rcases List.mem_append.1 hx with hx | hx
    · have h := hrest x hx
      rw [restCheck, Bool.and_eq_true] at h
      exact h.1
    · have h := hheld x hx
      rw [heldCheck, Bool.and_eq_true, Bool.and_eq_true] at h
      exact h.1.1
  refine guarded_steady ?_ ?_ ?_ ?_
  · rw [unfoldAll, unfoldAll, ← List.flatMap_append]
    exact coveredRun_pieces _ hcov true
  · intro e he c hc
    obtain ⟨pre, post, hes⟩ := List.append_of_mem he
    have h := htame (run VideoPipeline.step s0 pre, e) ((mem_log_iff _ _ _ _).2
      ⟨pre, post, hes, rfl⟩)
    rw [Event.tame, hc, Option.all_some, Bool.and_eq_true, Bool.not_eq_true'] at h
    exact h.1
  · intro x hx
    have h := hrest x hx
    rw [restCheck, Bool.and_eq_true, Bool.not_eq_true'] at h
    exact h.2
  · intro x hx
    have h := hheld x hx
    simp only [heldCheck, frameSettings, Bool.and_eq_true, beq_iff_eq,
      Bool.not_eq_true'] at h
    obtain ⟨⟨-, ⟨hmode, hcont⟩, hg⟩, hread⟩ := h
    have hlut :=
      (log_lutMem s0 htame).2 x (by rw [log_append]; exact List.mem_append_right _ hx)
    refine ⟨⟨hmode, hcont, hg, hlut⟩, fun ht hrd => ?_⟩
    rw [ht, hrd] at hread
    exact hread

/-- The words that the slave returned, event by event. -/
theorem pushed_busLog (l : List (VideoPipeline × Event)) :
    DmaBus.pushed (busLog l) =
      l.filterMap fun x => x.2.clkIn.bind fun c => x.1.dmaFifo.bus.returned (x.1.busCycle c) := by
  induction l using List.reverseRecOn with
  | nil => rfl
  | append_singleton l x ih =>
      rw [busLog_snoc, DmaBus.pushed_append, List.filterMap_append, ih]
      cases hc : x.2.clkIn with
      | none => simp [DmaBus.pushed, hc]
      | some c => simp [DmaBus.pushed, List.filterMap_cons, hc]

/-- The word of column `x`: three ramps. -/
def rampWord (x : Nat) : BitVec 32 :=
  0#8 ++ BitVec.ofNat 8 x ++ BitVec.ofNat 8 (x + 100) ++ BitVec.ofNat 8 (2 * x + 50)

/-- At power-up the LUT, which has no reset, holds the complements. -/
def rampCsr0 : HdmiCsr := { HdmiCsr.blank with lutMem := fun v => ~~~v }

/-- Before the first trigger software selects mode 8 and sets Cont and Gamma. -/
def rampBefore : List Piece := beforePulse [.clk50 (writeIn 0 8), .clk50 (writeIn 1 3)]

/-- The slave returns a burst of ramps, and column `x` of the first line is shown. -/
def rampAfter (x : Nat) : List Piece :=
  afterPulse (fetch rampWord 1) (rounds stallIn (22 + x))

/-- The run up to column `x` of the first line. -/
def rampRun (x : Nat) : List Event := unfoldAll rampBefore ++ unfoldAll (rampAfter x)

theorem checks_rampRun :
    checksAll restCheck (fun _ => true) (init (fun _ => 0) rampCsr0) rampBefore = true ∧
      ∀ x ∈ [0, 60], checksAll (heldCheck true) (fun s => frameSettings true s.csr)
        (applyAll (init (fun _ => 0) rampCsr0) rampBefore) (rampAfter x) = true := by
  decide +kernel

theorem steady_rampRun {x : Nat} (hx : x ∈ [0, 60]) :
    Guarded (Steady fun c => c.gammaEn = true ∧ c.lutMem = fun v => ~~~v) VideoPipeline.step
      (init (fun _ => 0) rampCsr0) (rampRun x) := by
  have hcov : ∀ x ∈ [0, 60], (rampBefore ++ rampAfter x).all Piece.covered = true := by
    decide +kernel
  exact steady_pieces (HdmiPixel.raster_reset params) (hcov x hx) checks_rampRun.1
    (checks_rampRun.2 x hx)

/-- Where the run ends, and what its rests leave out. -/
theorem log_rampRun {x : Nat} (hx : x ∈ [0, 60]) :
    run VideoPipeline.step (init (fun _ => 0) rampCsr0) (rampRun x) =
        applyAll (applyAll (init (fun _ => 0) rampCsr0) rampBefore) (rampAfter x) ∧
      ∀ {α : Type} (g : VideoPipeline × Event → Option α),
        (∀ s x, Quiet s stallIn x → g x = none) →
        (log VideoPipeline.step (init (fun _ => 0) rampCsr0) (rampRun x)).filterMap g =
          (activeAll (init (fun _ => 0) rampCsr0) rampBefore ++ activeAll
            (applyAll (init (fun _ => 0) rampCsr0) rampBefore) (rampAfter x)).filterMap g := by
  have hr : (init (fun _ => 0) rampCsr0).pixel.Raster params :=
    HdmiPixel.raster_reset params
  obtain ⟨hrun, -, hlog⟩ := run_pieces (fun _ _ _ hx => restCheck_quiet hx) hr rampBefore
    checks_rampRun.1
  have hr' : (applyAll (init (fun _ => 0) rampCsr0) rampBefore).pixel.Raster params := by
    rw [← hrun]
    exact raster_run hr _
  obtain ⟨hrun', -, hlog'⟩ := run_pieces (fun _ _ hs hx => heldCheck_quiet hs hx) hr'
    (rampAfter x) (checks_rampRun.2 x hx)
  refine ⟨by rw [rampRun, run_append, hrun, hrun'], fun g hg => ?_⟩
  rw [rampRun, log_append, List.filterMap_append, hrun, hlog g hg, hlog' g hg,
    List.filterMap_append]

/-- The first frame is triggered once, and starts at the frame buffer. -/
theorem latched_rampRun {x : Nat} (hx : x ∈ [0, 60]) :
    latched (log VideoPipeline.step (init (fun _ => 0) rampCsr0) (rampRun x)) =
      [0x30000000] := by
  have hactive : ∀ x ∈ [0, 60], latched (activeAll (init (fun _ => 0) rampCsr0) rampBefore ++
      activeAll (applyAll (init (fun _ => 0) rampCsr0) rampBefore) (rampAfter x)) =
        [0x30000000] := by
    decide +kernel
  rw [latched, (log_rampRun hx).2 _ fun s x hq => by rw [hq.noTrigger]; rfl]
  exact hactive x hx

/-- The slave returns one burst of ramps. -/
theorem pushed_rampRun {x : Nat} (hx : x ∈ [0, 60]) :
    DmaBus.pushed (busLog (log VideoPipeline.step (init (fun _ => 0) rampCsr0) (rampRun x))) =
      (List.range 64).map fun k => (0x30000000 + 4 * BitVec.ofNat 32 k, rampWord k) := by
  have hactive : ∀ x ∈ [0, 60], DmaBus.pushed (busLog
      (activeAll (init (fun _ => 0) rampCsr0) rampBefore ++
        activeAll (applyAll (init (fun _ => 0) rampCsr0) rampBefore) (rampAfter x))) =
      (List.range 64).map fun k => (0x30000000 + 4 * BitVec.ofNat 32 k, rampWord k) := by
    decide +kernel
  rw [pushed_busLog, (log_rampRun hx).2, ← pushed_busLog]
  · exact hactive x hx
  · intro s x hq
    cases hc : x.2.clkIn with
    | none => rfl
    | some c => exact hq.noWord c hc

/-- Column `x` is on the display, with the complement of every channel. -/
theorem shown_rampRun {x : Nat} (hx : x ∈ [0, 60]) :
    (run VideoPipeline.step (init (fun _ => 0) rampCsr0) (rampRun x)).ShownAt x 0 ∧
      (run VideoPipeline.step (init (fun _ => 0) rampCsr0) (rampRun x)).pixel.hdmiD =
        ~~~BitVec.ofNat 8 x ++ ~~~BitVec.ofNat 8 (x + 100) ++ ~~~BitVec.ofNat 8 (2 * x + 50) := by
  have hfacts : ∀ x ∈ [0, 60],
      let p :=
        (applyAll (applyAll (init (fun _ => 0) rampCsr0) rampBefore) (rampAfter x)).pixel
      x < 960 ∧ p.hCnt.toNat = x + 2 ∧ p.vCnt.toNat = 0 ∧ p.hdmiD =
        ~~~BitVec.ofNat 8 x ++ ~~~BitVec.ofNat 8 (x + 100) ++ ~~~BitVec.ofNat 8 (2 * x + 50) := by
    decide +kernel
  rw [(log_rampRun hx).1]
  obtain ⟨hlt, hh, hv, hd⟩ := hfacts x hx
  exact ⟨⟨hlt, by decide, hh, hv⟩, hd⟩

end Scenario

/-- `hdmi_de` is high at the visible positions. -/
theorem Synced.hdmiDe_iff (h : Synced s seen) :
    s.pixel.hdmiDe = true ↔ ∃ x y, s.ShownAt x y := by
  rw [h.raster.hdmiDe, decide_eq_true_eq]
  constructor
  · rintro ⟨hlo, hhi, hv⟩
    have hhi' : s.pixel.hCnt.toNat ≤ 961 := hhi
    exact ⟨s.pixel.hCnt.toNat - 2, s.pixel.vCnt.toNat, by omega, hv, by omega, rfl⟩
  · rintro ⟨x, y, hx, hy, hh, hv⟩
    exact ⟨by omega, by change s.pixel.hCnt.toNat ≤ 961; omega,
      by change s.pixel.vCnt.toNat < 540; omega⟩

/-- **End-to-end frame integrity.**  In a steady run from power-up with the gamma bit
`g` and the table `lut`, at the time when `n + 1` frames have been triggered: `hdmi_de`
is high exactly when the output registers show a visible position, and at the position
`(x, y)` the colour is the lower 24 bits of the word that the slave returned for its
address in the frame at the pointer latched by the last trigger, channel by channel
through the table when gamma is on. -/
theorem frame_integrity (g : Bool) (lut : BitVec 8 → BitVec 8)
    (mem0 : BitVec 9 → BitVec 32) (csr0 : HdmiCsr) (es : List Event)
    (hok : Guarded (Steady fun c => c.gammaEn = g ∧ c.lutMem = lut) step
      (init mem0 csr0) es) :
    let s := run step (init mem0 csr0) es
    let l := log step (init mem0 csr0) es
    (s.pixel.hdmiDe = true ↔ ∃ x y, s.ShownAt x y) ∧
    ∀ n x y, (latched l).length = n + 1 → s.ShownAt x y →
      ∃ ptr d, (latched l)[n]? = some ptr ∧
        (DmaBus.pushed (busLog l))[518400 * n + (960 * y + x)]? =
          some (ptr + 4 * BitVec.ofNat 32 (960 * y + x), d) ∧
        s.pixel.hdmiD =
          if g then
            lut (d.extractLsb' 16 8) ++ lut (d.extractLsb' 8 8) ++ lut (d.extractLsb' 0 8)
          else d.extractLsb' 0 24 := by
  intro s l
  obtain ⟨hs, hw, h⟩ : Synced s (seenAfter l) ∧ Wired s l ∧
      Displaying (fun c => c.gammaEn = g ∧ c.lutMem = lut) s l := displaying_run mem0 csr0 hok
  refine ⟨hs.hdmiDe_iff, ?_⟩
  intro n x y hn hat
  obtain ⟨d, c, hd, -, ⟨hg, hlut⟩, hout⟩ := h.output n x y hn hat
  obtain ⟨ptr, hptr, hpushed⟩ := hw.pushed_of_taken hn hat hd
  rw [hg, hlut, outputColor_word] at hout
  exact ⟨ptr, d, hptr, hpushed, hout⟩

/-- Two columns of the first line, with gamma on. -/
theorem frame_integrity_first_line :
    let s0 := run step (init (fun _ => 0) rampCsr0) (rampRun 0)
    let s60 := run step (init (fun _ => 0) rampCsr0) (rampRun 60)
    let words :=
      DmaBus.pushed (busLog (log step (init (fun _ => 0) rampCsr0) (rampRun 60)))
    s0.pixel.hdmiDe = true ∧ s0.pixel.hdmiD = 0xFF9BCD ∧
      s60.pixel.hdmiDe = true ∧ s60.pixel.hdmiD = 0xC35F55 ∧
      ∃ d, words[60]? = some (0x300000F0, d) ∧
        ~~~d.extractLsb' 16 8 ++ ~~~d.extractLsb' 8 8 ++ ~~~d.extractLsb' 0 8 =
          0xC35F55#24 := by
  have hat : ∀ {x : Nat}, x ∈ [0, 60] →
      (run step (init (fun _ => 0) rampCsr0) (rampRun x)).ShownAt x 0 :=
    fun hx => (shown_rampRun hx).1
  have hok := fun (x : Nat) (hx : x ∈ [0, 60]) => frame_integrity true (fun v => ~~~v)
    (fun _ => 0) rampCsr0 (rampRun x) (steady_rampRun hx)
  obtain ⟨ptr, d, hptr, hpush, hout⟩ := (hok 60 (by decide)).2 0 60 0
    (by rw [latched_rampRun (by decide)]; rfl) (hat (by decide))
  rw [latched_rampRun (by decide)] at hptr
  obtain rfl : 0x30000000 = ptr := Option.some.inj hptr
  have hd := hout.symm.trans (shown_rampRun (by decide)).2
  rw [if_pos rfl] at hd
  exact ⟨(hok 0 (by decide)).1.2 ⟨0, 0, hat (by decide)⟩, (shown_rampRun (by decide)).2,
    (hok 60 (by decide)).1.2 ⟨60, 0, hat (by decide)⟩, (shown_rampRun (by decide)).2, d, hpush,
    hd⟩

end VideoPipeline
end VideoProcessing
