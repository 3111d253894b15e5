import VideoProcessing.Video.DmaProgress
import VideoProcessing.Video.FrameIntegrity

/-!
# A triggered frame is fetched

In the pipeline the read side of the FIFO is the raster: a word is requested at every
pixel clock of the visible area in mode 8.  The raster comes back to the visible area
however the clocks are related (`pixel_progress`), so the requests are fair, and with a
fair slave every frame that is triggered is fetched (`frame_fetched`).
-/

namespace VideoProcessing
namespace VideoPipeline

open Lib

/-- What the pipeline waits for: that the slave takes a command at a `clk_50` edge, that it
returns a word, and an edge of `clk_hdmi`. -/
inductive Tick
  | command
  | reply
  | pixel

/-- The event is one that was waited for. -/
def Tick.Met : Tick → Event → Prop
  | .command, e => ∃ c, e.clkIn = some c ∧ c.mWaitrequest = false
  | .reply, e => ∃ c, e.clkIn = some c ∧ c.ret.isSome = true
  | .pixel, e => e.ticksHdmi = true

section Raster

variable {s : VideoPipeline}

theorem raster_step (h : s.pixel.Raster params) (e : Event) :
    (s.step e).pixel.Raster params := by
  rw [step_pixel]
  split
  · exact h.step _ _
  · exact h

theorem raster_states (h : s.pixel.Raster params) (es : Nat → Event) (t : Nat) :
    (states step s es t).pixel.Raster params := by
  induction t with
  | zero => exact h
  | succ t ih => exact raster_step ih (es t)

/-- After the last position comes the first one, which is visible. -/
theorem visible_of_last (h : s.pixel.Raster params) (hlast : 630560 ≤ pos s.pixel + 1) :
    s.pixelNext.visible params = true := by
  have hh : s.pixel.hCnt.toNat < 1120 := h.h_lt
  have hv : s.pixel.vCnt.toNat < 563 := h.v_lt
  have hstep : s.pixelNext.hCnt.toNat =
      if s.pixel.hCnt.toNat = 1119 then 0 else s.pixel.hCnt.toNat + 1 := h.step_hCnt _ _
  have vstep : s.pixelNext.vCnt.toNat =
      if s.pixel.hCnt.toNat = 1119 then if s.pixel.vCnt.toNat = 562 then 0
        else s.pixel.vCnt.toNat + 1
      else s.pixel.vCnt.toNat := h.step_vCnt _ _
  unfold pos at hlast
  rw [if_pos (by omega)] at hstep
  rw [if_pos (by omega), if_pos (by omega)] at vstep
  rw [HdmiPixel.visible, hstep, vstep]
  decide

/-- The raster comes back to the visible area. -/
theorem pixel_progress : Progress step (fun _ _ => True) Tick.Met
    (fun (_ : Nat) _ k => k = Tick.pixel) (fun i => i)
    (fun s => s.pixel.visible params = true) (fun i s => s.pixel.Raster params ∧ i = pos s.pixel)
    630560 where
  le_bound := by
    rintro i s ⟨h, rfl⟩
    have hh : s.pixel.hCnt.toNat < 1120 := h.h_lt
    have hv : s.pixel.vCnt.toNat < 563 := h.v_lt
    rw [pos]
    omega
  step := by
    rintro i s e ⟨h, rfl⟩ hnot -
    refine ⟨_, ⟨raster_step h e, rfl⟩, ?_⟩
    rw [step_pixel]
    by_cases hedge : e.ticksHdmi = true
    · rw [if_pos hedge]
      have hh : s.pixel.hCnt.toNat < 1120 := h.h_lt
      have hv : s.pixel.vCnt.toNat < 563 := h.v_lt
      by_cases hlast : pos s.pixel + 1 < 630560
      · right
        left
        rw [pixelNext, pos_step h hlast]
        exact Nat.lt_succ_self _
      · exact Or.inl (visible_of_last h (by omega))
    · rw [if_neg hedge]
      right
      right
      refine ⟨rfl, ⟨.pixel, rfl⟩, ?_⟩
      rintro k rfl
      exact ⟨rfl, hedge⟩

/-- Between two edges of `clk_hdmi` the raster stays. -/
theorem pixel_still (es : Nat → Event) (t : Nat) {n : Nat}
    (h : ∀ i, i < n → (es (t + i)).ticksHdmi = false) :
    (states step s es (t + n)).pixel = (states step s es t).pixel := by
  induction n with
  | zero => rfl
  | succ n ih =>
      change (VideoPipeline.step (states step s es (t + n)) (es (t + n))).pixel = _
      rw [step_pixel, h n (Nat.lt_succ_self n),
        ← ih fun i hi => h i (Nat.lt_succ_of_lt hi)]
      rfl

/-- In mode 8 words are requested again and again. -/
theorem reads_again (h : s.pixel.Raster params) {es : Nat → Event}
    (hfair : Fair Tick.Met es) (hmode : ∀ t, (states step s es t).csr.mode = 8) (t : Nat) :
    ∃ n, (es (t + n)).ticksHdmi = true ∧ (states step s es (t + n)).streamRdEn = true := by
  obtain ⟨n, i, -, hvisible⟩ :=
    pixel_progress.reaches hfair (fun _ => trivial) ⟨raster_states h es t, rfl⟩
  have hedge : ∃ m, (es (t + n + m)).ticksHdmi = true := hfair .pixel (t + n)
  have hstill := pixel_still (s := s) es (t + n) (n := Nat.find hedge) fun i hi => by
    rw [← Bool.not_eq_true]
    exact Nat.find_min hedge hi
  refine ⟨n + Nat.find hedge, ?_, ?_⟩
  · rw [← Nat.add_assoc]
    exact Nat.find_spec hedge
  · rw [← Nat.add_assoc, streamRdEn_eq (hmode _), hstill]
    exact hvisible

end Raster

section Fetch

/-- The event as the DMA and the FIFO see it at time `t`. -/
def fifoEvents (s : VideoPipeline) (es : Nat → Event) (t : Nat) : DmaFifo.Event :=
  (states step s es t).fifoEvent (es t)

theorem clk_fifoEvent (s : VideoPipeline) (e : Event) :
    (s.fifoEvent e).clk = e.clkIn.map s.dmaIn := by
  cases e <;> rfl

theorem rd_fifoEvent (s : VideoPipeline) (e : Event) :
    (s.fifoEvent e).rd = if e.ticksHdmi then some s.streamRdEn else none := by
  cases e <;> rfl

variable {s : VideoPipeline} {es : Nat → Event}

theorem dmaFifo_states (s : VideoPipeline) (es : Nat → Event) (t : Nat) :
    (states step s es t).dmaFifo =
      states (DmaFifo.step DmaFifo.frameSizeWords) s.dmaFifo (fifoEvents s es) t := by
  induction t with
  | zero => rfl
  | succ t ih =>
      rw [states, step_dmaFifo, ih]
      rfl

theorem dmaLog_range (s : VideoPipeline) (es : Nat → Event) (t : Nat) :
    dmaLog (log step s ((List.range t).map es)) =
      log (DmaFifo.step DmaFifo.frameSizeWords) s.dmaFifo
        ((List.range t).map (fifoEvents s es)) := by
  rw [(run_dmaFifo s _).2, log_range, List.map_map]
  rfl

/-- A fair slave and two clocks that go on are fair to the DMA. -/
theorem fair_fifoEvents (h : s.pixel.Raster params) (hfair : Fair Tick.Met es)
    (hmode : ∀ t, (states step s es t).csr.mode = 8) :
    Fair DmaFifo.Need.Met (fifoEvents s es) := by
  intro k t
  cases k with
  | command =>
      obtain ⟨n, c, hc, hw⟩ := hfair .command t
      refine ⟨n, (states step s es (t + n)).dmaIn c, ?_, hw⟩
      rw [fifoEvents, clk_fifoEvent, hc]
      rfl
  | reply =>
      obtain ⟨n, c, hc, hret⟩ := hfair .reply t
      refine ⟨n, (states step s es (t + n)).dmaIn c, ?_, hret⟩
      rw [fifoEvents, clk_fifoEvent, hc]
      rfl
  | read =>
      obtain ⟨n, hedge, hrd⟩ := reads_again h hfair hmode t
      refine ⟨n, ?_⟩
      change (fifoEvents s es (t + n)).rd = some true
      rw [fifoEvents, rd_fifoEvent, hedge, hrd]
      rfl

/-- A completion sets the Done flag, unless software writes at that edge. -/
theorem dmaDoneSticky_step (hdone : s.dmaFifo.bus.dma.dmaDone = true) {e : Event}
    {c : ClkIn} (hclk : e.clkIn = some c) (hw : c.sWrite = false) :
    (s.step e).csr.dmaDoneSticky = true := by
  have hset : ∀ vsWire, (s.csr.step (s.csrIn c vsWire)).dmaDoneSticky = true := by
    intro vsWire
    simp only [HdmiCsr.step, csrIn, hw, hdone, if_true, Bool.false_eq_true, if_false]
  cases e with
  | clk50 c' =>
      obtain rfl : c' = c := Option.some.inj hclk
      exact hset _
  | clkHdmi => exact absurd hclk (by simp [Event.clkIn])
  | both c' rdMask wrMask vsNew toggleNew =>
      obtain rfl : c' = c := Option.some.inj hclk
      exact hset _

/-- **A triggered frame is fetched.**  Take any run of the pipeline from power-up whose
last event triggers a frame, and let it go on in mode 8.  However the slave stalls and
delays its words, however the two clocks are related and the synchronisers resolve, and
whatever software does meanwhile, as long as both clocks go on and the slave takes
commands and has words at some of its edges, `dma_done` is set some time.  By then all
words of the frame, and no others, have been returned and written to the FIFO, in order;
at the next `clk_50` edge the DMA is ready for the next frame, and software can see
Done, unless it writes there. -/
theorem frame_fetched (mem0 : BitVec 9 → BitVec 32) (csr0 : HdmiCsr) (pre : List Event)
    (e : Event) (htrig : (run step (init mem0 csr0) pre).triggers e = true)
    (es : Nat → Event) (hfair : Fair Tick.Met es)
    (hmode : ∀ t, (states step (run step (init mem0 csr0) (pre ++ [e])) es t).csr.mode = 8) :
    let s := run step (init mem0 csr0) (pre ++ [e])
    ∃ t, let l := log step s ((List.range t).map es)
      let s' := states step s es t
      s'.dmaFifo.bus.dma.dmaDone = true ∧
        (DmaBus.pushed (busLog l)).map Prod.fst =
          wordAddrs (run step (init mem0 csr0) pre).csr.shadowPtr (960 * 540) ∧
        DmaFifo.written (dmaLog l) = (DmaBus.pushed (busLog l)).map Prod.snd ∧
        ∀ e' c, e'.clkIn = some c → (s'.step e').dmaFifo.bus.dma.state = .idle ∧
          (c.sWrite = false → (s'.step e').csr.dmaDoneSticky = true) := by
  intro s
  obtain ⟨c, hclk⟩ : ∃ c, e.clkIn = some c := by
    rw [triggers] at htrig
    cases hc : e.clkIn with
    | none => rw [hc] at htrig; exact absurd htrig Bool.false_ne_true
    | some c => exact ⟨c, rfl⟩
  have htrig' : (run step (init mem0 csr0) pre).dmaFifo.bus.triggers
      ((run step (init mem0 csr0) pre).busCycle c) = true := by
    rw [triggers, hclk] at htrig
    exact htrig
  have hraster : s.pixel.Raster params :=
    raster_run (s := init mem0 csr0) (HdmiPixel.raster_reset params) _
  have hrun : (run step (init mem0 csr0) pre).dmaFifo =
      run (DmaFifo.step DmaFifo.frameSizeWords) (DmaFifo.init mem0)
        ((log step (init mem0 csr0) pre).map fun p => p.1.fifoEvent p.2) :=
    (run_dmaFifo (init mem0 csr0) pre).1
  have hs : s.dmaFifo = run (DmaFifo.step DmaFifo.frameSizeWords) (DmaFifo.init mem0)
      ((log step (init mem0 csr0) pre).map (fun p => p.1.fifoEvent p.2) ++
        [(run step (init mem0 csr0) pre).fifoEvent e]) := by
    change (run step (init mem0 csr0) (pre ++ [e])).dmaFifo = _
    rw [run_snoc, run_snoc, step_dmaFifo, hrun]
  obtain ⟨t, hdone, haddrs, hwritten, hnext⟩ := DmaFifo.frame_completes
    DmaFifo.frameSizeWords_pos DmaFifo.frameSizeWords_dvd mem0 _
    ((run step (init mem0 csr0) pre).fifoEvent e) ((run step (init mem0 csr0) pre).dmaIn c)
    (by rw [clk_fifoEvent, hclk]; rfl) (by
      rw [← hrun]
      exact htrig') _ (fair_fifoEvents hraster hfair hmode)
  rw [← hs] at hdone haddrs hwritten hnext
  rw [← dmaFifo_states] at hnext
  rw [← dmaLog_range] at haddrs hwritten
  refine ⟨t, by rw [dmaFifo_states]; exact hdone, haddrs, hwritten, ?_⟩
  intro e' c' hc'
  refine ⟨?_, fun hw => ?_⟩
  · rw [step_dmaFifo]
    refine hnext _ ?_
    rw [clk_fifoEvent, hc']
    rfl
  · exact dmaDoneSticky_step (by rw [dmaFifo_states]; exact hdone) hc' hw

/-- Software selects mode 8 and starts a frame. -/
def selectAndStart : List Event := [.clk50 (writeIn 0 8), .clk50 (writeIn 1 4)]

/-- From then on both clocks have an edge, and the slave does not stall and has a word. -/
def flowing : Event := .both quietIn 0 0 false false

theorem fair_flowing : Fair Tick.Met fun _ => flowing := by
  intro k t
  refine ⟨0, ?_⟩
  cases k with
  | command => exact ⟨quietIn, rfl, rfl⟩
  | reply => exact ⟨quietIn, rfl, rfl⟩
  | pixel => rfl

/-- Without writes the mode stays. -/
theorem mode_flowing (s : VideoPipeline) (t : Nat) :
    (states step s (fun _ => flowing) t).csr.mode = s.csr.mode := by
  induction t with
  | zero => rfl
  | succ t ih => exact ih

/-- The frame that the Start command triggers. -/
theorem frame_fetched_selectAndStart :
    let s0 := run step (init (fun _ => 0) HdmiCsr.blank) selectAndStart
    let s :=
      run step (init (fun _ => 0) HdmiCsr.blank) (selectAndStart ++ [.clk50 quietIn])
    ∃ t, let l := log step s ((List.range t).map fun _ => flowing)
      let s' := states step s (fun _ => flowing) t
      s'.dmaFifo.bus.dma.dmaDone = true ∧
        (DmaBus.pushed (busLog l)).map Prod.fst = wordAddrs s0.csr.shadowPtr (960 * 540) ∧
        DmaFifo.written (dmaLog l) = (DmaBus.pushed (busLog l)).map Prod.snd ∧
        ∀ e' c, e'.clkIn = some c → (s'.step e').dmaFifo.bus.dma.state = .idle ∧
          (c.sWrite = false → (s'.step e').csr.dmaDoneSticky = true) :=
  frame_fetched (fun _ => 0) HdmiCsr.blank selectAndStart (.clk50 quietIn) (by decide)
    (fun _ => flowing) fair_flowing fun t => (mode_flowing _ t).trans (by decide)

end Fetch

end VideoPipeline
end VideoProcessing
