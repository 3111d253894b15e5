import VideoProcessing.Video.DmaFifo
import VideoProcessing.Video.DmaProtocol
import VideoProcessing.Video.HdmiTiming

/-!
# `video_pipeline`: the two clock domains together

`VideoPipeline` wires the DMA master, the dual-clock FIFO and `hdmi_sync_gen`
with the toggle synchroniser, as the top module does.  An event is an edge of
`clk_50`, of `clk_hdmi`, or of both at the same instant.

At a common instant every bit of a FIFO pointer, the VSync wire and the VSync
toggle are each sampled old or new, as the event says.  The pixel domain reads
the control registers, which have no synchroniser, as they were before the
instant.
-/

namespace VideoProcessing

open Lib

/-- All registers of `video_pipeline` and the words owed by its read slave. -/
structure VideoPipeline where
  dmaFifo : DmaFifo
  csr : HdmiCsr
  pixel : HdmiPixel
  vsyncToggleSync50 : BitVec 3

namespace VideoPipeline

/-- The raster of the instance: the default parameters. -/
abbrev params : HdmiParams := HdmiParams.qhd

/-- What software and the read slave do at a `clk_50` edge. -/
structure ClkIn where
  sAddress : BitVec 3
  sRead : Bool
  sWrite : Bool
  sWritedata : BitVec 32
  mWaitrequest : Bool
  ret : Option (BitVec 32)

/-- Software does nothing and the slave has a word ready. -/
def quietIn : ClkIn where
  sAddress := 0
  sRead := false
  sWrite := false
  sWritedata := 0
  mWaitrequest := false
  ret := some 7

/-- An edge of `clk_50`, of `clk_hdmi`, or of both. -/
inductive Event where
  | clk50 (c : ClkIn)
  | clkHdmi
  | both (c : ClkIn) (rdMask wrMask : BitVec 10) (vsNew toggleNew : Bool)

/-- After power-up and reset: the memories and the registers without a reset
hold anything. -/
def init (mem0 : BitVec 9 → BitVec 32) (csr0 : HdmiCsr) : VideoPipeline where
  dmaFifo := DmaFifo.init mem0
  csr := csr0.reset
  pixel := HdmiPixel.reset
  vsyncToggleSync50 := 0

/-- `reset_n` low: the FIFO has no reset, and the read slave is outside. -/
def reset (s : VideoPipeline) : VideoPipeline where
  dmaFifo := { s.dmaFifo with bus := { s.dmaFifo.bus with dma := VideoDmaMaster.reset } }
  csr := s.csr.reset
  pixel := HdmiPixel.reset
  vsyncToggleSync50 := 0

/-- `vsync_edge_sync = vsync_toggle_sync_50[2] ^ vsync_toggle_sync_50[1]`. -/
def vsyncEdgeSync (s : VideoPipeline) : Bool :=
  s.vsyncToggleSync50.getLsbD 2 ^^ s.vsyncToggleSync50.getLsbD 1

/-- `stream_rd_en`, wired to `rdreq`. -/
def streamRdEn (s : VideoPipeline) : Bool := s.pixel.streamRdEn params s.csr

/-- `stream_data_in = fifo_rd_data[23:0]`. -/
def streamDataIn (s : VideoPipeline) : BitVec 24 := s.dmaFifo.fifo.rd.q.setWidth 24

/-- The control ports of the DMA master. -/
def dmaIn (s : VideoPipeline) (c : ClkIn) : DmaFifo.ClkIn where
  startAddr := s.csr.shadowPtr
  dmaStart := s.csr.dmaStartPulse
  dmaContEn := s.csr.dmaContEn
  vsyncEdge := s.vsyncEdgeSync
  mWaitrequest := c.mWaitrequest
  ret := c.ret

/-- The ports of the control registers. -/
def csrIn (s : VideoPipeline) (c : ClkIn) (vsWire : Bool) : HdmiCsr.Inputs where
  avsAddress := c.sAddress
  avsRead := c.sRead
  avsWrite := c.sWrite
  avsWritedata := c.sWritedata
  dmaBusy := s.dmaFifo.bus.dma.busy
  dmaDoneIn := s.dmaFifo.bus.dma.dmaDone
  vsWire := vsWire

/-- The DMA and FIFO part of an event. -/
def fifoEvent (s : VideoPipeline) : Event → DmaFifo.Event
  | .clk50 c => .clk50 (s.dmaIn c)
  | .clkHdmi => .clkHdmi s.streamRdEn
  | .both c rdMask wrMask _ _ => .both (s.dmaIn c) s.streamRdEn rdMask wrMask

/-- The pixel registers after a `clk_hdmi` edge. -/
def pixelNext (s : VideoPipeline) : HdmiPixel :=
  s.pixel.step params s.csr s.streamDataIn

/-- One event of `video_pipeline`. -/
def step (s : VideoPipeline) (e : Event) : VideoPipeline :=
  let dmaFifo := s.dmaFifo.step DmaFifo.frameSizeWords (s.fifoEvent e)
  match e with
  | .clk50 c =>
      { s with
        dmaFifo := dmaFifo
        csr := s.csr.step (s.csrIn c (s.pixel.vsWire params))
        vsyncToggleSync50 := shiftIn s.vsyncToggleSync50 s.pixel.vsToggle }
  | .clkHdmi =>
      { s with
        dmaFifo := dmaFifo
        pixel := s.pixelNext }
  | .both c _ _ vsNew toggleNew =>
      let vsSample :=
        if vsNew then s.pixelNext.vsWire params else s.pixel.vsWire params
      let toggleSample := if toggleNew then s.pixelNext.vsToggle else s.pixel.vsToggle
      { dmaFifo := dmaFifo
        csr := s.csr.step (s.csrIn c vsSample)
        pixel := s.pixelNext
        vsyncToggleSync50 := shiftIn s.vsyncToggleSync50 toggleSample }

/-- The input of the `clk_50` edge of an event. -/
def Event.clkIn : Event → Option ClkIn
  | .clk50 c => some c
  | .clkHdmi => none
  | .both c _ _ _ _ => some c

/-- The event has a `clk_50` edge. -/
def Event.ticks50 (e : Event) : Bool := e.clkIn.isSome

/-- The event has a `clk_hdmi` edge. -/
def Event.ticksHdmi : Event → Bool
  | .clk50 _ => false
  | .clkHdmi => true
  | .both _ _ _ _ _ => true

section Coverage

/-!
The ratio of the clocks, 50 MHz to 37.8 MHz, enters only as this: every `clk_hdmi`
period contains a `clk_50` edge.  An edge at the instant between two periods
belongs to the first one when it samples the toggle as that period left it, and
to the second one when it samples both signals as that period starts.
-/

/-- The event may come when the running `clk_hdmi` period has, or has not yet,
had its `clk_50` edge. -/
def Event.covered (seen : Bool) : Event → Bool
  | .clk50 _ => true
  | .clkHdmi => seen
  | .both _ _ _ _ toggleNew => seen || !toggleNew

/-- The running `clk_hdmi` period has had its `clk_50` edge. -/
def Event.seen : Event → Bool
  | .clk50 _ => true
  | .clkHdmi => false
  | .both _ _ _ vsNew toggleNew => vsNew && toggleNew

/-- After a log; nothing is asked of the time before the first `clk_hdmi` edge. -/
def seenAfter (l : List (VideoPipeline × Event)) : Bool :=
  (l.getLast?.map fun p => p.2.seen).getD true

/-- Every `clk_hdmi` period contains a `clk_50` edge. -/
def Covered (l : List (VideoPipeline × Event)) (_ : VideoPipeline) (e : Event) : Prop :=
  e.covered (seenAfter l) = true

/-- The events alone decide it. -/
def coveredRun (seen : Bool) : List Event → Bool
  | [] => true
  | e :: es => e.covered seen && coveredRun e.seen es

@[simp] theorem seenAfter_snoc (l : List (VideoPipeline × Event))
    (p : VideoPipeline × Event) :
    seenAfter (l ++ [p]) = p.2.seen := by
  simp [seenAfter]

/-- The running `clk_hdmi` period has had its `clk_50` edge after the events. -/
def seenRun (seen : Bool) : List Event → Bool
  | [] => seen
  | e :: es => seenRun e.seen es

theorem coveredRun_append (b : Bool) (es es' : List Event) :
    coveredRun b (es ++ es') = (coveredRun b es && coveredRun (seenRun b es) es') := by
  induction es generalizing b with
  | nil => rfl
  | cons e es ih =>
      rw [List.cons_append, coveredRun, coveredRun, ih, Bool.and_assoc]
      rfl

theorem seenRun_append (b : Bool) (es es' : List Event) :
    seenRun b (es ++ es') = seenRun (seenRun b es) es' := by
  induction es generalizing b with
  | nil => rfl
  | cons e es ih => exact ih e.seen

theorem seenAfter_log (s : VideoPipeline) (es : List Event) :
    seenAfter (log step s es) = seenRun true es := by
  induction es using List.reverseRecOn with
  | nil => rfl
  | append_singleton es e _ =>
      rw [log_snoc, seenAfter_snoc, seenRun_append]
      rfl

theorem guarded_covered {s : VideoPipeline} {es : List Event}
    (h : coveredRun true es = true) : Guarded Covered step s es := by
  intro pre e post hes
  rw [hes, coveredRun_append, Bool.and_eq_true, coveredRun, Bool.and_eq_true] at h
  rw [Covered, seenAfter_log]
  exact h.2.1

end Coverage

section Projection

theorem step_dmaFifo (s : VideoPipeline) (e : Event) :
    (s.step e).dmaFifo = s.dmaFifo.step DmaFifo.frameSizeWords (s.fifoEvent e) := by
  cases e <;> rfl

/-- The DMA and FIFO part of a log. -/
def dmaLog (l : List (VideoPipeline × Event)) : List (DmaFifo × DmaFifo.Event) :=
  l.map fun p => (p.1.dmaFifo, p.1.fifoEvent p.2)

/-- The read slave and the DMA master in a log. -/
def busLog (l : List (VideoPipeline × Event)) : List (DmaBus × DmaBus.Cycle) :=
  DmaFifo.busLog DmaFifo.frameSizeWords (dmaLog l)

/-- The cycle of the DMA master at a `clk_50` edge. -/
def busCycle (s : VideoPipeline) (c : ClkIn) : DmaBus.Cycle :=
  s.dmaFifo.cycle (s.dmaIn c)

/-- A frame is triggered. -/
def triggers (s : VideoPipeline) (e : Event) : Bool :=
  match e.clkIn with
  | some c => s.dmaFifo.bus.triggers (s.busCycle c)
  | none => false

/-- The DMA master makes one cycle at every `clk_50` edge. -/
theorem step_bus (s : VideoPipeline) (e : Event) :
    (s.step e).dmaFifo.bus =
      match e.clkIn with
      | some c => s.dmaFifo.bus.step DmaFifo.frameSizeWords (s.busCycle c)
      | none => s.dmaFifo.bus := by
  cases e <;> rfl

theorem busLog_append (l l' : List (VideoPipeline × Event)) :
    busLog (l ++ l') = busLog l ++ busLog l' := by
  simp [busLog, dmaLog, DmaFifo.busLog]

theorem busLog_snoc (l : List (VideoPipeline × Event)) (s : VideoPipeline) (e : Event) :
    busLog (l ++ [(s, e)]) =
      busLog l ++ (e.clkIn.map fun c => (s.dmaFifo.bus, s.busCycle c)).toList := by
  rw [busLog, dmaLog, List.map_append, List.map_singleton, DmaFifo.busLog_snoc]
  cases e <;> rfl

/-- The DMA and the FIFO run in the pipeline as they run alone. -/
theorem run_dmaFifo (s : VideoPipeline) (es : List Event) :
    (run step s es).dmaFifo =
        run (DmaFifo.step DmaFifo.frameSizeWords) s.dmaFifo
          ((log step s es).map fun p => p.1.fifoEvent p.2) ∧
      dmaLog (log step s es) =
        log (DmaFifo.step DmaFifo.frameSizeWords) s.dmaFifo
          ((log step s es).map fun p => p.1.fifoEvent p.2) :=
  ⟨run_project_map (π := VideoPipeline.dmaFifo) step_dmaFifo s es,
    (log_project_map (π := VideoPipeline.dmaFifo) step_dmaFifo s es).symm⟩

end Projection

end VideoPipeline
end VideoProcessing
