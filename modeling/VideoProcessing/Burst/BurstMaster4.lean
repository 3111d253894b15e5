import VideoProcessing.Burst.Control
import VideoProcessing.Fifo.SimpleFifo

/-!
# `burst_master_4`: the streaming engine

The control code with two FIFOs and a valid/ready pipeline between them.  A word
moves from the input FIFO through `PIPE_LATENCY + 1` registers into the output
FIFO; on the way it is multiplied by the coefficient and scaled.
-/

namespace VideoProcessing

open Lib

/-- The parameters with `PIPE_LATENCY`; the two arithmetic stages need two
stages behind stage 0. -/
structure BurstParams4 extends BurstParams where
  pipeLatency : Nat
  pipeLatency_ge : 2 ≤ pipeLatency

/-- The default parameters. -/
def BurstParams4.standard : BurstParams4 where
  toBurstParams := BurstParams.standard
  pipeLatency := 4
  pipeLatency_ge := by decide

/-- The pipeline registers, stage `0` to stage `PIPE_LATENCY`. -/
structure Pipeline where
  pipelineValid : Nat → Bool
  pipelineData : Nat → BitVec 32

namespace Pipeline

/-- The values set by `reset_n`. -/
def reset : Pipeline where
  pipelineValid := fun _ => false
  pipelineData := fun _ => 0

/-- `pipeline_ready` of the stage `d` places before the last one. -/
def readyFrom (latency : Nat) (p : Pipeline) (fifoOutFull : Bool) : Nat → Bool
  | 0 => !fifoOutFull
  | d + 1 => !p.pipelineValid (latency - (d + 1)) || readyFrom latency p fifoOutFull d

/-- `pipeline_ready[g]`. -/
def pipelineReady (latency : Nat) (p : Pipeline) (fifoOutFull : Bool) (g : Nat) : Bool :=
  readyFrom latency p fifoOutFull (latency - g)

/-- `fifo_in_rd_en`. -/
def fifoInRdEn (latency : Nat) (p : Pipeline) (fifoInEmpty fifoOutFull : Bool) : Bool :=
  !fifoInEmpty && p.pipelineReady latency fifoOutFull 0

/-- `fifo_out_wr_en`. -/
def fifoOutWrEn (latency : Nat) (p : Pipeline) (fifoOutFull : Bool) : Bool :=
  p.pipelineValid latency && p.pipelineReady latency fifoOutFull latency

/-- `fifo_out_wr_data`. -/
def fifoOutWrData (latency : Nat) (p : Pipeline) : BitVec 32 := p.pipelineData latency

/-- The product with 5243 in 64 bits, shifted right by 21 and cut to 32 bits. -/
def scale (x : BitVec 32) : BitVec 32 :=
  ((x.setWidth 64 * 5243) >>> 21).setWidth 32

/-- What a word becomes on its way from stage `i` to stage `i + 1`. -/
def op (ctrlCoeff : BitVec 32) (i : Nat) (x : BitVec 32) : BitVec 32 :=
  if i = 0 then x * ctrlCoeff else if i = 1 then scale x else x

/-- One `clk` edge of the pipeline registers. -/
def step (latency : Nat) (ctrlCoeff : BitVec 32) (p : Pipeline)
    (fifoInEmpty : Bool) (fifoInRdData : BitVec 32) (fifoOutFull : Bool) : Pipeline where
  pipelineValid := fun g =>
    match g with
    | 0 => if p.pipelineReady latency fifoOutFull 0 then !fifoInEmpty else p.pipelineValid 0
    | i + 1 =>
        if i < latency && p.pipelineReady latency fifoOutFull (i + 1) then p.pipelineValid i
        else p.pipelineValid (i + 1)
  pipelineData := fun g =>
    match g with
    | 0 => if p.pipelineReady latency fifoOutFull 0 then fifoInRdData else p.pipelineData 0
    | i + 1 =>
        if i < latency && p.pipelineReady latency fifoOutFull (i + 1) then
          if p.pipelineValid i then op ctrlCoeff i (p.pipelineData i) else 0
        else p.pipelineData (i + 1)

end Pipeline

/-- The registers of `burst_master_4`. -/
structure BurstMaster4 (P : BurstParams4) where
  ctl : BurstControl
  ctrlCoeff : BitVec 32
  fifoIn : SimpleFifo 32 P.fifoDepth
  pipe : Pipeline
  fifoOut : SimpleFifo 32 P.fifoDepth

namespace BurstMaster4

variable {P : BurstParams4}

/-- `reset_n` low, with unknown FIFO memories. -/
def reset (memIn memOut : BitVec (clog2 P.fifoDepth) → BitVec 32) : BurstMaster4 P where
  ctl := BurstControl.reset P.toBurstParams
  ctrlCoeff := 1
  fifoIn := SimpleFifo.reset memIn
  pipe := Pipeline.reset
  fifoOut := SimpleFifo.reset memOut

/-- The input ports of the engine in one cycle. -/
structure Inputs where
  avs : AvsIn
  rmReaddata : BitVec 32
  rmReaddatavalid : Bool
  rmWaitrequest : Bool
  wmWaitrequest : Bool

/-- `wm_writedata`: the output of the output FIFO. -/
def wmWritedata (s : BurstMaster4 P) : BitVec 32 := s.fifoOut.rdData

/-- `avs_readdata`: register 7 is the coefficient, the others are those of
`burst_master`. -/
def avsReaddata (s : BurstMaster4 P) (avsAddress : BitVec 3) : BitVec 32 :=
  if avsAddress = 7 then s.ctrlCoeff else s.ctl.csr.avsReaddata avsAddress

/-- What the control code samples: the read master looks at the input FIFO, the
write master at the output FIFO. -/
def ctlInputs (s : BurstMaster4 P) (i : Inputs) : BurstControl.Inputs where
  avs := i.avs
  rmWaitrequest := i.rmWaitrequest
  rmReaddatavalid := i.rmReaddatavalid
  wmWaitrequest := i.wmWaitrequest
  rdUsed := s.fifoIn.usedW.setWidth 32
  wrUsed := s.fifoOut.usedW.setWidth 32

/-- One `clk` edge. -/
def step (s : BurstMaster4 P) (i : Inputs) : BurstMaster4 P where
  ctl := s.ctl.step4 P.toBurstParams (s.ctlInputs i)
  ctrlCoeff :=
    if i.avs.avsWrite && i.avs.avsAddress == 7 then i.avs.avsWritedata else s.ctrlCoeff
  fifoIn :=
    s.fifoIn.step i.rmReaddatavalid i.rmReaddata
      (s.pipe.fifoInRdEn P.pipeLatency s.fifoIn.empty s.fifoOut.full)
  pipe :=
    s.pipe.step P.pipeLatency s.ctrlCoeff s.fifoIn.empty s.fifoIn.rdData s.fifoOut.full
  fifoOut :=
    s.fifoOut.step (s.pipe.fifoOutWrEn P.pipeLatency s.fifoOut.full)
      (s.pipe.fifoOutWrData P.pipeLatency) (s.ctl.wm.fifoRdEn i.wmWaitrequest)

end BurstMaster4
end VideoProcessing
