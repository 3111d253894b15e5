import VideoProcessing.Burst.Control
import VideoProcessing.Fifo.SimpleFifo

/-!
# `burst_master`: the copy engine

The control code with one `simple_fifo` between the masters: a received word is
written to the FIFO in the cycle it arrives, a taken beat reads it.
-/

namespace VideoProcessing

open Lib

/-- The registers of `burst_master`. -/
structure BurstMaster (P : BurstParams) where
  ctl : BurstControl
  fifo : SimpleFifo 32 P.fifoDepth

namespace BurstMaster

variable {P : BurstParams}

/-- The input ports of the engine in one cycle. -/
structure Inputs where
  avs : AvsIn
  rmReaddata : BitVec 32
  rmReaddatavalid : Bool
  rmWaitrequest : Bool
  wmWaitrequest : Bool

/-- `reset_n` low, with unknown FIFO memory. -/
def reset (mem0 : BitVec (clog2 P.fifoDepth) → BitVec 32) : BurstMaster P where
  ctl := BurstControl.reset P
  fifo := SimpleFifo.reset mem0

/-- `wm_writedata`: the FIFO output. -/
def wmWritedata (s : BurstMaster P) : BitVec 32 := s.fifo.rdData

/-- What the control code samples: both masters look at the one FIFO. -/
def ctlInputs (s : BurstMaster P) (i : Inputs) : BurstControl.Inputs where
  avs := i.avs
  rmWaitrequest := i.rmWaitrequest
  rmReaddatavalid := i.rmReaddatavalid
  wmWaitrequest := i.wmWaitrequest
  rdUsed := s.fifo.usedW.setWidth 32
  wrUsed := s.fifo.usedW.setWidth 32

/-- One `clk` edge. -/
def step (s : BurstMaster P) (i : Inputs) : BurstMaster P where
  ctl := s.ctl.step P (s.ctlInputs i)
  fifo := s.fifo.step i.rmReaddatavalid i.rmReaddata (s.ctl.wm.fifoRdEn i.wmWaitrequest)

end BurstMaster
end VideoProcessing
