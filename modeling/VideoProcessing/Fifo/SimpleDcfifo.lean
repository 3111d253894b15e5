import VideoProcessing.Lib.Run
import VideoProcessing.Lib.GrayCode

/-!
# `simple_dcfifo`: the dual-clock FIFO

The registers are split by the clock that writes them: `WrSide` by `wrclk`,
`RdSide` by `rdclk`.  Each side sees the other one through a gray-coded pointer
that passes two flip-flops.  An event is an edge of one clock or of both at the
same instant; in the last case every bit of a gray pointer that changes at the
edge that samples it resolves to its old or to its new value, as the event says.

Both parameters stay symbolic: `dw` is `DATA_WIDTH`, `aw` is `ADDR_WIDTH`.
-/

namespace VideoProcessing
namespace SimpleDcfifo

/-- `bin2gray = bin ^ (bin >> 1)`. -/
def bin2gray {n : Nat} (bin : BitVec n) : BitVec n :=
  bin ^^^ (bin >>> 1)

/-- The `for` loop of `gray2bin`: `gray2bin[i] = gray2bin[i+1] ^ gray[i]` for
`i` from the argument minus one down to `0`. -/
def gray2binLoop {n : Nat} (gray : BitVec n) : Nat → BitVec n → BitVec n
  | 0, acc => acc
  | i + 1, acc =>
      gray2binLoop gray i
        (acc ||| ((BitVec.ofBool (acc.getLsbD (i + 1) ^^ gray.getLsbD i)).setWidth n <<< i))

/-- `gray2bin`: the top bit is copied, the loop fills in the others. -/
def gray2bin {aw : Nat} (gray : BitVec (aw + 1)) : BitVec (aw + 1) :=
  gray2binLoop gray aw
    ((BitVec.ofBool (gray.getLsbD aw)).setWidth (aw + 1) <<< aw)

/-- The registers written by `wrclk`, and the memory. -/
structure WrSide (dw aw : Nat) where
  wrPtrBin : BitVec (aw + 1)
  wrPtrGray : BitVec (aw + 1)
  rdPtrGraySync1 : BitVec (aw + 1)
  rdPtrGraySync2 : BitVec (aw + 1)
  mem : BitVec aw → BitVec dw

/-- The registers written by `rdclk`. -/
structure RdSide (dw aw : Nat) where
  rdPtrBin : BitVec (aw + 1)
  rdPtrGray : BitVec (aw + 1)
  wrPtrGraySync1 : BitVec (aw + 1)
  wrPtrGraySync2 : BitVec (aw + 1)
  q : BitVec dw

end SimpleDcfifo

/-- All registers of `simple_dcfifo`. -/
structure SimpleDcfifo (dw aw : Nat) where
  wr : SimpleDcfifo.WrSide dw aw
  rd : SimpleDcfifo.RdSide dw aw

namespace SimpleDcfifo

variable {dw aw : Nat}

/-- The `initial` block; the memory powers up with unknown contents `mem0`. -/
def init (mem0 : BitVec aw → BitVec dw) : SimpleDcfifo dw aw where
  wr :=
    { wrPtrBin := 0, wrPtrGray := 0, rdPtrGraySync1 := 0, rdPtrGraySync2 := 0,
      mem := mem0 }
  rd :=
    { rdPtrBin := 0, rdPtrGray := 0, wrPtrGraySync1 := 0, wrPtrGraySync2 := 0,
      q := 0 }

/-- `wrfull`: the two top bits differ from the synchronised read pointer, the
rest match. -/
def WrSide.wrfull (s : WrSide dw aw) : Bool :=
  s.wrPtrGray ==
    (~~~ (s.rdPtrGraySync2.extractLsb' (aw - 1) 2) ++
      s.rdPtrGraySync2.extractLsb' 0 (aw - 1)).setWidth (aw + 1)

/-- `used_diff = wr_ptr_bin - gray2bin(rd_ptr_gray_sync2)`. -/
def WrSide.usedDiff (s : WrSide dw aw) : BitVec (aw + 1) :=
  s.wrPtrBin - gray2bin s.rdPtrGraySync2

/-- `wrusedw`: the used words, saturated to all ones when the FIFO is full. -/
def WrSide.wrusedw (s : WrSide dw aw) : BitVec aw :=
  if s.usedDiff.getLsbD aw then BitVec.allOnes aw else s.usedDiff.setWidth aw

/-- `rdempty`: the read pointer meets the synchronised write pointer. -/
def RdSide.rdempty (s : RdSide dw aw) : Bool :=
  s.rdPtrGray == s.wrPtrGraySync2

/-- A write is accepted: `wrreq && !wrfull`. -/
def WrSide.accepts (s : WrSide dw aw) (wrreq : Bool) : Bool :=
  wrreq && !s.wrfull

/-- A read is accepted: `rdreq && !rdempty`. -/
def RdSide.accepts (s : RdSide dw aw) (rdreq : Bool) : Bool :=
  rdreq && !s.rdempty

/-- One `wrclk` edge; `rdSample` is the value sampled from `rd_ptr_gray`. -/
def WrSide.edge (s : WrSide dw aw) (rdSample : BitVec (aw + 1)) (wrreq : Bool)
    (data : BitVec dw) : WrSide dw aw :=
  let s' := { s with
    rdPtrGraySync1 := rdSample
    rdPtrGraySync2 := s.rdPtrGraySync1 }
  if s.accepts wrreq then
    { s' with
      mem := fun a => if a = s.wrPtrBin.setWidth aw then data else s.mem a
      wrPtrBin := s.wrPtrBin + 1
      wrPtrGray := bin2gray (s.wrPtrBin + 1) }
  else s'

/-- One `rdclk` edge; `wrSample` is the value sampled from `wr_ptr_gray` and
`mem` the memory as it was before the edge. -/
def RdSide.edge (s : RdSide dw aw) (wrSample : BitVec (aw + 1))
    (mem : BitVec aw → BitVec dw) (rdreq : Bool) : RdSide dw aw :=
  let s' := { s with
    wrPtrGraySync1 := wrSample
    wrPtrGraySync2 := s.wrPtrGraySync1 }
  if s.accepts rdreq then
    { s' with
      q := mem (s.rdPtrBin.setWidth aw)
      rdPtrBin := s.rdPtrBin + 1
      rdPtrGray := bin2gray (s.rdPtrBin + 1) }
  else s'

/-- A clock event of the FIFO with the requests it meets. -/
inductive Edge (dw aw : Nat)
  | wrclk (wrreq : Bool) (data : BitVec dw)
  | rdclk (rdreq : Bool)
  | both (wrreq : Bool) (data : BitVec dw) (rdreq : Bool)
      (rdMask wrMask : BitVec (aw + 1))

/-- The event has a `wrclk` edge. -/
def Edge.hasWrclk : Edge dw aw → Bool
  | .wrclk _ _ => true
  | .rdclk _ => false
  | .both _ _ _ _ _ => true

/-- The event has an `rdclk` edge. -/
def Edge.hasRdclk : Edge dw aw → Bool
  | .wrclk _ _ => false
  | .rdclk _ => true
  | .both _ _ _ _ _ => true

/-- One event of the FIFO.  A pointer that changes at the edge that samples it is read with
the bits right after that edge under the event's mask and the old ones elsewhere. -/
def step (f : SimpleDcfifo dw aw) : Edge dw aw → SimpleDcfifo dw aw
  | .wrclk wrreq data => { f with wr := f.wr.edge f.rd.rdPtrGray wrreq data }
  | .rdclk rdreq => { f with rd := f.rd.edge f.wr.wrPtrGray f.wr.mem rdreq }
  | .both wrreq data rdreq rdMask wrMask =>
      let wrNew := (f.wr.edge f.rd.rdPtrGray wrreq data).wrPtrGray
      let rdNew := (f.rd.edge f.wr.wrPtrGray f.wr.mem rdreq).rdPtrGray
      { wr := f.wr.edge (Lib.Gray.resolve f.rd.rdPtrGray rdNew rdMask) wrreq data
        rd := f.rd.edge (Lib.Gray.resolve f.wr.wrPtrGray wrNew wrMask) f.wr.mem rdreq }

/-- The word that an event writes, when the write is accepted. -/
def acceptedWrite (f : SimpleDcfifo dw aw) : Edge dw aw → Option (BitVec dw)
  | .wrclk wrreq data => if f.wr.accepts wrreq then some data else none
  | .rdclk _ => none
  | .both wrreq data _ _ _ => if f.wr.accepts wrreq then some data else none

/-- The word that an event loads into `q`, when the read is accepted: the value
of `q` after the edge. -/
def acceptedRead (f : SimpleDcfifo dw aw) : Edge dw aw → Option (BitVec dw)
  | .wrclk _ _ => none
  | .rdclk rdreq =>
      if f.rd.accepts rdreq then some (f.step (.rdclk rdreq)).rd.q else none
  | .both wrreq data rdreq rdMask wrMask =>
      if f.rd.accepts rdreq then
        some (f.step (.both wrreq data rdreq rdMask wrMask)).rd.q
      else none

/-- The accepted writes of a run, oldest first. -/
def writes (l : List (SimpleDcfifo dw aw × Edge dw aw)) : List (BitVec dw) :=
  l.filterMap fun p => acceptedWrite p.1 p.2

/-- The words loaded into `q` by the accepted reads of a run, oldest first. -/
def reads (l : List (SimpleDcfifo dw aw × Edge dw aw)) : List (BitVec dw) :=
  l.filterMap fun p => acceptedRead p.1 p.2

end SimpleDcfifo
end VideoProcessing
