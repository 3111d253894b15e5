import VideoProcessing.Software.Console
import VideoProcessing.Software.SelfTest
import VideoProcessing.Video.Pipeline

/-!
# The processor, DDR and the video pipeline together

`Soc` is the board as the console sees it: `video_pipeline` with both clocks, memory
behind the address span extender, and the burst engines.  The processor runs on
`clk_50` and makes at most one access at an edge; the read slave of the video DMA
returns the words of DDR.

`device` is the board as a device for `Nios` programs, and `console` the server that
`video_app2` is on it.  The self-tests are one access, served when the test returns.
-/

namespace VideoProcessing

open Lib SelfTest

/-- The pipeline and memory with the burst engines; for reference only, how many start
pulses there were and how often Cont was switched off. -/
structure Soc (τ : Type) where
  pipeline : VideoPipeline
  board : Board τ
  starts : Nat
  stops : Nat

/-- The engines at `BURST_MASTER_0_BASE` and `BURST_MASTER_4_0_BASE`, the source buffer of
the first self-test, and how often a test polls for Done. -/
structure Platform (τ : Type) where
  burstMaster : DmaEngine τ
  burstMaster4 : DmaEngine τ
  buffer : OcmBuffer
  fuel : Nat

namespace Soc

/-- What the rest of the board does at a `clk_50` edge: the slave of the video DMA stalls,
or has the oldest word ready; the processor gets to its next access; a character has been
typed; and the words in the PIO and from the I2C controller. -/
structure Port where
  mWaitrequest : Bool
  ready : Bool
  go : Bool
  typed : Option (BitVec 8)
  pio : BitVec 32
  i2c : BitVec 32

/-- An edge of `clk_50`, of `clk_hdmi`, or of both. -/
inductive Event
  | clk50 (p : Port)
  | clkHdmi
  | both (p : Port) (rdMask wrMask : BitVec 10) (vsNew toggleNew : Bool)

/-- The port of the `clk_50` edge of an event. -/
def Event.port : Event → Option Port
  | .clk50 p => some p
  | .clkHdmi => none
  | .both p _ _ _ _ => some p

variable {τ : Type}

/-- The read slave returns the DDR word at the oldest address that it owes. -/
def clkIn (s : Soc τ) (p : Port) : VideoPipeline.ClkIn where
  sAddress := 0
  sRead := false
  sWrite := false
  sWritedata := 0
  mWaitrequest := p.mWaitrequest
  ret :=
    if p.ready then s.pipeline.dmaFifo.bus.owed.head?.map fun a => s.board.mem.ddr (wordOf a)
    else none

/-- The event as the pipeline sees it, with the access `f` to its control registers. -/
def event (s : Soc τ) (f : VideoPipeline.ClkIn → VideoPipeline.ClkIn) :
    Event → VideoPipeline.Event
  | .clk50 p => .clk50 (f (s.clkIn p))
  | .clkHdmi => .clkHdmi
  | .both p rdMask wrMask vsNew toggleNew =>
      .both (f (s.clkIn p)) rdMask wrMask vsNew toggleNew

/-- One event with an access to the control registers. -/
def step (s : Soc τ) (f : VideoPipeline.ClkIn → VideoPipeline.ClkIn) (e : Event) : Soc τ :=
  let pipeline := s.pipeline.step (s.event f e)
  { s with
    pipeline := pipeline
    starts := s.starts + (e.port.isSome && pipeline.csr.dmaStartPulse).toNat
    stops := s.stops + (s.pipeline.csr.dmaContEn && !pipeline.csr.dmaContEn).toNat }

/-- One event without an access. -/
def idle (s : Soc τ) (e : Event) : Soc τ := s.step id e

/-- A read of a control register. -/
def reads (reg : BitVec 3) (c : VideoPipeline.ClkIn) : VideoPipeline.ClkIn :=
  { c with sAddress := reg, sRead := true }

/-- A write of a control register. -/
def writes (reg : BitVec 3) (v : BitVec 32) (c : VideoPipeline.ClkIn) :
    VideoPipeline.ClkIn :=
  { c with sAddress := reg, sWrite := true, sWritedata := v }

/-- The access that the processor makes at an edge where it gets to it.  A word read from
the display arrives with `avs_readdatavalid`; the upper half of the base of the span
extender is not wired. -/
def access (P : Platform τ) (s : Soc τ) (e : Event) (p : Port) :
    Access → Option (BitVec 32 × Soc τ)
  | .iordHdmi reg =>
      let s' := s.step (reads reg) e
      some (s'.pipeline.csr.avsReaddataReg, s')
  | .iowrHdmi reg v => some (0, s.step (writes reg v) e)
  | .iowrSpanExtender offset v =>
      some (0, { s.idle e with
        board := if offset = 0 then { s.board with window := v } else s.board })
  | .store addr v => some (0, { s.idle e with board := s.board.store addr v })
  | .ocmToDdrTest =>
      (runOcmToDdrTest P.burstMaster P.fuel P.buffer s.board).map fun r =>
        (0, { s.idle e with board := r.2 })
  | .ddrToDdrTest =>
      (runDdrToDdrTest P.burstMaster4 P.fuel s.board).map fun r =>
        (0, { s.idle e with board := r.2 })
  | .iordPllLocked => some (p.pio, s.idle e)
  | .i2cOpen => some (p.i2c, s.idle e)
  | .iordI2c _ => some (p.i2c, s.idle e)
  | .iowrI2c _ _ => some (0, s.idle e)

/-- The board as a device. -/
def device (P : Platform τ) : Device (Soc τ) Event Access (BitVec 32) (BitVec 8) where
  idle := idle
  act s e a :=
    match e.port with
    | some p => if p.go then s.access P e p a else none
    | none => none
  poll s e :=
    match e.port with
    | some p => if p.go then p.typed.map fun c => (c, s.idle e) else none
    | none => none

/-- The console of `video_app2` on the board. -/
def console (P : Platform τ) (t : GammaTables) :
    Soc τ × Nios Console.Menu → Event → Soc τ × Nios Console.Menu :=
  serve (device P) (Console.onKey t)

/-- Power-up: the pipeline is reset, and `main` is called. -/
def init (mem0 : BitVec 9 → BitVec 32) (csr0 : HdmiCsr) (board : Board τ) :
    Soc τ × Nios Console.Menu :=
  ({ pipeline := VideoPipeline.init mem0 csr0, board := board, starts := 0, stops := 0 },
    Console.main)

/-- The characters read in a run, oldest first. -/
def typed (P : Platform τ) (t : GammaTables) (c : Soc τ × Nios Console.Menu)
    (es : List Event) : List (BitVec 8) :=
  requests (device P) (Console.onKey t) (log (console P t) c es)

section Steps

variable {P : Platform τ} {s s' : Soc τ} {e : Event} {v : BitVec 32}

/-- What an event does to the control registers. -/
theorem step_csr (s : Soc τ) (f : VideoPipeline.ClkIn → VideoPipeline.ClkIn) {p : Port}
    (hp : e.port = some p) :
    ∃ vs, (s.step f e).pipeline.csr =
      s.pipeline.csr.step (s.pipeline.csrIn (f (s.clkIn p)) vs) := by
  cases e with
  | clk50 q =>
      obtain rfl := Option.some.inj hp
      exact ⟨_, rfl⟩
  | clkHdmi => exact absurd hp (by simp [Event.port])
  | both q rdMask wrMask vsNew toggleNew =>
      obtain rfl := Option.some.inj hp
      exact ⟨_, rfl⟩

/-- A `clk_hdmi` edge leaves the control registers. -/
theorem step_csr_of_none (s : Soc τ) (f : VideoPipeline.ClkIn → VideoPipeline.ClkIn)
    (hp : e.port = none) : (s.step f e).pipeline.csr = s.pipeline.csr := by
  cases e with
  | clk50 q => exact absurd hp (by simp [Event.port])
  | clkHdmi => rfl
  | both q rdMask wrMask vsNew toggleNew => exact absurd hp (by simp [Event.port])

/-- A served access: the processor got to it at an edge of its clock. -/
theorem act_eq_some {a : Access} (h : (device P).act s e a = some (v, s')) :
    ∃ p, e.port = some p ∧ s.access P e p a = some (v, s') := by
  change (match e.port with
    | some p => if p.go then s.access P e p a else none
    | none => none) = some (v, s') at h
  cases hp : e.port with
  | none => rw [hp] at h; exact absurd h (by simp)
  | some p =>
      rw [hp] at h
      change (if p.go = true then _ else none) = _ at h
      split at h
      · exact ⟨p, rfl, h⟩
      · exact absurd h (by simp)

/-- A character is read at an edge that is idle otherwise. -/
theorem poll_eq_some {c : BitVec 8} (h : (device P).poll s e = some (c, s')) :
    s' = s.idle e := by
  change (match e.port with
    | some p => if p.go then p.typed.map fun c => (c, s.idle e) else none
    | none => none) = some (c, s') at h
  cases hp : e.port with
  | none => rw [hp] at h; exact absurd h (by simp)
  | some p =>
      rw [hp] at h
      change (if p.go = true then _ else none) = _ at h
      split at h
      · obtain ⟨c', -, heq⟩ := Option.map_eq_some_iff.1 h
        exact (Prod.mk.inj heq).2.symm
      · exact absurd h (by simp)

end Steps

section Bench

/-- The processor gets to its next access, and `c` has been typed. -/
def goEvent (c : Option (BitVec 8)) : Event := .clk50 ⟨true, false, true, c, 0, 0⟩

/-- Engines that are not used. -/
def restingEngine : DmaEngine Unit where
  iowr _ _ s := s
  iord _ s := (0, s)

def bench : Platform Unit where
  burstMaster := restingEngine
  burstMaster4 := restingEngine
  buffer := ⟨0, by decide, by decide⟩
  fuel := 0

def flatTables : GammaTables := ⟨fun _ => 0, fun _ => 0, fun _ => 0⟩

/-- Power-up with everything at zero. -/
def powerUp : Soc Unit × Nios Console.Menu :=
  init (fun _ => 0) HdmiCsr.blank ⟨0, ⟨fun _ => 0, fun _ => 0⟩, ()⟩

end Bench

end Soc
end VideoProcessing
