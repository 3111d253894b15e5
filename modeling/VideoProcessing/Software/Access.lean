import VideoProcessing.Lib.Server
import Mathlib.Data.BitVec

/-!
# What the programs of the Nios processor access

Everything that `video_app2` does apart from printing and waiting is a sequence of
accesses: to the CSR slave of `hdmi_sync_gen`, the control register of the address
span extender, memory, the `PLL_LOCKED` PIO and the I2C controller.  The two
self-tests are one access each; what they do to memory is `runOcmToDdrTest` and
`runDdrToDdrTest`.
-/

namespace VideoProcessing

open Lib

/-- The registers of the I2C controller that the driver uses. -/
inductive I2cReg
  | tfrCmd
  | ctrl
  | isr
  | status
  | sclLow
  | sclHigh
  | sdaHold
deriving DecidableEq

/-- One access; an `iord` is answered with the word read, `i2cOpen` with the pointer. -/
inductive Access
  | iordHdmi (reg : BitVec 3)
  | iowrHdmi (reg : BitVec 3) (v : BitVec 32)
  | iowrSpanExtender (offset v : BitVec 32)
  | store (addr v : BitVec 32)
  | ocmToDdrTest
  | ddrToDdrTest
  | iordPllLocked
  | i2cOpen
  | iordI2c (reg : I2cReg)
  | iowrI2c (reg : I2cReg) (v : BitVec 32)
deriving DecidableEq

/-- An access to the PIO or to the I2C controller. -/
def Access.Asks : Access → Prop
  | .iordPllLocked => True
  | .i2cOpen => True
  | .iordI2c _ => True
  | .iowrI2c _ _ => True
  | _ => False

/-- A program of the processor that returns an `R`. -/
abbrev Nios (R : Type) := Prog Access (BitVec 32) R

namespace Nios

/-- `IORD_32DIRECT(HDMI_SYNC_GEN_BASE | CACHE_BYPASS_MASK, 4 * reg)`. -/
def iordHdmi (reg : BitVec 3) : Nios (BitVec 32) := .access (.iordHdmi reg)

/-- `IOWR_32DIRECT(HDMI_SYNC_GEN_BASE | CACHE_BYPASS_MASK, 4 * reg, v)`. -/
def iowrHdmi (reg : BitVec 3) (v : BitVec 32) : Nios Unit :=
  .act (.iowrHdmi reg v) fun _ => .ret ()

/-- `IOWR_32DIRECT(ADDRESS_SPAN_EXTENDER_0_CNTL_BASE, offset, v)`. -/
def iowrSpanExtender (offset v : BitVec 32) : Nios Unit :=
  .act (.iowrSpanExtender offset v) fun _ => .ret ()

/-- `*addr = v`. -/
def store (addr v : BitVec 32) : Nios Unit := .act (.store addr v) fun _ => .ret ()

/-- `IORD` of a register of the I2C controller. -/
def iordI2c (reg : I2cReg) : Nios (BitVec 32) := .access (.iordI2c reg)

/-- `IOWR` of a register of the I2C controller. -/
def iowrI2c (reg : I2cReg) (v : BitVec 32) : Nios Unit :=
  .act (.iowrI2c reg v) fun _ => .ret ()

/-- `IORMW` of a register of the I2C controller. -/
def iormwI2c (reg : I2cReg) (data mask : BitVec 32) : Nios Unit := do
  let r ← iordI2c reg
  iowrI2c reg ((r &&& ~~~mask) ||| (data &&& mask))

end Nios
end VideoProcessing
