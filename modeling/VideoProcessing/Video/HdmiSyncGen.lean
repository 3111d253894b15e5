import VideoProcessing.Lib.Run

/-!
# `hdmi_sync_gen`: control registers, raster and pixel output

The module lives in two clock domains.  `HdmiCsr` holds the registers written by
the CSR clock `clk`: the control registers, the LUT and bitmap memories and the
frame pointer with its shadow copy.  `HdmiPixel` holds the registers written by
`clk_pixel`: the raster counters, the delayed syncs and the output pixel.

Each domain has one step function; what it reads of the other domain is an
argument.
-/

namespace VideoProcessing

/-- The timing parameters of `hdmi_sync_gen`, with the totals they must add up
to in twelve bits. -/
structure HdmiParams where
  hVisible : Nat
  hFront : Nat
  hSync : Nat
  hBack : Nat
  hTotal : Nat
  vVisible : Nat
  vFront : Nat
  vSync : Nat
  vBack : Nat
  vTotal : Nat
  hTotal_eq : hTotal = hVisible + hFront + hSync + hBack
  vTotal_eq : vTotal = vVisible + vFront + vSync + vBack
  hFront_pos : 0 < hFront
  hSync_pos : 0 < hSync
  hBack_pos : 0 < hBack
  vFront_pos : 0 < vFront
  vSync_pos : 0 < vSync
  vBack_pos : 0 < vBack
  hTotal_lt : hTotal < 4096
  vTotal_lt : vTotal < 4096

/-- The default parameters: 960x540. -/
def HdmiParams.qhd : HdmiParams where
  hVisible := 960
  hFront := 48
  hSync := 32
  hBack := 80
  hTotal := 1120
  vVisible := 540
  vFront := 3
  vSync := 5
  vBack := 15
  vTotal := 563
  hTotal_eq := by decide
  vTotal_eq := by decide
  hFront_pos := by decide
  hSync_pos := by decide
  hBack_pos := by decide
  vFront_pos := by decide
  vSync_pos := by decide
  vBack_pos := by decide
  hTotal_lt := by decide
  vTotal_lt := by decide

/-- A three-stage shift register: `{r[1:0], b}`. -/
def shiftIn (r : BitVec 3) (b : Bool) : BitVec 3 :=
  r.setWidth 2 ++ BitVec.ofBool b

@[simp] theorem shiftIn_zero (r : BitVec 3) (b : Bool) :
    (shiftIn r b).getLsbD 0 = b := by
  revert r b
  decide

@[simp] theorem shiftIn_one (r : BitVec 3) (b : Bool) :
    (shiftIn r b).getLsbD 1 = r.getLsbD 0 := by
  revert r b
  decide

@[simp] theorem shiftIn_two (r : BitVec 3) (b : Bool) :
    (shiftIn r b).getLsbD 2 = r.getLsbD 1 := by
  revert r b
  decide

/-- The registers written by the CSR clock. -/
structure HdmiCsr where
  regMode : BitVec 32
  regGlobalCtrl : BitVec 32
  regLutAddr : BitVec 32
  regLutData : BitVec 32
  regBitmapAddr : BitVec 32
  regBitmapData : BitVec 32
  regFramePtr : BitVec 32
  shadowPtr : BitVec 32
  dmaStartPulse : Bool
  dmaDoneSticky : Bool
  avsReaddataReg : BitVec 32
  avsReaddatavalid : Bool
  vsSyncSh : BitVec 3
  charBitmap : BitVec 4 → BitVec 16
  lutMem : BitVec 8 → BitVec 8

namespace HdmiCsr

/-- The ports of the CSR domain at one `clk` edge; `vsWire` is the value sampled
from the pixel domain. -/
structure Inputs where
  avsAddress : BitVec 3
  avsRead : Bool
  avsWrite : Bool
  avsWritedata : BitVec 32
  dmaBusy : Bool
  dmaDoneIn : Bool
  vsWire : Bool

/-- `reset_n` low: the LUT memory, the bitmap address and data registers and the
read data register are not reset. -/
def reset (s : HdmiCsr) : HdmiCsr :=
  { s with
    regMode := 0
    regGlobalCtrl := 0
    regLutAddr := 0
    regLutData := 0
    regFramePtr := 0x30000000
    shadowPtr := 0x30000000
    dmaStartPulse := false
    dmaDoneSticky := false
    avsReaddatavalid := false
    vsSyncSh := 0
    charBitmap := fun _ => 0 }

/-- Registers and memories that hold zero. -/
def blank : HdmiCsr where
  regMode := 0
  regGlobalCtrl := 0
  regLutAddr := 0
  regLutData := 0
  regBitmapAddr := 0
  regBitmapData := 0
  regFramePtr := 0
  shadowPtr := 0
  dmaStartPulse := false
  dmaDoneSticky := false
  avsReaddataReg := 0
  avsReaddatavalid := false
  vsSyncSh := 0
  charBitmap := fun _ => 0
  lutMem := fun _ => 0

/-- `read_data_mux`. -/
def readDataMux (s : HdmiCsr) (i : Inputs) : BitVec 32 :=
  match i.avsAddress.toNat with
  | 0 => s.regMode
  | 1 =>
      BitVec.ofBool i.dmaBusy ++ BitVec.ofBool s.dmaDoneSticky ++ 0#28 ++
        BitVec.ofBool (s.regGlobalCtrl.getLsbD 1) ++
          BitVec.ofBool (s.regGlobalCtrl.getLsbD 0)
  | 2 => s.regLutAddr
  | 3 => s.regLutData
  | 4 => s.regBitmapAddr
  | 5 => s.regBitmapData
  | 6 => s.regFramePtr
  | _ => 0

/-- Bit 30 of the DMA control register reads the sticky flag. -/
theorem readDataMux_done (s : HdmiCsr) {i : Inputs} (h : i.avsAddress = 1) :
    (s.readDataMux i).getLsbD 30 = s.dmaDoneSticky := by
  have hbit : ∀ busy done cont gamma : Bool,
      (BitVec.ofBool busy ++ BitVec.ofBool done ++ 0#28 ++ BitVec.ofBool cont ++
        BitVec.ofBool gamma).getLsbD 30 = done := by decide
  have haddr : i.avsAddress.toNat = 1 := by
    rw [h]
    rfl
  rw [readDataMux, haddr]
  exact hbit _ _ _ _

/-- `dma_cont_en_out`, the Cont bit. -/
def dmaContEn (s : HdmiCsr) : Bool := s.regGlobalCtrl.getLsbD 1

/-- The Gamma bit. -/
def gammaEn (s : HdmiCsr) : Bool := s.regGlobalCtrl.getLsbD 0

/-- `reg_mode[3:0]`. -/
def mode (s : HdmiCsr) : BitVec 4 := s.regMode.setWidth 4

/-- The control writes: the `case` on `avs_address`. -/
def write (s : HdmiCsr) (i : Inputs) : HdmiCsr :=
  match i.avsAddress.toNat with
  | 0 => { s with regMode := i.avsWritedata }
  | 1 =>
      { s with
        regGlobalCtrl :=
          s.regGlobalCtrl.extractLsb' 2 30 ++ i.avsWritedata.setWidth 2
        dmaStartPulse :=
          if i.avsWritedata.getLsbD 2 then true else s.dmaStartPulse
        dmaDoneSticky :=
          if i.avsWritedata.getLsbD 30 then false else s.dmaDoneSticky }
  | 2 => { s with regLutAddr := i.avsWritedata }
  | 3 =>
      { s with
        regLutData := i.avsWritedata
        lutMem := fun a =>
          if a = s.regLutAddr.setWidth 8 then i.avsWritedata.setWidth 8
          else s.lutMem a }
  | 4 => { s with regBitmapAddr := i.avsWritedata }
  | 5 =>
      { s with
        regBitmapData := i.avsWritedata
        charBitmap := fun a =>
          if a = s.regBitmapAddr.setWidth 4 then i.avsWritedata.setWidth 16
          else s.charBitmap a }
  | 6 => { s with regFramePtr := i.avsWritedata }
  | _ => s

/-- The rising edge of VSync as the CSR domain sees it. -/
def vsRise (s : HdmiCsr) : Bool :=
  s.vsSyncSh.getLsbD 1 && !s.vsSyncSh.getLsbD 2

/-- One `clk` edge of the CSR domain: the start pulse clears itself and a completion sets
the sticky flag; a control write comes later in the block, so it wins. -/
def step (s : HdmiCsr) (i : Inputs) : HdmiCsr :=
  let s1 := { s with
    dmaStartPulse := false
    dmaDoneSticky := if i.dmaDoneIn then true else s.dmaDoneSticky }
  let s2 := if i.avsWrite then s1.write i else s1
  { s2 with
    avsReaddatavalid := i.avsRead
    avsReaddataReg := if i.avsRead then s.readDataMux i else s.avsReaddataReg
    vsSyncSh := shiftIn s.vsSyncSh i.vsWire
    shadowPtr := if s.vsRise then s.regFramePtr else s.shadowPtr }

/-- A Start command: a write to the DMA control register with bit 2 set. -/
def Inputs.start (i : Inputs) : Bool :=
  i.avsWrite && i.avsAddress == 1 && i.avsWritedata.getLsbD 2

/-- The start pulse answers a Start command one cycle later. -/
theorem step_dmaStartPulse (s : HdmiCsr) (i : Inputs) :
    (s.step i).dmaStartPulse = i.start := by
  have hone : (i.avsAddress == 1) = decide (i.avsAddress.toNat = 1) := by
    rw [Bool.eq_iff_iff, beq_iff_eq, decide_eq_true_eq, ← BitVec.toNat_inj]
    rfl
  simp only [step, Inputs.start, hone]
  cases i.avsWrite with
  | false => simp
  | true =>
      simp only [if_true, Bool.true_and, write]
      split <;> cases hb : i.avsWritedata.getLsbD 2 <;> simp_all

/-- A clear of the sticky flag: a write to the DMA control register with bit 30
set. -/
def Inputs.clearsDone (i : Inputs) : Bool :=
  i.avsWrite && i.avsAddress == 1 && i.avsWritedata.getLsbD 30

/-- The sticky flag after the edge: a clear wins over a completion. -/
theorem step_dmaDoneSticky_eq (s : HdmiCsr) (i : Inputs) :
    (s.step i).dmaDoneSticky = (!i.clearsDone && (i.dmaDoneIn || s.dmaDoneSticky)) := by
  have hone : (i.avsAddress == 1) = decide (i.avsAddress.toNat = 1) := by
    rw [Bool.eq_iff_iff, beq_iff_eq, decide_eq_true_eq, ← BitVec.toNat_inj]
    rfl
  simp only [step, Inputs.clearsDone, hone]
  cases i.avsWrite with
  | false => cases i.dmaDoneIn <;> simp
  | true =>
      simp only [if_true, Bool.true_and, write]
      split <;> cases hd : i.dmaDoneIn <;> cases hb : i.avsWritedata.getLsbD 30 <;> simp_all

/-- The sticky flag rises only on a completion. -/
theorem step_dmaDoneSticky {s : HdmiCsr} {i : Inputs}
    (h : (s.step i).dmaDoneSticky = true) :
    s.dmaDoneSticky = true ∨ i.dmaDoneIn = true := by
  rw [step_dmaDoneSticky_eq, Bool.and_eq_true, Bool.or_eq_true] at h
  exact h.2.symm

/-- Only a write to the LUT data register changes the LUT memory. -/
theorem step_lutMem (s : HdmiCsr) {i : Inputs}
    (h : (i.avsWrite && i.avsAddress == 3) = false) : (s.step i).lutMem = s.lutMem := by
  simp only [step]
  cases hw : i.avsWrite with
  | false => simp
  | true =>
      have haddr : i.avsAddress.toNat ≠ 3 := by
        rw [hw, Bool.true_and, beq_eq_false_iff_ne, ne_eq, ← BitVec.toNat_inj] at h
        exact h
      simp only [if_true, write]
      split <;> first | rfl | exact absurd ‹_› haddr

end HdmiCsr

/-- The registers written by the pixel clock. -/
structure HdmiPixel where
  hCnt : BitVec 12
  vCnt : BitVec 12
  visibleD1 : Bool
  hsD1 : Bool
  vsD1 : Bool
  hdmiD : BitVec 24
  hdmiDe : Bool
  hdmiHs : Bool
  hdmiVs : Bool
  vsToggle : Bool
deriving DecidableEq, Repr

namespace HdmiPixel

/-- The values set by `reset_n`. -/
def reset : HdmiPixel where
  hCnt := 0
  vCnt := 0
  visibleD1 := false
  hsD1 := false
  vsD1 := false
  hdmiD := 0
  hdmiDe := false
  hdmiHs := true
  hdmiVs := true
  vsToggle := false

variable (p : HdmiParams)

/-- `visible`: the counters are in the visible area. -/
def visible (s : HdmiPixel) : Bool :=
  s.hCnt.toNat < p.hVisible && s.vCnt.toNat < p.vVisible

/-- `hs_wire`. -/
def hsWire (s : HdmiPixel) : Bool :=
  s.hCnt.toNat ≥ p.hVisible + p.hFront &&
    s.hCnt.toNat < p.hVisible + p.hFront + p.hSync

/-- `vs_wire`. -/
def vsWire (s : HdmiPixel) : Bool :=
  s.vCnt.toNat ≥ p.vVisible + p.vFront &&
    s.vCnt.toNat < p.vVisible + p.vFront + p.vSync

/-- `stream_rd_en`: read the FIFO in the visible area in mode 8. -/
def streamRdEn (s : HdmiPixel) (c : HdmiCsr) : Bool :=
  s.visible p && s.vCnt.toNat < p.vVisible && c.mode == 8

/-- `gray`: the horizontal ramp. -/
def gray (s : HdmiPixel) : BitVec 8 :=
  if s.hCnt.toNat < p.hVisible then
    BitVec.ofNat 8 (s.hCnt.toNat * 255 / (p.hVisible - 1))
  else 0

/-- `grid_line`: every sixtieth column and row. -/
def gridLine (s : HdmiPixel) : Bool :=
  s.visible p && (s.hCnt.toNat % 60 == 0 || s.vCnt.toNat % 60 == 0)

/-- `bar_idx`: the eighth of the line. -/
def barIdx (s : HdmiPixel) : BitVec 3 :=
  if s.hCnt.toNat < 1 * p.hVisible / 8 then 0
  else if s.hCnt.toNat < 2 * p.hVisible / 8 then 1
  else if s.hCnt.toNat < 3 * p.hVisible / 8 then 2
  else if s.hCnt.toNat < 4 * p.hVisible / 8 then 3
  else if s.hCnt.toNat < 5 * p.hVisible / 8 then 4
  else if s.hCnt.toNat < 6 * p.hVisible / 8 then 5
  else if s.hCnt.toNat < 7 * p.hVisible / 8 then 6
  else 7

/-- `gray8_val = {bar_idx, 5'd0}`. -/
def gray8Val (s : HdmiPixel) : BitVec 8 :=
  s.barIdx p ++ 0#5

/-- `char_pixel`: the bit of the 64x64 character tile under the counters. -/
def charPixel (s : HdmiPixel) (c : HdmiCsr) : Bool :=
  let charRowIdx := s.vCnt.extractLsb' 2 4
  let charColIdx := s.hCnt.extractLsb' 2 4
  (c.charBitmap charRowIdx).getLsbD (15 - charColIdx.toNat)

/-- `char_color`. -/
def charColor (s : HdmiPixel) (c : HdmiCsr) : BitVec 24 :=
  if s.charPixel c then
    (s.hCnt.setWidth 8 + s.vCnt.setWidth 8) ++ s.hCnt.extractLsb' 2 8 ++
      s.vCnt.extractLsb' 2 8
  else 0

/-- `pre_gamma_d`: the pixel of the selected mode under the counters. -/
def preGammaD (s : HdmiPixel) (c : HdmiCsr) (streamDataIn : BitVec 24) : BitVec 24 :=
  match c.mode.toNat with
  | 0 => 0xFF0000
  | 1 => 0x00FF00
  | 2 => 0x0000FF
  | 3 => s.gray p ++ s.gray p ++ s.gray p
  | 4 => if s.gridLine p then 0xFFFFFF else 0
  | 5 => 0xFFFFFF
  | 6 => s.gray8Val p ++ s.gray8Val p ++ s.gray8Val p
  | 7 => s.charColor c
  | 8 => streamDataIn
  | _ => 0xFFFFFF

/-- `{gamma_r, gamma_g, gamma_b}`: the LUT applied channel by channel. -/
def gammaD (lutMem : BitVec 8 → BitVec 8) (d : BitVec 24) : BitVec 24 :=
  lutMem (d.extractLsb' 16 8) ++ lutMem (d.extractLsb' 8 8) ++ lutMem (d.extractLsb' 0 8)

/-- The output colour of a pixel: through the LUT when gamma is enabled. -/
def outputColor (gammaEn : Bool) (lutMem : BitVec 8 → BitVec 8) (d : BitVec 24) :
    BitVec 24 :=
  if gammaEn then gammaD lutMem d else d

/-- One `clk_pixel` edge of the pixel domain. -/
def step (s : HdmiPixel) (c : HdmiCsr) (streamDataIn : BitVec 24) : HdmiPixel where
  hCnt := if s.hCnt.toNat = p.hTotal - 1 then 0 else s.hCnt + 1
  vCnt :=
    if s.hCnt.toNat = p.hTotal - 1 then
      if s.vCnt.toNat = p.vTotal - 1 then 0 else s.vCnt + 1
    else s.vCnt
  visibleD1 := s.visible p
  hsD1 := s.hsWire p
  vsD1 := s.vsWire p
  hdmiHs := !s.hsD1
  hdmiVs := !s.vsD1
  hdmiDe := s.visibleD1
  vsToggle := if s.vsWire p && !s.vsD1 then !s.vsToggle else s.vsToggle
  hdmiD :=
    if s.visibleD1 then
      outputColor c.gammaEn c.lutMem (s.preGammaD p c streamDataIn)
    else 0

end HdmiPixel
end VideoProcessing
