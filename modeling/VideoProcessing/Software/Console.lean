import VideoProcessing.Software.Board
import VideoProcessing.Software.HdmiConfig
import VideoProcessing.Software.HdmiControl

/-!
# The console of `video_app2`

`main` sets the window and then waits for one character after another: in the main
menu of `run_interactive_menu` or in one of the submenus of `hdmi_control.c`.  A
`Menu` is the place of the program between two characters with its static variables,
and `onKey` is the program that runs after a character, up to the next one.

What is printed is left out, and with it the two words of the colour bars that are read
back to be printed.  The entries of the three gamma tables are computed in floating point;
they are a parameter.
-/

namespace VideoProcessing

open Lib Nios

/-- The entries of the tables as `load_gamma_table(2.2f)`, `load_srgb_gamma_table` and
`load_inverse_gamma_table` compute them. -/
structure GammaTables where
  gamma22 : Nat → BitVec 8
  srgb : Nat → BitVec 8
  inverse : Nat → BitVec 8

namespace Console

def regPatternMode : BitVec 3 := 0
def regDmaCtrl : BitVec 3 := 1
def regLutAddr : BitVec 3 := 2
def regLutData : BitVec 3 := 3
def regBitmapAddr : BitVec 3 := 4
def regBitmapData : BitVec 3 := 5

/-- The code of a character. -/
def key (c : Char) : BitVec 8 := BitVec.ofNat 8 c.toNat

section Control

/-- `set_gamma_enable`. -/
def setGammaEnable (enable : Int) : Nios Unit := do
  let ctrl ← iordHdmi regDmaCtrl
  iowrHdmi regDmaCtrl (VideoProcessing.setGammaEnable enable ctrl)

/-- `dma_start_single`. -/
def dmaStartSingle : Nios Unit := do
  let ctrl ← iordHdmi regDmaCtrl
  iowrHdmi regDmaCtrl (VideoProcessing.dmaStartSingle ctrl)

/-- `dma_set_continuous`. -/
def dmaSetContinuous (enable : Int) : Nios Unit := do
  let ctrl ← iordHdmi regDmaCtrl
  iowrHdmi regDmaCtrl (VideoProcessing.dmaSetContinuous enable ctrl)

/-- A table of `n` entries is loaded through an address and a data register. -/
def loadTable (addr data : BitVec 3) (n : Nat) (val : Nat → BitVec 32) : Nios Unit :=
  Prog.upTo n fun i => do
    iowrHdmi addr (BitVec.ofNat 32 i)
    iowrHdmi data (val i)

variable (t : GammaTables)

/-- `load_gamma_table(2.2f)`. -/
def loadGammaTable : Nios Unit :=
  loadTable regLutAddr regLutData 256 fun i => (t.gamma22 i).setWidth 32

/-- `load_srgb_gamma_table`. -/
def loadSrgbGammaTable : Nios Unit :=
  loadTable regLutAddr regLutData 256 fun i => (t.srgb i).setWidth 32

/-- `load_inverse_gamma_table`. -/
def loadInverseGammaTable : Nios Unit :=
  loadTable regLutAddr regLutData 256 fun i => (t.inverse i).setWidth 32

/-- `bitmap` of `load_char_bitmap`. -/
def bitmap : List (BitVec 16) :=
  [0x3C60, 0x0060, 0x7E60, 0x0660, 0x0E60, 0x1C70, 0x3E60, 0x7760, 0xE360, 0x0060, 0x0060,
    0x0060, 0x0000, 0x0000, 0x0000, 0x0000]

/-- `load_char_bitmap`. -/
def loadCharBitmap : Nios Unit :=
  loadTable regBitmapAddr regBitmapData 16 fun i => (bitmap.getD i 0).setWidth 32

end Control

section ColorBars

/-- `width` and `height` of `generate_color_bar_pattern`. -/
def width : Nat := 960
def height : Nat := 540

/-- `bar_width`. -/
def barWidth : Nat := width / 8

/-- `colors`. -/
def colors : List (BitVec 32) :=
  [0xFFFFFF, 0xFFFF00, 0x00FFFF, 0x00FF00, 0xFF00FF, 0xFF0000, 0x0000FF, 0x000000]

/-- The colour of column `x`. -/
def barColor (x : Nat) : BitVec 32 :=
  let colorIdx := x / barWidth
  colors.getD (if colorIdx > 7 then 7 else colorIdx) 0

/-- `generate_color_bar_pattern`. -/
def generateColorBarPattern : Nios Unit :=
  Prog.upTo height fun y =>
    Prog.upTo width fun x =>
      store (index ddr3WindowBase (y * width + x)) (barColor x)

end ColorBars

/-- Where the program waits for a character. -/
inductive Screen
  | main
  | gamma
  | pattern
  | dma
  | quit
deriving DecidableEq

/-- The screen and the static variables `gamma_en`, `dma_mode_active` and `cont_active`. -/
structure Menu where
  screen : Screen
  gammaEn : Bool
  dmaModeActive : Bool
  contActive : Bool
deriving DecidableEq

/-- `print_dma_status`: the word read is only printed. -/
def printDmaStatus : Nios Unit := do
  let _ ← iordHdmi regDmaCtrl
  pure ()

/-- The head of the loop of `run_dma_debug_submenu`. -/
def dmaPrompt (m : Menu) : Nios Menu := do
  let ctrl ← iordHdmi regDmaCtrl
  let mode ← iordHdmi regPatternMode
  pure { m with
    screen := .dma
    dmaModeActive := mode == 8
    contActive := ctrl &&& asDmaContMsk ≠ 0 }

/-- The switch of `run_interactive_menu`; codes below the blank are skipped, with `char`
signed. -/
def onMain (m : Menu) (c : BitVec 8) : Nios Menu :=
  if c.slt (key ' ') then pure m
  else if c = key '1' then do
    iowrSpanExtender 0 0x20000000
    let _ ← Prog.access .ocmToDdrTest
    iowrSpanExtender 0 0x30000000
    pure m
  else if c = key '2' then do
    iowrSpanExtender 0 0x20000000
    let _ ← Prog.access .ddrToDdrTest
    iowrSpanExtender 0 0x30000000
    pure m
  else if c = key '3' then do
    let _ ← hdmiInit
    pure m
  else if c = key '4' then do
    generateColorBarPattern
    pure m
  else if c = key '5' then pure { m with screen := .pattern }
  else if c = key '8' then dmaPrompt m
  else if c = key '6' then pure { m with screen := .gamma }
  else if c = key 'C' ∨ c = key 'c' then do
    loadCharBitmap
    pure m
  else if c = key 'r' then do
    iowrHdmi regPatternMode 0
    pure m
  else if c = key 'q' then pure { m with screen := .quit }
  else pure m

/-- The loop of `run_gamma_submenu`. -/
def onGamma (t : GammaTables) (m : Menu) (c : BitVec 8) : Nios Menu :=
  if c = key 'b' then pure { m with screen := .main }
  else if c = key '1' then do
    let gammaEn := !m.gammaEn
    setGammaEnable gammaEn.toInt
    pure { m with gammaEn := gammaEn }
  else if c = key '2' then do
    loadGammaTable t
    pure m
  else if c = key '3' then do
    loadSrgbGammaTable t
    pure m
  else if c = key '4' then do
    loadInverseGammaTable t
    pure m
  else pure m

/-- The loop of `change_rtl_pattern`: `c - '0'` is computed as an unsigned int. -/
def onPattern (m : Menu) (c : BitVec 8) : Nios Menu :=
  if c = key 'b' then pure { m with screen := .main }
  else
    let mode := c.signExtend 32 - (key '0').signExtend 32
    if mode ≤ 7 then do
      iowrHdmi regPatternMode mode
      pure m
    else pure m

/-- The loop of `run_dma_debug_submenu`. -/
def onDma (m : Menu) (c : BitVec 8) : Nios Menu :=
  if c = key 'b' then pure { m with screen := .main }
  else if c = key '1' then do
    let dmaModeActive := !m.dmaModeActive
    iowrHdmi regPatternMode (if dmaModeActive then 8 else 0)
    dmaPrompt m
  else if c = key '2' then do
    let contActive := !m.contActive
    dmaSetContinuous contActive.toInt
    dmaPrompt m
  else if c = key '3' then do
    dmaStartSingle
    dmaPrompt m
  else if c = key '4' then do
    printDmaStatus
    dmaPrompt m
  else dmaPrompt m

/-- What runs after a character; after `q` the program has ended. -/
def onKey (t : GammaTables) (m : Menu) : Option (BitVec 8 → Nios Menu) :=
  match m.screen with
  | .main => some (onMain m)
  | .gamma => some (onGamma t m)
  | .pattern => some (onPattern m)
  | .dma => some (onDma m)
  | .quit => none

/-- `main`, up to the first character. -/
def main : Nios Menu := do
  iowrSpanExtender 0 0x30000000
  iowrSpanExtender 4 0
  let _ ← Prog.access .iordPllLocked
  pure ⟨.main, false, false, false⟩

end Console
end VideoProcessing
