import Mathlib.Data.BitVec
import VideoProcessing.Lib.Loop
import VideoProcessing.Video.StoredFrame

/-!
# From an image to the display

`img2raw.py` writes a picture of 960 by 540 pixels as bytes, `frame_loader` reads the file
to the frame buffer in DDR, and the video pipeline reads words.  How the picture was
resized is left out, as are the exits of the loader before it has read anything.

* `loaded_word`: word `960 * y + x` of the frame buffer is the pixel at `(x, y)`;
* `image_on_display`: what the display shows there.
-/

namespace VideoProcessing

open Lib

namespace FrameLoader

section Raw

/-- A pixel as `getpixel` returns it. -/
structure Rgb where
  r : BitVec 8
  g : BitVec 8
  b : BitVec 8

/-- `pixel_data`. -/
def Rgb.pixelData (p : Rgb) : List (BitVec 8) := [p.b, p.g, p.r, 0x00]

/-- `WIDTH`. -/
def imageWidth : Nat := 960

/-- `HEIGHT`. -/
def imageHeight : Nat := 540

/-- What `convert_image_to_raw` writes for the resized picture. -/
def convertImageToRaw (getpixel : Nat → Nat → Rgb) : List (BitVec 8) :=
  (List.range imageHeight).flatMap fun y =>
    (List.range imageWidth).flatMap fun x => (getpixel x y).pixelData

variable (getpixel : Nat → Nat → Rgb)

theorem length_line (y : Nat) :
    ((List.range imageWidth).flatMap fun x => (getpixel x y).pixelData).length = 4 * imageWidth :=
  length_flatMap_range (c := 4) (fun _ => rfl) imageWidth

/-- Where the bytes of a pixel are. -/
theorem getElem?_convertImageToRaw {x y j : Nat} (hx : x < imageWidth)
    (hy : y < imageHeight) (hj : j < 4) :
    (convertImageToRaw getpixel)[4 * (imageWidth * y + x) + j]? =
      (getpixel x y).pixelData[j]? := by
  have hsplit : 4 * (imageWidth * y + x) + j = 4 * imageWidth * y + (4 * x + j) := by
    rw [Nat.mul_add, Nat.mul_assoc, Nat.add_assoc]
  have hline : 4 * x + j < 4 * imageWidth := by omega
  rw [hsplit, convertImageToRaw, getElem?_flatMap_range (length_line getpixel) hy hline]
  exact getElem?_flatMap_range (f := fun x => (getpixel x y).pixelData) (c := 4) (fun _ => rfl)
    hx hj

end Raw

section Load

/-- `FRAME_BUFFER_BASE`. -/
def frameBufferBase : BitVec 32 := 0x30000000

/-- `FRAME_SIZE`. -/
def frameSize : Nat := 1280 * 720 * 4

/-- `fread(ptr, 1, size, file)` into memory by bytes. -/
def fread (ptr : BitVec 32) (size : Nat) (file : List (BitVec 8))
    (mem : BitVec 32 → BitVec 8) :
    BitVec 32 → BitVec 8 :=
  forLoop (min size file.length)
    (fun i mem => Function.update mem (ptr + BitVec.ofNat 32 i) (file.getD i 0)) mem

/-- `main` of `frame_loader`. -/
def loadFrame (file : List (BitVec 8)) (mem : BitVec 32 → BitVec 8) :
    BitVec 32 → BitVec 8 :=
  fread frameBufferBase frameSize file mem

/-- The word that the memory controller returns for an address. -/
def wordAt (mem : BitVec 32 → BitVec 8) (a : BitVec 32) : BitVec 32 :=
  mem (a + 3) ++ mem (a + 2) ++ mem (a + 1) ++ mem a

variable {file : List (BitVec 8)} {mem : BitVec 32 → BitVec 8} {ptr : BitVec 32}
  {size i : Nat}

/-- The bytes that are read. -/
theorem fread_byte (hsize : size ≤ 2 ^ 32) (hi : i < size) {v : BitVec 8}
    (hv : file[i]? = some v) : fread ptr size file mem (ptr + BitVec.ofNat 32 i) = v := by
  have hlen : i < file.length := (List.getElem?_eq_some_iff.1 hv).1
  have hall : ∀ k, k < min size file.length →
      fread ptr size file mem (ptr + BitVec.ofNat 32 k) = file.getD k 0 := by
    refine forLoop_invariant
      (fun n (mem : BitVec 32 → BitVec 8) =>
        ∀ k, k < n → mem (ptr + BitVec.ofNat 32 k) = file.getD k 0)
      (fun k hk => absurd hk (Nat.not_lt_zero k)) ?_
    intro n mem hn hread k hk
    by_cases heq : k = n
    · rw [heq, Function.update_self]
    · have hne : ptr + BitVec.ofNat 32 k ≠ ptr + BitVec.ofNat 32 n := by
        intro hsame
        have hnat := congrArg BitVec.toNat (add_left_cancel hsame)
        rw [BitVec.toNat_ofNat, BitVec.toNat_ofNat] at hnat
        omega
      rw [Function.update_of_ne hne]
      exact hread k (by omega)
  rw [hall i (by omega), List.getD_eq_getElem?_getD, hv]
  rfl

/-- The words of the frame buffer are the pixels. -/
theorem loaded_word (getpixel : Nat → Nat → Rgb) (mem : BitVec 32 → BitVec 8) {x y : Nat}
    (hx : x < imageWidth) (hy : y < imageHeight) :
    wordAt (loadFrame (convertImageToRaw getpixel) mem)
        (frameBufferBase + 4 * BitVec.ofNat 32 (imageWidth * y + x)) =
      0#8 ++ (getpixel x y).r ++ (getpixel x y).g ++ (getpixel x y).b := by
  have hk : imageWidth * y + x < 518400 := by
    change 960 * y + x < 518400
    change x < 960 at hx
    change y < 540 at hy
    omega
  have hpixel := fun j (hj : j < 4) => getElem?_convertImageToRaw getpixel hx hy hj
  generalize imageWidth * y + x = k at hk hpixel
  have hsize : frameSize = 3686400 := rfl
  have hbyte : ∀ j v, j < 4 → (getpixel x y).pixelData[j]? = some v →
      loadFrame (convertImageToRaw getpixel) mem
        (frameBufferBase + 4 * BitVec.ofNat 32 k + BitVec.ofNat 32 j) = v := by
    intro j v hj hv
    have haddr : frameBufferBase + 4 * BitVec.ofNat 32 k + BitVec.ofNat 32 j =
        frameBufferBase + BitVec.ofNat 32 (4 * k + j) := by
      rw [BitVec.ofNat_add, BitVec.ofNat_mul, BitVec.add_assoc]
      rfl
    rw [haddr]
    exact fread_byte (by omega) (by omega) ((hpixel j hj).trans hv)
  have h0 := hbyte 0 _ (by decide) rfl
  rw [BitVec.add_zero] at h0
  rw [wordAt, h0]
  exact congrArg₂ (· ++ ·) (congrArg₂ (· ++ ·) (congrArg₂ (· ++ ·)
    (hbyte 3 _ (by decide) rfl) (hbyte 2 _ (by decide) rfl)) (hbyte 1 _ (by decide) rfl)) rfl

end Load

section Display

open VideoPipeline (latched Steady ShownAt)

/-- The channels of a pixel in its word. -/
theorem channels_pixel (r g b : BitVec 8) :
    (0#8 ++ r ++ g ++ b).extractLsb' 16 8 = r ∧ (0#8 ++ r ++ g ++ b).extractLsb' 8 8 = g ∧
      (0#8 ++ r ++ g ++ b).extractLsb' 0 8 = b ∧
      (0#8 ++ r ++ g ++ b).extractLsb' 0 24 = r ++ g ++ b := by
  refine ⟨?_, ?_, ?_, ?_⟩ <;> ext i hi <;>
    simp only [BitVec.getElem_extractLsb', BitVec.getLsbD_append] <;>
    grind

/-- **The picture is on the display.**  Take any steady run of the video pipeline whose
frames start at the frame buffer, while the slave returns what the loader left there.
`hdmi_de` is high exactly at the visible positions, and from the first trigger on the
colour at `(x, y)` is that of the pixel of the picture at `(x, y)`, channel by channel
through the table when gamma is on. -/
theorem image_on_display (getpixel : Nat → Nat → Rgb) (mem : BitVec 32 → BitVec 8)
    (g : Bool) (lut : BitVec 8 → BitVec 8) (mem0 : BitVec 9 → BitVec 32) (csr0 : HdmiCsr)
    (es : List VideoPipeline.Event)
    (hok : Guarded (Steady fun c => c.gammaEn = g ∧ c.lutMem = lut) VideoPipeline.step
      (VideoPipeline.init mem0 csr0) es)
    (hptr : ∀ a ∈ latched (log VideoPipeline.step (VideoPipeline.init mem0 csr0) es),
      a = frameBufferBase)
    (hslave : ∀ w ∈ DmaBus.pushed (VideoPipeline.busLog
        (log VideoPipeline.step (VideoPipeline.init mem0 csr0) es)),
      ∀ k, k < 518400 → w.1 = frameBufferBase + 4 * BitVec.ofNat 32 k →
        w.2 = wordAt (loadFrame (convertImageToRaw getpixel) mem) w.1) :
    let s := run VideoPipeline.step (VideoPipeline.init mem0 csr0) es
    let l := log VideoPipeline.step (VideoPipeline.init mem0 csr0) es
    (s.pixel.hdmiDe = true ↔ ∃ x y, s.ShownAt x y) ∧
      (0 < (latched l).length → ∀ x y, s.ShownAt x y →
        s.pixel.hdmiD =
          if g then lut (getpixel x y).r ++ lut (getpixel x y).g ++ lut (getpixel x y).b
          else (getpixel x y).r ++ (getpixel x y).g ++ (getpixel x y).b) := by
  intro s l
  obtain ⟨hsynced, hwired, hdisplaying⟩ := VideoPipeline.displaying_run mem0 csr0 hok
  refine ⟨hsynced.hdmiDe_iff, fun hpos x y hat => ?_⟩
  have hserves : VideoPipeline.Serves frameBufferBase
      (fun k => wordAt (loadFrame (convertImageToRaw getpixel) mem)
        (frameBufferBase + 4 * BitVec.ofNat 32 k)) l := by
    refine ⟨hptr, fun w hw k hk ha => ?_⟩
    rw [hslave w hw k hk ha, ha]
  have hword :=
    loaded_word getpixel mem (hat.x_lt : x < imageWidth) (hat.y_lt : y < imageHeight)
  obtain ⟨c, -, ⟨hg, hlut⟩, hout⟩ := hdisplaying.shown hwired hserves hpos hat
  have hcolor : s.pixel.hdmiD = HdmiPixel.outputColor g lut
      ((wordAt (loadFrame (convertImageToRaw getpixel) mem) (frameBufferBase +
        4 * BitVec.ofNat 32 (imageWidth * y + x))).setWidth 24) := by
    rw [hout, hg, hlut]
    rfl
  obtain ⟨hr, hgreen, hb, hall⟩ :=
    channels_pixel (getpixel x y).r (getpixel x y).g (getpixel x y).b
  rw [hcolor, hword, VideoPipeline.outputColor_word, hr, hgreen, hb, hall]

/-- A picture of three ramps. -/
def ramps (x _ : Nat) : Rgb :=
  ⟨BitVec.ofNat 8 x, BitVec.ofNat 8 (x + 100), BitVec.ofNat 8 (2 * x + 50)⟩

/-- Two pixels of the first line, with gamma on. -/
theorem image_on_display_ramps :
    let s0 := VideoPipeline.init (fun _ => 0) VideoPipeline.rampCsr0
    (run VideoPipeline.step s0 (VideoPipeline.rampRun 0)).pixel.hdmiD =
        ~~~(ramps 0 0).r ++ ~~~(ramps 0 0).g ++ ~~~(ramps 0 0).b ∧
      (run VideoPipeline.step s0 (VideoPipeline.rampRun 60)).pixel.hdmiD =
        ~~~(ramps 60 0).r ++ ~~~(ramps 60 0).g ++ ~~~(ramps 60 0).b := by
  have hslave : ∀ x ∈ [0, 60], ∀ w ∈ DmaBus.pushed (VideoPipeline.busLog (log VideoPipeline.step
        (VideoPipeline.init (fun _ => 0) VideoPipeline.rampCsr0) (VideoPipeline.rampRun x))),
      w.2 = wordAt (loadFrame (convertImageToRaw ramps) fun _ => 0) w.1 := by
    intro x hx w hw
    rw [VideoPipeline.pushed_rampRun hx, List.mem_map] at hw
    obtain ⟨k, hk, rfl⟩ := hw
    rw [List.mem_range] at hk
    have hword := loaded_word ramps (fun _ => 0) (x := k) (y := 0)
      (hk.trans (by decide)) (by decide)
    rw [Nat.mul_zero, Nat.zero_add] at hword
    exact hword.symm
  have hshow := fun (x : Nat) (hx : x ∈ [0, 60]) =>
    (image_on_display ramps (fun _ => 0) true (fun v => ~~~v) (fun _ => 0)
      VideoPipeline.rampCsr0 (VideoPipeline.rampRun x) (VideoPipeline.steady_rampRun hx)
      (by
        intro a ha
        rw [VideoPipeline.latched_rampRun hx, List.mem_singleton] at ha
        exact ha)
      fun w hw _ _ _ => hslave x hx w hw).2 (by
        rw [VideoPipeline.latched_rampRun hx]
        exact Nat.zero_lt_one) x 0 (VideoPipeline.shown_rampRun hx).1
  exact ⟨hshow 0 (by decide), hshow 60 (by decide)⟩

end Display

end FrameLoader
end VideoProcessing
