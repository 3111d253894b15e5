import Mathlib.Data.Nat.Count
import VideoProcessing.Burst.Scaler
import VideoProcessing.Lib.Loop
import VideoProcessing.Software.Board

/-!
# The DMA self-tests

`run_ocm_to_ddr_test` and `run_ddr_to_ddr_test` as the menu calls them, with an
engine that may do anything to memory while one of its registers is accessed.  Each
test prepares its buffers through the window, programs a transfer to a physical
address, waits for Done and checks words of the window.  The cycle counts and the
rates computed from them are printed and used for nothing else; they are left out,
as is the second argument `ddr_base`, which neither test reads.

* `runOcmToDdrTest_returns`, `runDdrToDdrTest_returns`: with an engine that sets Done
  both tests return;
* `ocmReport_eq_success_iff`, `ddrReport_eq_success_iff`: what SUCCESS says;
* `ocm_success_iff_untouched`, `ddr_failure_of_untouched`: an engine passes the
  first test if and only if it leaves the checked words alone, and then fails the
  second;
* `success_sound_iff`: when SUCCESS says something about the programmed
  destination.
-/

namespace VideoProcessing

open Lib Pipeline

variable {σ : Type}

namespace SelfTest

/-- `OCM_TEST_WORDS`. -/
def ocmTestWords : Nat := 1024

/-- `DDR_TEST_WORDS`. -/
def ddrTestWords : Nat := 256 * 1024

def regCtrl : BitVec 32 := 0 * 4
def regStatus : BitVec 32 := 1 * 4
def regSrcAddr : BitVec 32 := 2 * 4
def regDstAddr : BitVec 32 := 3 * 4
def regLen : BitVec 32 := 4 * 4
def regRdBurst : BitVec 32 := 5 * 4
def regWrBurst : BitVec 32 := 6 * 4
def regCoeff : BitVec 32 := 7 * 4

/-- `ddr_phys_base`, in both tests. -/
def ddrPhysBase : BitVec 32 := 0x30000000

/-- The last line of a test. -/
inductive Report
  | success
  | failure (errors : Nat)
deriving DecidableEq

/-- `while (!(IORD_32DIRECT(csr_base, REG_STATUS) & 1));`, for at most so many
reads. -/
def waitDone (e : DmaEngine σ) : Nat → Board σ → Option (Board σ)
  | 0, _ => none
  | fuel + 1, b =>
      let r := b.iord32Direct e regStatus
      if r.1 &&& 1 = 0 then waitDone e fuel r.2 else some r.2

/-- Register writes, the last of which starts the engine, up to the clearing of
Done. -/
def transfer (e : DmaEngine σ) (fuel : Nat) (ws : List (BitVec 32 × BitVec 32))
    (b : Board σ) :
    Option (Board σ) :=
  (waitDone e fuel (ws.foldl (fun b w => b.iowr32Direct e w.1 w.2) b)).map
    fun b => b.iowr32Direct e regStatus 1

section Ocm

/-- `ocm_src_buffer`, which the linker places in on-chip memory. -/
structure OcmBuffer where
  addr : BitVec 32
  fits : addr.toNat + 4 * ocmTestWords ≤ ocmSpan
  aligned : 32 ∣ addr.toNat

/-- The word that the test puts at `src_ptr[i]` and expects at `dst_ptr[i]`. -/
def ocmWord (i : Nat) : BitVec 32 := BitVec.ofNat 32 i + 0x11110000

/-- The source is filled, the destination cleared. -/
def ocmFill (buf : OcmBuffer) (b : Board σ) : Board σ :=
  forLoop ocmTestWords
    (fun i b => (b.store (index buf.addr i) (ocmWord i)).store (index ddr3WindowBase i) 0) b

/-- One copy in software. -/
def ocmSwPass (buf : OcmBuffer) (b : Board σ) : Board σ :=
  forLoop ocmTestWords
    (fun i b => b.store (index ddr3WindowBase i) (b.load (index buf.addr i))) b

/-- The copy in software, a hundred times. -/
def ocmSwCopy (buf : OcmBuffer) (b : Board σ) : Board σ :=
  forLoop 100 (fun _ => ocmSwPass buf) b

/-- What the test has done when it starts the engine. -/
def ocmPrepare (buf : OcmBuffer) (b : Board σ) : Board σ := ocmSwCopy buf (ocmFill buf b)

/-- The registers of one transfer. -/
def ocmProgram (buf : OcmBuffer) : List (BitVec 32 × BitVec 32) :=
  [(regSrcAddr, buf.addr &&& 0x7FFFFFFF), (regDstAddr, ddrPhysBase),
    (regLen, BitVec.ofNat 32 (ocmTestWords * 4)), (regRdBurst, 32), (regWrBurst, 32), (regCtrl, 1)]

/-- The copy in hardware, a hundred times. -/
def ocmHwCopy (e : DmaEngine σ) (fuel : Nat) (buf : OcmBuffer) (b : Board σ) :
    Option (Board σ) :=
  forLoopM 100 (fun _ => transfer e fuel (ocmProgram buf)) b

/-- The check of `dst_ptr`. -/
def ocmReport (b : Board σ) : Report :=
  let errors :=
    Nat.count (fun i => b.load (index ddr3WindowBase i) ≠ ocmWord i) ocmTestWords
  if errors = 0 then .success else .failure errors

/-- `run_ocm_to_ddr_test`; the engine is the one at `csr_base`. -/
def runOcmToDdrTest (e : DmaEngine σ) (fuel : Nat) (buf : OcmBuffer) (b : Board σ) :
    Option (Report × Board σ) :=
  (ocmHwCopy e fuel buf (ocmPrepare buf b)).map fun b => (ocmReport b, b)

end Ocm

section Ddr

def srcOffset : BitVec 32 := 0x01000000
def dstSwOffset : BitVec 32 := 0x02000000
def dstHwOffset : BitVec 32 := 0x03000000

def srcPtr : BitVec 32 := ddr3WindowBase + srcOffset
def dstSwPtr : BitVec 32 := ddr3WindowBase + dstSwOffset
def dstHwPtr : BitVec 32 := ddr3WindowBase + dstHwOffset

/-- `test_coeff`. -/
def testCoeff : BitVec 32 := 800

/-- The source is filled, both destinations are cleared. -/
def ddrFill (b : Board σ) : Board σ :=
  forLoop ddrTestWords
    (fun i b => ((b.store (index srcPtr i) (BitVec.ofNat 32 i + 1023)).store
      (index dstSwPtr i) 0).store (index dstHwPtr i) 0) b

/-- The scaling in software. -/
def ddrSwCopy (b : Board σ) : Board σ :=
  forLoop ddrTestWords
    (fun i b => b.store (index dstSwPtr i) (swScaled testCoeff (b.load (index srcPtr i)))) b

/-- What the test has done when it programs the engine. -/
def ddrPrepare (b : Board σ) : Board σ := ddrSwCopy (ddrFill b)

/-- The registers of the transfer. -/
def ddrProgram : List (BitVec 32 × BitVec 32) :=
  [(regRdBurst, 256), (regWrBurst, 256), (regCoeff, testCoeff),
    (regSrcAddr, ddrPhysBase + srcOffset), (regDstAddr, ddrPhysBase + dstHwOffset),
    (regLen, BitVec.ofNat 32 (ddrTestWords * 4)), (regCtrl, 1)]

/-- `diff > 1 || diff < -1`; the subtraction wraps, as the compiled code does. -/
def ddrError (hw sw : BitVec 32) : Prop := 1 < (hw - sw).toInt ∨ (hw - sw).toInt < -1

instance (hw sw : BitVec 32) : Decidable (ddrError hw sw) :=
  inferInstanceAs (Decidable (_ ∨ _))

/-- The check of the first 1024 words of `dst_hw_ptr`. -/
def ddrReport (b : Board σ) : Report :=
  let errors := Nat.count
    (fun i => ddrError (b.load (index dstHwPtr i)) (b.load (index dstSwPtr i))) 1024
  if errors = 0 then .success else .failure errors

/-- `run_ddr_to_ddr_test`; the engine is the one at `csr_base`. -/
def runDdrToDdrTest (e : DmaEngine σ) (fuel : Nat) (b : Board σ) :
    Option (Report × Board σ) :=
  (transfer e fuel ddrProgram (ddrPrepare b)).map fun b => (ddrReport b, b)

end Ddr

section Menu

/-- Option 1 of `run_interactive_menu`: the window is switched for the test and
restored for video. -/
def menuOcm (e : DmaEngine σ) (fuel : Nat) (buf : OcmBuffer) (b : Board σ) :
    Option (Report × Board σ) :=
  (runOcmToDdrTest e fuel buf { b with window := 0x20000000 }).map
    fun r => (r.1, { r.2 with window := 0x30000000 })

/-- Option 2 of `run_interactive_menu`. -/
def menuDdr (e : DmaEngine σ) (fuel : Nat) (b : Board σ) : Option (Report × Board σ) :=
  (runDdrToDdrTest e fuel { b with window := 0x20000000 }).map
    fun r => (r.1, { r.2 with window := 0x30000000 })

end Menu

section Returns

variable {e : DmaEngine σ} {b b' : Board σ}

/-- An engine that sets Done some time after it is started, whatever its state. -/
def SetsDone (e : DmaEngine σ) : Prop :=
  ∀ b : Board σ, ∃ fuel b', waitDone e fuel (b.iowr32Direct e regCtrl 1) = some b'

/-- More reads of the status change nothing once Done was seen. -/
theorem waitDone_mono {fuel fuel' : Nat} (hle : fuel ≤ fuel')
    (h : waitDone e fuel b = some b') :
    waitDone e fuel' b = some b' := by
  induction fuel generalizing fuel' b with
  | zero => exact absurd h (by simp [waitDone])
  | succ fuel ih =>
      cases fuel' with
      | zero => exact absurd hle (Nat.not_succ_le_zero fuel)
      | succ fuel' =>
          rw [waitDone] at h ⊢
          split at h
          · next hbit =>
              rw [if_pos hbit]
              exact ih (Nat.le_of_succ_le_succ hle) h
          · next hbit =>
              rw [if_neg hbit]
              exact h

theorem transfer_mono {ws : List (BitVec 32 × BitVec 32)} {fuel fuel' : Nat}
    (hle : fuel ≤ fuel') (h : transfer e fuel ws b = some b') :
    transfer e fuel' ws b = some b' := by
  obtain ⟨t, ht, heq⟩ := Option.map_eq_some_iff.1 h
  exact Option.map_eq_some_iff.2 ⟨t, waitDone_mono hle ht, heq⟩

/-- Such an engine ends every transfer. -/
theorem SetsDone.transfer (h : SetsDone e) (ws : List (BitVec 32 × BitVec 32))
    (b : Board σ) :
    ∃ fuel b', transfer e fuel (ws ++ [(regCtrl, 1)]) b = some b' := by
  obtain ⟨fuel, t, ht⟩ := h (ws.foldl (fun b w => b.iowr32Direct e w.1 w.2) b)
  refine ⟨fuel, _, Option.map_eq_some_iff.2 ⟨t, ?_, rfl⟩⟩
  rw [List.foldl_append]
  exact ht

/-- The first test returns. -/
theorem runOcmToDdrTest_returns (h : SetsDone e) (buf : OcmBuffer) (b : Board σ) :
    ∃ fuel r b', runOcmToDdrTest e fuel buf b = some (r, b') := by
  have hone : ∀ b : Board σ, ∃ fuel b', transfer e fuel (ocmProgram buf) b = some b' :=
    h.transfer ((ocmProgram buf).take 5)
  obtain ⟨fuel, b', hcopy⟩ := forLoopM_returns (fun fuel _ => transfer e fuel (ocmProgram buf))
    (fun _ _ _ _ _ hle => transfer_mono hle) (fun _ => hone) 100 (ocmPrepare buf b)
  exact ⟨fuel, ocmReport b', b', Option.map_eq_some_iff.2 ⟨b', hcopy, rfl⟩⟩

/-- The second test returns. -/
theorem runDdrToDdrTest_returns (h : SetsDone e) (b : Board σ) :
    ∃ fuel r b', runDdrToDdrTest e fuel b = some (r, b') := by
  obtain ⟨fuel, b', htransfer⟩ := h.transfer (ddrProgram.take 6) (ddrPrepare b)
  exact ⟨fuel, ddrReport b', b', Option.map_eq_some_iff.2 ⟨b', htransfer, rfl⟩⟩

end Returns

section OcmPrepared

variable {buf : OcmBuffer} {b t : Board σ} {n : Nat}

/-- The source buffer lies in on-chip memory. -/
theorem OcmBuffer.index_lt (buf : OcmBuffer) {i : Nat} (hi : i < ocmTestWords) :
    (index buf.addr i).toNat < ocmSpan := by
  have hfits := buf.fits
  rw [ocmTestWords] at hi hfits
  rw [ocmSpan] at hfits ⊢
  rw [index, BitVec.toNat_add, BitVec.toNat_ofNat]
  omega

/-- The window of `t` begins with the first `n` expected words, and DDR is that of `b`
outside the buffer. -/
structure OcmWindow (b t : Board σ) (n : Nat) : Prop where
  window : t.window = b.window
  done : ∀ i, i < n → t.windowWord i = ocmWord i
  rest : ∀ w, ocmTestWords ≤ (w - wordOf b.window).toNat → t.mem.ddr w = b.mem.ddr w

/-- The source buffer holds its first `n` words. -/
def OcmFilled (buf : OcmBuffer) (b : Board σ) (n : Nat) : Prop :=
  ∀ i, i < n → b.mem.ocm (wordOf (index buf.addr i)) = ocmWord i

/-- The next expected word. -/
theorem OcmWindow.store (h : OcmWindow b t n) (hn : n < ocmTestWords) :
    OcmWindow b (t.store (index ddr3WindowBase n) (ocmWord n)) (n + 1) := by
  have hN : ocmTestWords = 1024 := rfl
  refine ⟨by simpa using h.window, ?_, ?_⟩
  · intro i hi
    rw [t.windowWord_store_window (by omega) (by omega)]
    split
    · next heq => rw [heq]
    · next hne => exact h.done i (by omega)
  · intro w hw
    rw [t.ddr_store_window (by omega), h.window, if_neg (by omega)]
    exact h.rest w hw

theorem ocmFill_spec (buf : OcmBuffer) (b : Board σ) :
    OcmWindow b (ocmFill buf b) 0 ∧ OcmFilled buf (ocmFill buf b) ocmTestWords := by
  refine forLoop_invariant (fun n t => OcmWindow b t 0 ∧ OcmFilled buf t n)
    ⟨⟨rfl, fun i hi => absurd hi (Nat.not_lt_zero i), fun _ _ => rfl⟩,
      fun i hi => absurd hi (Nat.not_lt_zero i)⟩ ?_
  rintro n t hn ⟨hwindow, hfilled⟩
  have hN : ocmTestWords = 1024 := rfl
  have hspan := buf.index_lt hn
  refine ⟨⟨by simpa using hwindow.window, fun i hi => absurd hi (Nat.not_lt_zero i), ?_⟩,
    ?_⟩
  · intro w hw
    rw [Board.ddr_store_window _ (by omega), Board.window_store, hwindow.window,
      if_neg (by omega), Board.ddr_store_ocm _ hspan]
    exact hwindow.rest w hw
  · intro i hi
    rw [Board.ocm_store_window _ (by omega),
      Board.ocm_store_ocm _ (by omega) (by omega) hspan]
    split
    · next heq => rw [heq]
    · next hne => exact hfilled i (by omega)

/-- One copy, whatever the window held before. -/
theorem ocmSwPass_spec (hwindow : OcmWindow b t 0)
    (hfilled : OcmFilled buf t ocmTestWords) :
    OcmWindow b (ocmSwPass buf t) ocmTestWords ∧
      OcmFilled buf (ocmSwPass buf t) ocmTestWords := by
  refine forLoop_invariant (fun n t => OcmWindow b t n ∧ OcmFilled buf t ocmTestWords)
    ⟨hwindow, hfilled⟩ ?_
  rintro n t hn ⟨hwindow, hfilled⟩
  rw [t.load_ocm (buf.index_lt hn), hfilled n hn]
  refine ⟨hwindow.store hn, ?_⟩
  intro i hi
  have hN : ocmTestWords = 1024 := rfl
  rw [t.ocm_store_window (by omega)]
  exact hfilled i hi

/-- The expected words are in the window and in the source buffer before the engine is
started. -/
theorem ocm_filled (buf : OcmBuffer) (b : Board σ) :
    OcmWindow b (ocmPrepare buf b) ocmTestWords ∧
      OcmFilled buf (ocmPrepare buf b) ocmTestWords := by
  have hcopies : OcmWindow b (ocmPrepare buf b) (if 0 < 100 then ocmTestWords else 0) ∧
      OcmFilled buf (ocmPrepare buf b) ocmTestWords := by
    refine forLoop_invariant (fun n t => OcmWindow b t (if 0 < n then ocmTestWords else 0) ∧
      OcmFilled buf t ocmTestWords) (ocmFill_spec buf b) ?_
    rintro n t - ⟨hwindow, hfilled⟩
    refine ocmSwPass_spec ⟨hwindow.window, fun i hi => absurd hi (Nat.not_lt_zero i), ?_⟩ hfilled
    exact hwindow.rest
  exact hcopies

/-- The expected words are in the window before the engine is started. -/
theorem ocm_prepared (buf : OcmBuffer) (b : Board σ) :
    OcmWindow b (ocmPrepare buf b) ocmTestWords :=
  (ocm_filled buf b).1

end OcmPrepared

section DdrPrepared

variable {b t : Board σ} {n : Nat}

theorem index_srcPtr (i : Nat) : index srcPtr i = index ddr3WindowBase (0x400000 + i) :=
  index_add ddr3WindowBase 0x400000 i

theorem index_dstSwPtr (i : Nat) :
    index dstSwPtr i = index ddr3WindowBase (0x800000 + i) :=
  index_add ddr3WindowBase 0x800000 i

theorem index_dstHwPtr (i : Nat) :
    index dstHwPtr i = index ddr3WindowBase (0xC00000 + i) :=
  index_add ddr3WindowBase 0xC00000 i

/-- The window of `t` holds the first `n` source words, with the checked destination
cleared, and DDR is that of `b` outside the window. -/
structure DdrFilled (b t : Board σ) (n : Nat) : Prop where
  window : t.window = b.window
  src : ∀ i, i < n → t.windowWord (0x400000 + i) = BitVec.ofNat 32 i + 1023
  hw : ∀ i, i < n → t.windowWord (0xC00000 + i) = 0
  rest : ∀ w, 2 ^ 25 ≤ (w - wordOf b.window).toNat → t.mem.ddr w = b.mem.ddr w

theorem ddrFill_spec (b : Board σ) : DdrFilled b (ddrFill b) ddrTestWords := by
  refine forLoop_invariant (fun n t => DdrFilled b t n)
    ⟨rfl, fun i hi => absurd hi (Nat.not_lt_zero i), fun i hi => absurd hi (Nat.not_lt_zero i),
      fun _ _ => rfl⟩ ?_
  intro n t hn h
  have hN : ddrTestWords = 262144 := rfl
  rw [index_srcPtr, index_dstSwPtr, index_dstHwPtr]
  refine ⟨by simpa using h.window, ?_, ?_, ?_⟩
  · intro i hi
    rw [Board.windowWord_store_window _ (by omega) (by omega), if_neg (by omega),
      Board.windowWord_store_window _ (by omega) (by omega), if_neg (by omega),
      Board.windowWord_store_window _ (by omega) (by omega)]
    split
    · next heq => rw [show i = n by omega]
    · next hne => exact h.src i (by omega)
  · intro i hi
    rw [Board.windowWord_store_window _ (by omega) (by omega)]
    split
    · rfl
    · next hne =>
        rw [Board.windowWord_store_window _ (by omega) (by omega), if_neg (by omega),
          Board.windowWord_store_window _ (by omega) (by omega), if_neg (by omega)]
        exact h.hw i (by omega)
  · intro w hw
    simp only [Board.ddr_store_window _ (show 0x400000 + n < 2 ^ 25 by omega),
      Board.ddr_store_window _ (show 0x800000 + n < 2 ^ 25 by omega),
      Board.ddr_store_window _ (show 0xC00000 + n < 2 ^ 25 by omega), Board.window_store,
      h.window]
    rw [if_neg (by omega), if_neg (by omega), if_neg (by omega)]
    exact h.rest w hw

/-- What the second test leaves to the engine: the source and its scaled copy are in
the window, and the checked destination is cleared. -/
theorem ddr_prepared (b : Board σ) :
    DdrFilled b (ddrPrepare b) ddrTestWords ∧
      ∀ i, i < ddrTestWords → (ddrPrepare b).windowWord (0x800000 + i) =
        swScaled testCoeff (BitVec.ofNat 32 i + 1023) := by
  refine forLoop_invariant (fun n t => DdrFilled b t ddrTestWords ∧
    ∀ i, i < n → t.windowWord (0x800000 + i) = swScaled testCoeff (BitVec.ofNat 32 i + 1023))
    ⟨ddrFill_spec b, fun i hi => absurd hi (Nat.not_lt_zero i)⟩ ?_
  rintro n t hn ⟨h, hsw⟩
  have hN : ddrTestWords = 262144 := rfl
  rw [index_srcPtr, index_dstSwPtr, t.load_window (by omega), h.src n hn]
  refine ⟨⟨by simpa using h.window, ?_, ?_, ?_⟩, ?_⟩
  · intro i hi
    rw [t.windowWord_store_window (by omega) (by omega), if_neg (by omega)]
    exact h.src i hi
  · intro i hi
    rw [t.windowWord_store_window (by omega) (by omega), if_neg (by omega)]
    exact h.hw i hi
  · intro w hw
    rw [t.ddr_store_window (by omega), h.window, if_neg (by omega)]
    exact h.rest w hw
  · intro i hi
    rw [t.windowWord_store_window (by omega) (by omega)]
    split
    · next heq => rw [show i = n by omega]
    · next hne => exact hsw i (by omega)

end DdrPrepared

section Reports

variable {e : DmaEngine σ} {fuel : Nat} {ws : List (BitVec 32 × BitVec 32)}
  {buf : OcmBuffer} {b b' : Board σ} {r : Report}

/-- SUCCESS of the first test: the expected words are in the window. -/
theorem ocmReport_eq_success_iff :
    ocmReport b = .success ↔ ∀ i, i < ocmTestWords → b.windowWord i = ocmWord i := by
  have hload : ∀ i, i < ocmTestWords →
      b.load (index ddr3WindowBase i) = b.windowWord i := by
    intro i hi
    rw [ocmTestWords] at hi
    exact b.load_window (by omega)
  have hcount := Nat.count_iff_forall_not (n := ocmTestWords)
    (p := fun i => b.load (index ddr3WindowBase i) ≠ ocmWord i)
  simp only [not_not] at hcount
  rw [ocmReport]
  constructor
  · intro hsuccess i hi
    by_cases hzero : Nat.count (fun i => b.load (index ddr3WindowBase i) ≠ ocmWord i)
        ocmTestWords = 0
    · rw [← hload i hi]
      exact hcount.1 hzero i hi
    · rw [if_neg hzero] at hsuccess
      exact absurd hsuccess (by simp)
  · intro hall
    exact if_pos (hcount.2 fun i hi => (hload i hi).trans (hall i hi))

/-- What the check of the second test reads. -/
theorem ddr_load {i : Nat} (hi : i < 1024) :
    b.load (index dstHwPtr i) = b.windowWord (0xC00000 + i) ∧
      b.load (index dstSwPtr i) = b.windowWord (0x800000 + i) := by
  rw [index_dstHwPtr, index_dstSwPtr]
  exact ⟨b.load_window (by omega), b.load_window (by omega)⟩

/-- SUCCESS of the second test: in the window, the first words of one destination are
within one of those of the other. -/
theorem ddrReport_eq_success_iff :
    ddrReport b = .success ↔
      ∀ i, i < 1024 → ¬ ddrError (b.windowWord (0xC00000 + i)) (b.windowWord (0x800000 + i)) := by
  have hcount := Nat.count_iff_forall_not (n := 1024)
    (p := fun i => ddrError (b.load (index dstHwPtr i)) (b.load (index dstSwPtr i)))
  rw [ddrReport]
  constructor
  · intro hsuccess i hi
    by_cases hzero : Nat.count
        (fun i => ddrError (b.load (index dstHwPtr i)) (b.load (index dstSwPtr i))) 1024 = 0
    · rw [← (ddr_load hi).1, ← (ddr_load hi).2]
      exact hcount.1 hzero i hi
    · rw [if_neg hzero] at hsuccess
      exact absurd hsuccess (by simp)
  · intro hall
    refine if_pos (hcount.2 ?_)
    intro i hi
    rw [(ddr_load hi).1, (ddr_load hi).2]
    exact hall i hi

/-- No engine moves the window. -/
theorem window_transfer (h : transfer e fuel ws b = some b') : b'.window = b.window := by
  obtain ⟨t, ht, rfl⟩ := Option.map_eq_some_iff.1 h
  have hwrites : ∀ (ws : List (BitVec 32 × BitVec 32)) (b : Board σ),
      (ws.foldl (fun b w => b.iowr32Direct e w.1 w.2) b).window = b.window := by
    intro ws
    induction ws with
    | nil => exact fun _ => rfl
    | cons w ws ih => exact fun b => ih _
  have hwait : ∀ {fuel : Nat} {b t : Board σ}, waitDone e fuel b = some t →
      t.window = b.window := by
    intro fuel
    induction fuel with
    | zero => exact fun h => absurd h (by simp [waitDone])
    | succ fuel ih =>
        intro b t h
        rw [waitDone] at h
        split at h
        · exact (ih h).trans rfl
        · rw [← Option.some.inj h]
          rfl
  exact (hwait ht).trans (hwrites ws b)

theorem window_ocmHwCopy (h : ocmHwCopy e fuel buf b = some b') : b'.window = b.window :=
  forLoopM_invariant (fun _ t => t.window = b.window) rfl
    (fun _ _ _ _ hwindow ht => (window_transfer ht).trans hwindow) h

/-- SUCCESS of the first test: the engine left the words of the software copy. -/
theorem ocm_success_iff_untouched (h : runOcmToDdrTest e fuel buf b = some (r, b')) :
    r = .success ↔
      ∀ i, i < ocmTestWords → b'.windowWord i = (ocmPrepare buf b).windowWord i := by
  obtain ⟨t, ht, heq⟩ := Option.map_eq_some_iff.1 h
  obtain ⟨rfl, rfl⟩ := Prod.mk.inj heq
  rw [ocmReport_eq_success_iff]
  have hdone := (ocm_prepared buf b).done
  constructor
  · intro hall i hi
    rw [hall i hi, hdone i hi]
  · intro hall i hi
    rw [hall i hi, hdone i hi]

/-- The cleared destination is an error at every word. -/
theorem ddrError_zero {i : Nat} (hi : i < ddrTestWords) :
    ddrError 0 (swScaled testCoeff (BitVec.ofNat 32 i + 1023)) := by
  rw [ddrTestWords] at hi
  have hscaled : (swScaled testCoeff (BitVec.ofNat 32 i + 1023)).toNat =
      2 * (i + 1023) := by
    have hcoeff : testCoeff.toNat = 800 := by decide
    have h1 : (1023 : BitVec 32).toNat = 1023 := by decide
    have hsum : (i % 2 ^ 32 + 1023) % 2 ^ 32 = i + 1023 := by omega
    rw [toNat_swScaled, hcoeff, BitVec.toNat_add, BitVec.toNat_ofNat, h1, hsum]
    omega
  refine Or.inr ?_
  rw [BitVec.toInt_eq_toNat_cond, BitVec.toNat_sub, hscaled]
  have h0 : (0 : BitVec 32).toNat = 0 := rfl
  rw [h0]
  split <;> omega

/-- An engine that leaves the checked words of the window alone, as one that serves
the programmed addresses does, fails the second test at every word. -/
theorem ddr_failure_of_untouched (h : runDdrToDdrTest e fuel b = some (r, b'))
    (hkeep : ∀ i, i < 1024 →
      b'.windowWord (0xC00000 + i) = (ddrPrepare b).windowWord (0xC00000 + i) ∧
      b'.windowWord (0x800000 + i) = (ddrPrepare b).windowWord (0x800000 + i)) :
    r = .failure 1024 := by
  obtain ⟨t, ht, heq⟩ := Option.map_eq_some_iff.1 h
  obtain ⟨rfl, rfl⟩ := Prod.mk.inj heq
  obtain ⟨hfilled, hsw⟩ := ddr_prepared b
  have hcount : Nat.count
      (fun i => ddrError (t.load (index dstHwPtr i)) (t.load (index dstSwPtr i))) 1024 = 1024 := by
    refine Nat.count_iff_forall.2 ?_
    intro i hi
    have hi' : i < ddrTestWords := by
      rw [ddrTestWords]
      omega
    rw [(ddr_load hi).1, (ddr_load hi).2, (hkeep i hi).1, (hkeep i hi).2, hfilled.hw i hi',
      hsw i hi']
    exact ddrError_zero hi'
  rw [ddrReport, hcount]
  rfl

end Reports

section Soundness

/-- The expected words are at the destination of the first test. -/
def OcmCopied (mem : SharedMemory) : Prop :=
  ∀ i, i < ocmTestWords → mem.ddr (wordOf (index ddrPhysBase i)) = ocmWord i

/-- The words at the destination of the second test are, up to one, the scaled words
that were at its source. -/
def DdrCopied (before after : SharedMemory) : Prop :=
  ∀ i, i < ddrTestWords →
    Within1 (after.ddr (wordOf (index (ddrPhysBase + dstHwOffset) i)))
      (swScaled testCoeff (before.ddr (wordOf (index (ddrPhysBase + srcOffset) i))))

/-- With the window at `window`, whatever engine makes the first test print SUCCESS
has copied. -/
def OcmSound (buf : OcmBuffer) (window : BitVec 32) (mem : SharedMemory) : Prop :=
  ∀ (σ : Type) (e : DmaEngine σ) (s : σ) (fuel : Nat) (b' : Board σ),
    runOcmToDdrTest e fuel buf ⟨window, mem, s⟩ = some (.success, b') → OcmCopied b'.mem

/-- With the window at `window`, whatever engine makes the second test print SUCCESS
has copied. -/
def DdrSound (window : BitVec 32) (mem : SharedMemory) : Prop :=
  ∀ (σ : Type) (e : DmaEngine σ) (s : σ) (fuel : Nat) (b' : Board σ),
    runDdrToDdrTest e fuel ⟨window, mem, s⟩ = some (.success, b') →
      DdrCopied (ddrPrepare ⟨window, mem, s⟩).mem b'.mem

/-- The engine that on Start changes memory by `f` and is done at once. -/
def onStart (f : SharedMemory → SharedMemory) : DmaEngine Unit where
  iowr reg _ w := if reg = regCtrl then ((), f w.2) else w
  iord _ w := (1, w)

variable (f : SharedMemory → SharedMemory) (b : Board Unit)

/-- Only the Start command changes anything. -/
theorem iowr32Direct_onStart (reg v : BitVec 32) :
    b.iowr32Direct (onStart f) reg v = if reg = regCtrl then b.withMem (f b.mem) else b := by
  by_cases hreg : reg = regCtrl
  · subst hreg
    rfl
  · simp [Board.iowr32Direct, onStart, hreg]

/-- A transfer that is started once changes memory once. -/
theorem transfer_onStart {ws : List (BitVec 32 × BitVec 32)}
    (hws : ∀ w ∈ ws, w.1 ≠ regCtrl) (v : BitVec 32) :
    transfer (onStart f) 1 (ws ++ [(regCtrl, v)]) b = some (b.withMem (f b.mem)) := by
  have hsetup : ws.foldl (fun b w => b.iowr32Direct (onStart f) w.1 w.2) b = b := by
    induction ws with
    | nil => rfl
    | cons w ws ih =>
        rw [List.foldl_cons, iowr32Direct_onStart, if_neg (hws w List.mem_cons_self)]
        exact ih fun w hw => hws w (List.mem_cons_of_mem _ hw)
  have hdone : ∀ t : Board Unit, waitDone (onStart f) 1 t = some t := by
    intro t
    have hbit : ¬ (1 : BitVec 32) &&& 1 = 0 := by decide
    exact if_neg hbit
  have hstatus : ¬ regStatus = regCtrl := by decide
  rw [transfer, List.foldl_append, hsetup, List.foldl_cons, List.foldl_nil, hdone,
    Option.map_some, iowr32Direct_onStart, iowr32Direct_onStart, if_neg hstatus,
    if_pos rfl]

/-- The first test starts the engine a hundred times. -/
theorem runOcmToDdrTest_onStart (buf : OcmBuffer) :
    runOcmToDdrTest (onStart f) 1 buf b =
      some (ocmReport ((ocmPrepare buf b).withMem (f^[100] (ocmPrepare buf b).mem)),
        (ocmPrepare buf b).withMem (f^[100] (ocmPrepare buf b).mem)) := by
  have hws : ∀ w ∈ (ocmProgram buf).take 5, w.1 ≠ regCtrl := by
    simp [ocmProgram, regSrcAddr, regDstAddr, regLen, regRdBurst, regWrBurst, regCtrl]
  have hcopies : ∀ b : Board Unit,
      ocmHwCopy (onStart f) 1 buf b = some (b.withMem (f^[100] b.mem)) := by
    intro b
    refine forLoopM_eq_some (fun n => b.withMem (f^[n] b.mem)) rfl ?_
    intro n _
    rw [Function.iterate_succ_apply']
    exact transfer_onStart f _ hws 1
  rw [runOcmToDdrTest, hcopies, Option.map_some]

/-- The second test starts it once. -/
theorem runDdrToDdrTest_onStart :
    runDdrToDdrTest (onStart f) 1 b =
      some (ddrReport ((ddrPrepare b).withMem (f (ddrPrepare b).mem)),
        (ddrPrepare b).withMem (f (ddrPrepare b).mem)) := by
  have hws : ∀ w ∈ ddrProgram.take 6, w.1 ≠ regCtrl := by
    simp [ddrProgram, regSrcAddr, regDstAddr, regLen, regRdBurst, regWrBurst, regCtrl,
      regCoeff]
  have htransfer := transfer_onStart f (ddrPrepare b) hws 1
  have hprogram : ddrProgram.take 6 ++ [(regCtrl, 1)] = ddrProgram := rfl
  rw [hprogram] at htransfer
  rw [runDdrToDdrTest, htransfer, Option.map_some]

/-- An engine may leave any words in DDR. -/
theorem exists_run_of_words (buf : OcmBuffer) (b : Board Unit)
    (words : BitVec 30 → BitVec 32) :
    ∃ e b', runOcmToDdrTest e 1 buf b = some (ocmReport b', b') ∧ b'.window = b.window ∧
      b'.mem.ddr = words := by
  refine ⟨_, _, runOcmToDdrTest_onStart (fun m => { m with ddr := words }) b buf, ?_, ?_⟩
  · rw [Board.window_withMem, (ocm_prepared buf b).window]
  · rw [Board.mem_withMem, Function.iterate_succ_apply']

/-- With the window elsewhere than at the destination the first test proves nothing: an
engine may leave the expected words in the window and zero everywhere else. -/
theorem ocm_unsound (buf : OcmBuffer) {window : BitVec 32} (mem : SharedMemory)
    (hne : wordOf window ≠ wordOf ddrPhysBase) : ¬ OcmSound buf window mem := by
  intro hsound
  have hN : ocmTestWords = 1024 := rfl
  obtain ⟨e, b', hrun, hwindow, hwords⟩ := exists_run_of_words buf ⟨window, mem, ()⟩ fun w =>
    if (w - wordOf window).toNat < ocmTestWords then ocmWord (w - wordOf window).toNat else 0
  have hsuccess : ocmReport b' = .success := by
    refine ocmReport_eq_success_iff.2 ?_
    intro i hi
    have hword : (wordOf window + BitVec.ofNat 30 i - wordOf window).toNat = i := by
      rw [BitVec.add_comm, BitVec.add_sub_cancel, BitVec.toNat_ofNat]
      omega
    rw [Board.windowWord, hwindow, hwords]
    simp only [hword, if_pos hi]
  rw [hsuccess] at hrun
  have hcopied := hsound Unit e () 1 b' hrun 0 (by decide)
  have hfirst : wordOf (index ddrPhysBase 0) = wordOf ddrPhysBase := by decide
  have hpos : wordOf ddrPhysBase - wordOf window ≠ 0 := by
    intro hzero
    exact hne (sub_eq_zero.1 hzero).symm
  rw [hfirst, hwords] at hcopied
  beta_reduce at hcopied
  generalize wordOf ddrPhysBase - wordOf window = d at hcopied hpos
  split at hcopied
  · next hlt =>
      have hd : d.toNat = 0 := by
        have hnat := congrArg BitVec.toNat (add_right_cancel hcopied)
        simp only [BitVec.toNat_ofNat] at hnat
        omega
      exact hpos (BitVec.toNat_inj.1 hd)
  · exact absurd hcopied (by decide)

/-- With the window at the destination SUCCESS says what the first test prints. -/
theorem ocm_sound (buf : OcmBuffer) {window : BitVec 32} (mem : SharedMemory)
    (heq : wordOf window = wordOf ddrPhysBase) : OcmSound buf window mem := by
  intro σ e s fuel b' hrun i hi
  obtain ⟨t, ht, hpair⟩ := Option.map_eq_some_iff.1 hrun
  obtain ⟨hreport, rfl⟩ := Prod.mk.inj hpair
  have hwindow : t.window = window :=
    (window_ocmHwCopy ht).trans (ocm_prepared buf ⟨window, mem, s⟩).window
  have hword := ocmReport_eq_success_iff.1 hreport i hi
  rw [Board.windowWord, hwindow, heq, ← wordOf_index] at hword
  exact hword

/-- The second test proves nothing wherever the window is: it checks two words of the same
memory against each other, and an engine may fill memory with a word that is two above the
first expected one. -/
theorem ddr_unsound (window : BitVec 32) (mem : SharedMemory) : ¬ DdrSound window mem := by
  intro hsound
  let first : SharedMemory → BitVec 32 := fun m =>
    swScaled testCoeff (m.ddr (wordOf (index (ddrPhysBase + srcOffset) 0)))
  have hrun := runDdrToDdrTest_onStart (fun m => { m with ddr := fun _ => first m + 2 })
    ⟨window, mem, ()⟩
  have hsuccess : ∀ t : Board Unit,
      ddrReport (t.withMem { t.mem with ddr := fun _ => first t.mem + 2 }) = .success := by
    intro t
    refine ddrReport_eq_success_iff.2 ?_
    intro i _
    rw [Board.windowWord_withMem, Board.windowWord_withMem, ddrError, BitVec.sub_self]
    decide
  rw [hsuccess] at hrun
  obtain ⟨hle, hge⟩ := hsound Unit _ () 1 _ hrun 0 (by decide)
  rw [Board.mem_withMem] at hle hge
  change (first _ + 2).toNat ≤ (first _).toNat + 1 at hle
  change (first _).toNat ≤ (first _ + 2).toNat + 1 at hge
  rw [BitVec.toNat_add] at hle hge
  have h2 : (2 : BitVec 32).toNat = 2 := rfl
  omega

/-- **What SUCCESS of the self-tests says.**  For every place of the buffer, every
initial memory and every base of the window: the first test is sound against every
engine if and only if the window is at the destination that it programs, and the
second test is not.  The engines are those whose changes of memory happen while a register
is accessed, so that they are over when Done is read. -/
theorem success_sound_iff (buf : OcmBuffer) (window : BitVec 32) (mem : SharedMemory) :
    (OcmSound buf window mem ↔ wordOf window = wordOf ddrPhysBase) ∧
      ¬ DdrSound window mem := by
  refine ⟨⟨?_, ocm_sound buf mem⟩, ddr_unsound window mem⟩
  intro hsound
  by_contra hne
  exact ocm_unsound buf mem hne hsound

/-- Words of an array above the window as the menu sets it. -/
theorem above_window {p : BitVec 32} (hlow : 0x28000000 ≤ p.toNat)
    (hhigh : p.toNat < 0x80000000) {i : Nat} (hi : i < ddrTestWords) :
    2 ^ 25 ≤ (wordOf (index p i) - wordOf 0x20000000).toNat := by
  have hbase : (wordOf 0x20000000).toNat = 0x8000000 := by decide
  have hN : ddrTestWords = 262144 := rfl
  rw [wordOf_index, BitVec.toNat_sub, BitVec.toNat_add, BitVec.toNat_ofNat, hbase, wordOf,
    BitVec.extractLsb'_toNat, Nat.shiftRight_eq_div_pow]
  omega

/-- Chosen from the menu, the first test is passed by an engine that does nothing: the
destination holds the expected words only if it did before. -/
theorem menuOcm_onStart_id (buf : OcmBuffer) :
    ∃ b', menuOcm (onStart id) 1 buf b = some (.success, b') ∧
      (OcmCopied b'.mem ↔ OcmCopied b.mem) := by
  have hrun := runOcmToDdrTest_onStart id { b with window := 0x20000000 } buf
  have hprepared := ocm_prepared buf { b with window := 0x20000000 }
  rw [Function.iterate_id] at hrun
  have hsuccess := (ocm_success_iff_untouched hrun).2 fun i _ => by
    rw [Board.windowWord_withMem, id, Board.windowWord]
  rw [hsuccess] at hrun
  refine ⟨_, by rw [menuOcm, hrun, Option.map_some], ?_⟩
  have hrest : ∀ i, i < ocmTestWords → (ocmPrepare buf { b with window := 0x20000000 }).mem.ddr
      (wordOf (index ddrPhysBase i)) = b.mem.ddr (wordOf (index ddrPhysBase i)) := by
    intro i hi
    have habove := above_window (p := ddrPhysBase) (by decide) (by decide)
      (lt_of_lt_of_le hi (by decide))
    have hN : ocmTestWords ≤ 2 ^ 25 := by decide
    exact hprepared.rest _ (hN.trans habove)
  rw [Board.mem_withMem, id]
  constructor
  · intro hcopied i hi
    rw [← hrest i hi]
    exact hcopied i hi
  · intro hcopied i hi
    rw [hrest i hi]
    exact hcopied i hi

/-- The scaling of the second test by an engine that reads and writes with address
bit 28 at zero. -/
def scaleLow (m : SharedMemory) : SharedMemory where
  ocm := m.ocm
  ddr w :=
    if (w - wordOf 0x23000000).toNat < ddrTestWords then
      swScaled testCoeff (m.ddr (w - wordOf 0x02000000))
    else m.ddr w

/-- Chosen from the menu, the second test is passed by an engine that drops an address
bit: the destination is right only if it was before. -/
theorem menuDdr_onStart_scaleLow :
    ∃ b', menuDdr (onStart scaleLow) 1 b = some (.success, b') ∧
      (DdrCopied (ddrPrepare { b with window := 0x20000000 }).mem b'.mem ↔
        DdrCopied b.mem b.mem) := by
  have hrun := runDdrToDdrTest_onStart scaleLow { b with window := 0x20000000 }
  obtain ⟨hfilled, hsw⟩ := ddr_prepared { b with window := 0x20000000 }
  generalize ddrPrepare { b with window := 0x20000000 } = t at hrun hfilled hsw ⊢
  have hwindow : t.window = 0x20000000 := hfilled.window
  have hN : ddrTestWords = 262144 := rfl
  have hbase : (wordOf 0x20000000).toNat = 0x8000000 := by decide
  have hlow : (wordOf 0x23000000).toNat = 0x8C00000 := by decide
  have hdown : (wordOf 0x02000000).toNat = 0x800000 := by decide
  have hsuccess : ddrReport (t.withMem (scaleLow t.mem)) = .success := by
    refine ddrReport_eq_success_iff.2 ?_
    intro i hi
    rw [Board.windowWord_withMem, Board.windowWord_withMem]
    have hhw : (scaleLow t.mem).ddr (wordOf t.window + BitVec.ofNat 30 (0xC00000 + i)) =
        swScaled testCoeff (t.windowWord (0x400000 + i)) := by
      have hsrc : wordOf 0x20000000 + BitVec.ofNat 30 (0xC00000 + i) - wordOf 0x02000000 =
          wordOf 0x20000000 + BitVec.ofNat 30 (0x400000 + i) := by
        rw [← BitVec.toNat_inj, BitVec.toNat_sub, BitVec.toNat_add, BitVec.toNat_add,
          BitVec.toNat_ofNat, BitVec.toNat_ofNat, hbase, hdown]
        omega
      rw [hwindow, Board.windowWord, hwindow, ← hsrc]
      refine if_pos ?_
      rw [BitVec.toNat_sub, BitVec.toNat_add, BitVec.toNat_ofNat, hbase, hlow]
      omega
    have hkeep : (scaleLow t.mem).ddr (wordOf t.window + BitVec.ofNat 30 (0x800000 + i)) =
        t.windowWord (0x800000 + i) := by
      rw [hwindow, Board.windowWord, hwindow]
      refine if_neg ?_
      rw [BitVec.toNat_sub, BitVec.toNat_add, BitVec.toNat_ofNat, hbase, hlow]
      omega
    rw [hhw, hkeep, hfilled.src i (by omega), hsw i (by omega), ddrError, BitVec.sub_self]
    decide
  rw [hsuccess] at hrun
  refine ⟨_, by rw [menuDdr, hrun, Option.map_some], ?_⟩
  have hsrc : ∀ i, i < ddrTestWords → t.mem.ddr (wordOf (index (ddrPhysBase + srcOffset) i)) =
      b.mem.ddr (wordOf (index (ddrPhysBase + srcOffset) i)) := by
    intro i hi
    exact hfilled.rest _ (above_window (by decide) (by decide) hi)
  have hdst : ∀ i, i < ddrTestWords →
      (scaleLow t.mem).ddr (wordOf (index (ddrPhysBase + dstHwOffset) i)) =
        b.mem.ddr (wordOf (index (ddrPhysBase + dstHwOffset) i)) := by
    intro i hi
    have habove := above_window (p := ddrPhysBase + dstHwOffset) (by decide) (by decide) hi
    rw [← show _ = b.mem.ddr _ from hfilled.rest _ habove]
    refine if_neg ?_
    rw [BitVec.toNat_sub, hbase] at habove
    rw [BitVec.toNat_sub, hlow]
    omega
  rw [Board.mem_withMem]
  constructor
  · intro hcopied i hi
    rw [← hsrc i hi, ← hdst i hi]
    exact hcopied i hi
  · intro hcopied i hi
    rw [hsrc i hi, hdst i hi]
    exact hcopied i hi

/-- Every word of both memories is seven. -/
def sevens : SharedMemory := ⟨fun _ => 7, fun _ => 7⟩

/-- A place of the buffer. -/
def linkedBuffer : OcmBuffer where
  addr := 0xC1E0
  fits := by decide
  aligned := by decide

/-- Through the menu an engine that does nothing passes the first test, and one that
drops an address bit passes the second; the destinations hold other words. -/
theorem success_unsound :
    let b : Board Unit := ⟨0x30000000, sevens, ()⟩
    (∃ b', menuOcm (onStart id) 1 linkedBuffer b = some (.success, b') ∧
      ¬ OcmCopied b'.mem) ∧
    ∃ b', menuDdr (onStart scaleLow) 1 b = some (.success, b') ∧
      ¬ DdrCopied (ddrPrepare { b with window := 0x20000000 }).mem b'.mem := by
  intro b
  constructor
  · obtain ⟨b', hrun, hiff⟩ := menuOcm_onStart_id b linkedBuffer
    refine ⟨b', hrun, ?_⟩
    rw [hiff]
    intro hcopied
    exact absurd (hcopied 0 (by decide)) (by decide)
  · obtain ⟨b', hrun, hiff⟩ := menuDdr_onStart_scaleLow b
    refine ⟨b', hrun, ?_⟩
    rw [hiff]
    intro hcopied
    exact absurd (hcopied 0 (by decide)).2 (by decide)

end Soundness

end SelfTest
end VideoProcessing
