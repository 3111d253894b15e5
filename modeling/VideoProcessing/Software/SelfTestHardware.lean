import VideoProcessing.Software.DmaHardware

/-!
# The self-tests on the engines of the board

`burstMaster0` and `burstMaster40` are the engines behind their CSR slaves as a program of
the processor sees them.

* `runOcmToDdrTest_hardware`: the first test copies, and prints SUCCESS if and only if the
  window shows the destination at its beginning or not at all;
* `menuOcm_hardware`, `menuDdr_hardware`: from the menu, with the window elsewhere, the
  first test succeeds and the second, which does its work too, fails at every word;
* `runDdrToDdrTest_hardware`: with the window at its destination the second test succeeds,
  though most of the words are scaled wrongly.
-/

namespace VideoProcessing

open Lib Pipeline

namespace SelfTest

/-- `burst_master_0`. -/
def burstMaster0 (c : Timing) : DmaEngine ((BurstCopy BurstParams.standard) × Nat) :=
  (BurstCopy.system BurstParams.standard).dmaHardware ocmToDdr c
    fun s => s.engine.ctl.csr.avsReaddata

/-- `burst_master_4_0`. -/
def burstMaster40 (c : Timing) : DmaEngine ((BurstStream BurstParams4.standard) × Nat) :=
  (BurstStream.system BurstParams4.standard).dmaHardware ddrToDdr c
    fun s => s.engine.avsReaddata

variable {σ : Type} {c : Timing}

/-- Bit 0 of a one-bit register. -/
theorem ofBool_and_one (d : Bool) : (0#31 ++ BitVec.ofBool d) &&& 1 = 0 ↔ d = false := by
  cases d <;> decide

theorem showsDone_burstMaster0 : (BurstCopy.system BurstParams.standard).ShowsDone
    fun s => s.engine.ctl.csr.avsReaddata :=
  fun s => ofBool_and_one s.engine.ctl.csr.ctrlDoneReg

theorem showsDone_burstMaster40 : (BurstStream.system BurstParams4.standard).ShowsDone
    fun s => s.engine.avsReaddata :=
  fun s => ofBool_and_one s.engine.ctl.csr.ctrlDoneReg

/-- The registers that both tests program. -/
theorem regAddresses : regAddress regSrcAddr = 2 ∧ regAddress regDstAddr = 3 ∧
    regAddress regLen = 4 ∧ regAddress regRdBurst = 5 ∧ regAddress regWrBurst = 6 := by
  decide

section Ocm

variable {buf : OcmBuffer} {b t : Board ((BurstCopy BurstParams.standard) × Nat)}

/-- `burst_master_0` between two tests: it waits for a program, and the read burst is that
of the reset or that of the test. -/
structure Ready0 (s : BurstCopy BurstParams.standard) : Prop where
  rested : (BurstCopy.system BurstParams.standard).Rested s
  rdBurst : s.engine.ctl.csr.ctrlRdBurst = 256 ∨ s.engine.ctl.csr.ctrlRdBurst = 32

/-- The transfer that the first test programs. -/
def ocmTransfer (buf : OcmBuffer) : Transfer where
  src := buf.addr
  dst := ddrPhysBase
  len := 4096
  rb := 32
  wb := 32
  rb_pos := by decide
  wb_pos := by decide
  rb_dvd := by decide
  wb_dvd := by decide

theorem OcmBuffer.addr_and (buf : OcmBuffer) : buf.addr &&& 0x7FFFFFFF = buf.addr := by
  have hfits := buf.fits
  rw [ocmSpan] at hfits
  have hmask : (0x7FFFFFFF : BitVec 32).toNat = 2 ^ 31 - 1 := by decide
  rw [← BitVec.toNat_inj, BitVec.toNat_and, hmask, Nat.and_two_pow_sub_one_eq_mod]
  omega

/-- The registers that the first test writes before the Start command. -/
theorem csrAfter_ocmProgram {csr : BurstCsr} (hs : csr.ctrlStart = false)
    (hrd : csr.ctrlRdBurst = 256 ∨ csr.ctrlRdBurst = 32) :
    BurstSystem.csrAfter ((ocmProgram buf).take 5) csr =
      { csr with
        ctrlSrcAddr := buf.addr
        ctrlDstAddr := ddrPhysBase
        ctrlLen := 4096
        ctrlRdBurst := 32
        ctrlWrBurst := 32 } := by
  have hlen : BurstCsr.padLen csr.ctrlRdBurst (BitVec.ofNat 32 (ocmTestWords * 4)) =
      4096 := by
    rcases hrd with hrd | hrd <;> rw [hrd] <;> decide
  obtain ⟨h2, h3, h4, h5, h6⟩ := regAddresses
  rcases csr with ⟨start, done, src, dst, len, rd, wr⟩
  obtain rfl : start = false := hs
  simp only [BurstSystem.csrAfter, ocmProgram, List.take_succ_cons, List.take_zero,
    List.foldl_cons, List.foldl_nil, h2, h3, h4, h5, h6, buf.addr_and]
  exact congrArg (fun l => BurstCsr.mk false done buf.addr ddrPhysBase l 32 32) hlen

/-- None of these writes is a Start command. -/
theorem noStart_ocmProgram (buf : OcmBuffer) :
    BurstSystem.NoStart ((ocmProgram buf).take 5) := by
  obtain ⟨h2, h3, h4, h5, h6⟩ := regAddresses
  simp [BurstSystem.NoStart, ocmProgram, AvsIn.start, AvsIn.write, h2, h3, h4, h5, h6]

/-- A transfer of the first test has copied the buffer to the destination, and changed
nothing else. -/
structure OcmTransferred (buf : OcmBuffer) (b t : Board σ) : Prop where
  window : t.window = b.window
  ocm : t.mem.ocm = b.mem.ocm
  dst : ∀ i, i < ocmTestWords →
    t.mem.ddr (wordOf (index ddrPhysBase i)) = b.mem.ocm (wordOf (index buf.addr i))
  rest : ∀ w, (∀ i, i < ocmTestWords → wordOf (index ddrPhysBase i) ≠ w) →
    t.mem.ddr w = b.mem.ddr w

/-- One transfer of the first test. -/
theorem exists_ocmTransfer (hserves : c.Serves) (h : Ready0 b.dma.1) :
    ∃ fuel t, transfer (burstMaster0 c) fuel (ocmProgram buf) b = some t ∧ Ready0 t.dma.1 ∧
      OcmTransferred buf b t := by
  have hT : (ocmTransfer buf).Configured
      (BurstSystem.csrAfter ((ocmProgram buf).take 5) b.dma.1.engine.ctl.csr) := by
    have hstart : b.dma.1.engine.ctl.csr.ctrlStart = false := h.rested.start
    rw [csrAfter_ocmProgram hstart h.rdBurst]
    exact ⟨rfl, rfl, rfl, rfl, rfl⟩
  have hroom : (ocmTransfer buf).rb.toNat + (ocmTransfer buf).wb.toNat -
      Nat.gcd (ocmTransfer buf).rb.toNat (ocmTransfer buf).wb.toNat ≤
        BurstParams.standard.fifoDepth := by
    change (32 : BitVec 9).toNat + (32 : BitVec 9).toNat -
      Nat.gcd (32 : BitVec 9).toNat (32 : BitVec 9).toNat ≤ 512
    decide
  have hop : ∀ s, (BurstCopy.system BurstParams.standard).op s = fun w => w := fun _ => rfl
  obtain ⟨fuel, t, ht, hrest, hconfig, hwindow, hmem⟩ :=
    BurstSystem.exists_transfer hserves showsDone_burstMaster0 h.rested (noStart_ocmProgram buf)
      hT (BurstCopy.advancing BurstParams.standard _ hroom) (hop _) (safe_ocmToDdr _)
  have hlen : (ocmTransfer buf).words = ocmTestWords := by
    change (4096 : BitVec 32).toNat / 4 = 1024
    decide
  refine ⟨fuel, t, ht, ⟨hrest, Or.inr hconfig.rb⟩, hwindow, ?_, ?_, ?_⟩
  · rw [hmem]
    exact ocm_copied (fun _ _ _ => rfl) _ _ _
  · intro i hi
    rw [← hlen] at hi
    rw [hmem]
    exact Transfer.copied_dst writes_ocmToDdr hi
  · intro w hw
    rw [← hlen] at hw
    rw [hmem]
    exact Transfer.copied_apart writes_ocmToDdr hw

/-- Loops of loads and stores leave the engine alone. -/
theorem dma_forLoop {n : Nat} {body : Nat → Board σ → Board σ}
    (hbody : ∀ i b, (body i b).dma = b.dma) (b : Board σ) :
    (forLoop n body b).dma = b.dma :=
  forLoop_invariant (fun _ t => t.dma = b.dma) rfl fun i t _ ht => (hbody i t).trans ht

theorem dma_ocmPrepare (b : Board σ) : (ocmPrepare buf b).dma = b.dma := by
  have hpass : ∀ b : Board σ, (ocmSwPass buf b).dma = b.dma :=
    dma_forLoop fun i b => Board.dma_store _ _ _
  have hcopy : (ocmPrepare buf b).dma = (ocmFill buf b).dma :=
    dma_forLoop (fun _ => hpass) _
  refine hcopy.trans (dma_forLoop ?_ b)
  intro i b
  rw [Board.dma_store, Board.dma_store]

/-- What a transfer keeps for the next one, once `b` is prepared. -/
structure OcmCopies (buf : OcmBuffer) (b t : Board ((BurstCopy BurstParams.standard) × Nat)) :
    Prop where
  ready : Ready0 t.dma.1
  window : t.window = b.window
  ocm : t.mem.ocm = b.mem.ocm
  rest : ∀ w, (∀ i, i < ocmTestWords → wordOf (index ddrPhysBase i) ≠ w) →
    t.mem.ddr w = b.mem.ddr w

theorem OcmCopies.transfer (h : OcmCopies buf b t) (hfilled : OcmFilled buf b ocmTestWords)
    (hserves : c.Serves) :
    ∃ fuel t', transfer (burstMaster0 c) fuel (ocmProgram buf) t = some t' ∧
      OcmCopies buf b t' ∧ OcmCopied t'.mem := by
  obtain ⟨fuel, t', ht', hready, hdone⟩ := exists_ocmTransfer hserves h.ready
  refine ⟨fuel, t', ht', ⟨hready, hdone.window.trans h.window, hdone.ocm.trans h.ocm, ?_⟩,
    ?_⟩
  · intro w hw
    rw [hdone.rest w hw]
    exact h.rest w hw
  · intro i hi
    rw [hdone.dst i hi, h.ocm]
    exact hfilled i hi

/-- A hundred transfers of the first test. -/
theorem exists_ocmHwCopy (hserves : c.Serves) (h : Ready0 b.dma.1)
    (hfilled : OcmFilled buf b ocmTestWords) :
    ∃ fuel t, ocmHwCopy (burstMaster0 c) fuel buf b = some t ∧ OcmCopies buf b t ∧
      OcmCopied t.mem := by
  have hstep : ∀ n t, OcmCopies buf b t ∧ (0 < n → OcmCopied t.mem) →
      ∃ fuel t', transfer (burstMaster0 c) fuel (ocmProgram buf) t = some t' ∧
        OcmCopies buf b t' ∧ (0 < n + 1 → OcmCopied t'.mem) := by
    rintro n t ⟨hcopies, -⟩
    obtain ⟨fuel, t', ht', hcopies', hcopied⟩ := hcopies.transfer hfilled hserves
    exact ⟨fuel, t', ht', hcopies', fun _ => hcopied⟩
  have hinit : OcmCopies buf b b ∧ (0 < 0 → OcmCopied b.mem) :=
    ⟨⟨h, rfl, rfl, fun _ _ => rfl⟩, fun hpos => absurd hpos (Nat.lt_irrefl 0)⟩
  obtain ⟨fuel, t, ht, hcopies, hcopied⟩ :=
    forLoopM_total (fun fuel _ => SelfTest.transfer (burstMaster0 c) fuel (ocmProgram buf))
      (fun n t => OcmCopies buf b t ∧ (0 < n → OcmCopied t.mem))
      (fun _ _ _ _ _ hle => transfer_mono hle) hstep hinit 100
  exact ⟨fuel, t, ht, hcopies, hcopied (by decide)⟩

/-- The expected words differ. -/
theorem ocmWord_inj {i k : Nat} (hi : i < ocmTestWords) (hk : k < ocmTestWords)
    (h : ocmWord i = ocmWord k) : i = k := by
  have hN : ocmTestWords = 1024 := rfl
  have hnat := congrArg BitVec.toNat (add_right_cancel h)
  rw [BitVec.toNat_ofNat, BitVec.toNat_ofNat] at hnat
  omega

/-- The window begins at the destination of the first test, or they do not overlap. -/
def OcmWindowApart (window : BitVec 32) : Prop :=
  wordOf window = wordOf ddrPhysBase ∨
    ocmTestWords ≤ (wordOf window - wordOf ddrPhysBase).toNat ∧
      ocmTestWords ≤ (wordOf ddrPhysBase - wordOf window).toNat

instance (window : BitVec 32) : Decidable (OcmWindowApart window) :=
  inferInstanceAs (Decidable (_ ∨ _ ∧ _))

/-- Where runs of words meet on the ring of addresses. -/
theorem places_iff (w d : BitVec 30) :
    (w = d ∨ ocmTestWords ≤ (w - d).toNat ∧ ocmTestWords ≤ (d - w).toNat) ↔
      ∀ i k, i < ocmTestWords → k < ocmTestWords →
        d + BitVec.ofNat 30 k = w + BitVec.ofNat 30 i → i = k := by
  have hN : ocmTestWords = 1024 := rfl
  have hw := w.isLt
  have hd := d.isLt
  simp only [hN, ← BitVec.toNat_inj, BitVec.toNat_add, BitVec.toNat_sub,
    BitVec.toNat_ofNat]
  constructor
  · intro hapart i k hi hk hik
    omega
  · intro hplace
    by_contra hover
    rw [not_or, not_and_or] at hover
    obtain ⟨hne, hlow | hhigh⟩ := hover
    · have hzero := hplace 0 ((2 ^ 30 - d.toNat + w.toNat) % 2 ^ 30) (by omega) (by omega)
        (by omega)
      omega
    · have hzero := hplace ((2 ^ 30 - w.toNat + d.toNat) % 2 ^ 30) 0 (by omega) (by omega)
        (by omega)
      omega

/-- In such a window a word of the destination is at its own place. -/
theorem ocmWindowApart_iff {window : BitVec 32} :
    OcmWindowApart window ↔ ∀ i k, i < ocmTestWords → k < ocmTestWords →
      wordOf (index ddrPhysBase k) = wordOf window + BitVec.ofNat 30 i → i = k := by
  simp only [wordOf_index]
  exact places_iff (wordOf window) (wordOf ddrPhysBase)

/-- What the check prints when the expected words are at the destination. -/
theorem ocmReport_of_copied {p t : Board σ} {window : BitVec 32}
    (hdone : ∀ i, i < ocmTestWords → p.windowWord i = ocmWord i) (hp : p.window = window)
    (ht : t.window = window) (hcopied : OcmCopied t.mem)
    (hrest : ∀ w, (∀ i, i < ocmTestWords → wordOf (index ddrPhysBase i) ≠ w) →
      t.mem.ddr w = p.mem.ddr w) :
    ocmReport t = .success ↔ OcmWindowApart window := by
  rw [ocmReport_eq_success_iff, ocmWindowApart_iff]
  constructor
  · intro hall i k hi hk hplace
    have hword := hcopied k hk
    rw [hplace, ← ht] at hword
    exact ocmWord_inj hi hk ((hall i hi).symm.trans hword)
  · intro hapart i hi
    by_cases hdst : ∃ k, k < ocmTestWords ∧
        wordOf (index ddrPhysBase k) = wordOf window + BitVec.ofNat 30 i
    · obtain ⟨k, hk, hplace⟩ := hdst
      rw [Board.windowWord, ht, ← hplace, hapart i k hi hk hplace]
      exact hcopied k hk
    · have hother : ∀ k, k < ocmTestWords →
          wordOf (index ddrPhysBase k) ≠ wordOf window + BitVec.ofNat 30 i :=
        fun k hk hplace => hdst ⟨k, hk, hplace⟩
      have hword := hdone i hi
      rw [Board.windowWord, hp] at hword
      rw [Board.windowWord, ht, hrest _ hother]
      exact hword

/-- The first test on the engine of the board. -/
theorem exists_runOcmToDdrTest (hserves : c.Serves) (h : Ready0 b.dma.1)
    (buf : OcmBuffer) :
    ∃ fuel r t, runOcmToDdrTest (burstMaster0 c) fuel buf b = some (r, t) ∧ Ready0 t.dma.1 ∧
      OcmCopied t.mem ∧ (r = .success ↔ OcmWindowApart b.window) := by
  obtain ⟨hprepared, hfilled⟩ := ocm_filled buf b
  have hready : Ready0 (ocmPrepare buf b).dma.1 := by
    rw [dma_ocmPrepare]
    exact h
  obtain ⟨fuel, t, ht, hcopies, hcopied⟩ := exists_ocmHwCopy hserves hready hfilled
  refine ⟨fuel, ocmReport t, t, Option.map_eq_some_iff.2 ⟨t, ht, rfl⟩, hcopies.ready,
    hcopied, ?_⟩
  exact ocmReport_of_copied hprepared.done hprepared.window
    (hcopies.window.trans hprepared.window) hcopied hcopies.rest

end Ocm

section Ddr

variable {b t : Board ((BurstStream BurstParams4.standard) × Nat)} {reg v : BitVec 32}

/-- The transfer that the second test programs. -/
def ddrTransfer : Transfer where
  src := ddrPhysBase + srcOffset
  dst := ddrPhysBase + dstHwOffset
  len := 1048576
  rb := 256
  wb := 256
  rb_pos := by decide
  wb_pos := by decide
  rb_dvd := by decide
  wb_dvd := by decide

theorem regAddress_regCoeff : regAddress regCoeff = 7 := by decide

/-- The registers that the second test writes before the Start command. -/
theorem csrAfter_ddrProgram {csr : BurstCsr} (hs : csr.ctrlStart = false) :
    BurstSystem.csrAfter (ddrProgram.take 6) csr =
      { csr with
        ctrlSrcAddr := ddrPhysBase + srcOffset
        ctrlDstAddr := ddrPhysBase + dstHwOffset
        ctrlLen := 1048576
        ctrlRdBurst := 256
        ctrlWrBurst := 256 } := by
  have hlen : BurstCsr.padLen 256 (BitVec.ofNat 32 (ddrTestWords * 4)) = 1048576 := by
    decide
  obtain ⟨h2, h3, h4, h5, h6⟩ := regAddresses
  rcases csr with ⟨start, done, src, dst, len, rd, wr⟩
  obtain rfl : start = false := hs
  simp only [BurstSystem.csrAfter, ddrProgram, List.take_succ_cons, List.take_zero,
    List.foldl_cons, List.foldl_nil, h2, h3, h4, h5, h6, regAddress_regCoeff]
  exact congrArg (fun l => BurstCsr.mk false done (ddrPhysBase + srcOffset)
    (ddrPhysBase + dstHwOffset) l 256 256) hlen

theorem noStart_ddrProgram : BurstSystem.NoStart (ddrProgram.take 6) := by
  obtain ⟨h2, h3, h4, h5, h6⟩ := regAddresses
  simp [BurstSystem.NoStart, ddrProgram, AvsIn.start, AvsIn.write, h2, h3, h4, h5, h6,
    regAddress_regCoeff]

/-- The coefficient after a write. -/
theorem ctrlCoeff_iowr : (b.iowr32Direct (burstMaster40 c) reg v).dma.1.engine.ctrlCoeff =
    if regAddress reg == 7 then v else b.dma.1.engine.ctrlCoeff := by
  have hticks : ∀ n w, ((BurstStream.system BurstParams4.standard).ticks ddrToDdr c
      n w).1.1.engine.ctrlCoeff = w.1.1.engine.ctrlCoeff := by
    intro n w
    induction n with
    | zero => rfl
    | succ n ih =>
        rw [BurstSystem.ticks_succ, ← ih]
        exact BurstStream.ctrlCoeff_step fun hw => absurd hw Bool.false_ne_true
  rw [← hticks (c.delay b.dma.2) (b.dma, b.mem)]
  rfl

theorem ctrlCoeff_ddrProgram :
    ((ddrProgram.take 6).foldl (fun b w =>
      b.iowr32Direct (burstMaster40 c) w.1 w.2) b).dma.1.engine.ctrlCoeff = testCoeff := by
  obtain ⟨h2, h3, h4, -, -⟩ := regAddresses
  simp [ddrProgram, ctrlCoeff_iowr, h2, h3, h4, regAddress_regCoeff]

/-- The words between the source and the destination are more than are transferred. -/
theorem safe_ddrTransfer (f : BitVec 32 → BitVec 32) :
    (ddrTransfer.job f).Safe ddrToDdr := by
  have hlen : (ddrTransfer.job f).len = 262144 := by
    change (1048576 : BitVec 32).toNat / 4 = 262144
    decide
  have hsrc : (wordOf (ddrPhysBase + srcOffset)).toNat = 0xC400000 := by decide
  have hdst : (wordOf (ddrPhysBase + dstHwOffset)).toNat = 0xCC00000 := by decide
  refine safe_ddrToDdr ?_
  intro i k hik hk heq
  rw [hlen] at hk
  change wordOf (ddrPhysBase + dstHwOffset + _) = wordOf (ddrPhysBase + srcOffset + _) at heq
  rw [Transfer.addr_eq_index, Transfer.addr_eq_index, wordOf_index, wordOf_index,
    ← BitVec.toNat_inj, BitVec.toNat_add, BitVec.toNat_add, BitVec.toNat_ofNat,
    BitVec.toNat_ofNat, hsrc, hdst] at heq
  omega

/-- The second test has scaled the words at the source to the destination, and changed
nothing else. -/
structure DdrTransferred (b t : Board σ) : Prop where
  window : t.window = b.window
  dst : ∀ i, i < ddrTestWords →
    t.mem.ddr (wordOf (index (ddrPhysBase + dstHwOffset) i)) =
      scaled testCoeff (b.mem.ddr (wordOf (index (ddrPhysBase + srcOffset) i)))
  rest : ∀ w, (∀ i, i < ddrTestWords → wordOf (index (ddrPhysBase + dstHwOffset) i) ≠ w) →
    t.mem.ddr w = b.mem.ddr w

/-- The transfer of the second test. -/
theorem exists_ddrTransfer (hserves : c.Serves)
    (h : (BurstStream.system BurstParams4.standard).Rested b.dma.1) :
    ∃ fuel t, transfer (burstMaster40 c) fuel ddrProgram b = some t ∧
      (BurstStream.system BurstParams4.standard).Rested t.dma.1 ∧ DdrTransferred b t := by
  have hT : ddrTransfer.Configured
      (BurstSystem.csrAfter (ddrProgram.take 6) b.dma.1.engine.ctl.csr) := by
    have hstart : b.dma.1.engine.ctl.csr.ctrlStart = false := h.start
    rw [csrAfter_ddrProgram hstart]
    exact ⟨rfl, rfl, rfl, rfl, rfl⟩
  have hop : (BurstStream.system BurstParams4.standard).op ((ddrProgram.take 6).foldl
      (fun b w => b.iowr32Direct (burstMaster40 c) w.1 w.2) b).dma.1 =
        scaled testCoeff := by
    rw [← ctrlCoeff_ddrProgram (c := c) (b := b)]
    rfl
  have hdepth : 511 ≤ BurstParams4.standard.fifoDepth := by decide
  obtain ⟨fuel, t, ht, hrest, -, hwindow, hmem⟩ :=
    BurstSystem.exists_transfer hserves showsDone_burstMaster40 h noStart_ddrProgram
      hT (BurstStream.advancing BurstParams4.standard hdepth _) hop (safe_ddrTransfer _)
  have hlen : ddrTransfer.words = ddrTestWords := by
    change (1048576 : BitVec 32).toNat / 4 = 262144
    decide
  refine ⟨fuel, t, ht, hrest, hwindow, ?_, ?_⟩
  · intro i hi
    rw [← hlen] at hi
    rw [hmem]
    exact Transfer.copied_dst writes_ddrToDdr hi
  · intro w hw
    rw [← hlen] at hw
    rw [hmem]
    exact Transfer.copied_apart writes_ddrToDdr hw

theorem dma_ddrPrepare (b : Board σ) : (ddrPrepare b).dma = b.dma := by
  have hcopy : (ddrPrepare b).dma = (ddrFill b).dma :=
    dma_forLoop (fun i b => Board.dma_store _ _ _) _
  refine hcopy.trans (dma_forLoop ?_ b)
  intro i b
  rw [Board.dma_store, Board.dma_store, Board.dma_store]

/-- The second test on the engine of the board. -/
theorem exists_runDdrToDdrTest (hserves : c.Serves)
    (h : (BurstStream.system BurstParams4.standard).Rested b.dma.1) :
    ∃ fuel t, runDdrToDdrTest (burstMaster40 c) fuel b = some (ddrReport t, t) ∧
      (BurstStream.system BurstParams4.standard).Rested t.dma.1 ∧
        DdrTransferred (ddrPrepare b) t := by
  have hrested :
      (BurstStream.system BurstParams4.standard).Rested (ddrPrepare b).dma.1 := by
    rw [dma_ddrPrepare]
    exact h
  obtain ⟨fuel, t, ht, hrest, hdone⟩ := exists_ddrTransfer hserves hrested
  exact ⟨fuel, t, Option.map_eq_some_iff.2 ⟨t, ht, rfl⟩, hrest, hdone⟩

/-- Words within one of each other are no error. -/
theorem not_ddrError_of_within1 {hw sw : BitVec 32} (h : Within1 hw sw) :
    ¬ ddrError hw sw := by
  obtain ⟨hle, hge⟩ := h
  have hhw := hw.isLt
  have hsw := sw.isLt
  rw [ddrError, BitVec.toInt_eq_toNat_cond, BitVec.toNat_sub]
  split <;> omega

/-- With the window at the destination the test fills the source. -/
theorem ddrPrepare_source {b : Board σ} (hwindow : wordOf b.window = wordOf ddrPhysBase)
    {i : Nat} (hi : i < ddrTestWords) :
    (ddrPrepare b).mem.ddr (wordOf (index (ddrPhysBase + srcOffset) i)) =
      BitVec.ofNat 32 (i + 1023) := by
  obtain ⟨hfilled, -⟩ := ddr_prepared b
  have hplace : index (ddrPhysBase + srcOffset) i = index ddrPhysBase (0x400000 + i) :=
    index_add ddrPhysBase 0x400000 i
  have hword := hfilled.src i hi
  rw [Board.windowWord, hfilled.window, hwindow, ← wordOf_index, ← hplace] at hword
  exact hword.trans (BitVec.ofNat_add i 1023).symm

/-- With the window at the destination the test checks the words that were transferred. -/
theorem DdrTransferred.report_success {b t : Board σ} (h : DdrTransferred (ddrPrepare b) t)
    (hwindow : wordOf b.window = wordOf ddrPhysBase)
    (hright : ∀ i, i < 1024 → Within1 (t.mem.ddr (wordOf (index (ddrPhysBase + dstHwOffset) i)))
      (swScaled testCoeff
        ((ddrPrepare b).mem.ddr (wordOf (index (ddrPhysBase + srcOffset) i))))) :
    ddrReport t = .success := by
  obtain ⟨hfilled, hsw⟩ := ddr_prepared b
  have hN : ddrTestWords = 262144 := rfl
  have hplace : ∀ i, index (ddrPhysBase + dstHwOffset) i =
      index ddrPhysBase (0xC00000 + i) :=
    index_add ddrPhysBase 0xC00000
  have hword : ∀ j, t.windowWord j = t.mem.ddr (wordOf (index ddrPhysBase j)) := by
    intro j
    rw [Board.windowWord, h.window, hfilled.window, hwindow, ← wordOf_index]
  refine ddrReport_eq_success_iff.2 ?_
  intro i hi
  have hkeep : t.windowWord (0x800000 + i) =
      swScaled testCoeff (BitVec.ofNat 32 (i + 1023)) := by
    rw [hword, BitVec.ofNat_add]
    refine Eq.trans (h.rest _ ?_) ?_
    · intro k hk heq
      rw [hplace] at heq
      exact absurd (Transfer.wordOf_index_inj (by omega) (by omega) heq) (by omega)
    · rw [wordOf_index, ← hwindow, ← hfilled.window]
      exact hsw i (by omega)
  have hsource := hright i hi
  rw [ddrPrepare_source hwindow (by omega), hplace, ← hword] at hsource
  rw [hkeep]
  exact not_ddrError_of_within1 hsource

end Ddr

section Results

variable {b0 : Board ((BurstCopy BurstParams.standard) × Nat)}
  {b4 : Board ((BurstStream BurstParams4.standard) × Nat)}

/-- **The first test on the engine of the board.**  From an engine that is ready, after
reset or after the test, under slaves that serve again and again, however they stall,
the test returns with the expected words at the destination and the engine ready for
the next test.  It prints SUCCESS if and only if the window begins at the destination
or does not overlap it. -/
theorem runOcmToDdrTest_hardware (hserves : c.Serves) (h : Ready0 b0.dma.1)
    (buf : OcmBuffer) :
    ∃ fuel r t, runOcmToDdrTest (burstMaster0 c) fuel buf b0 = some (r, t) ∧ Ready0 t.dma.1 ∧
      OcmCopied t.mem ∧ (r = .success ↔ OcmWindowApart b0.window) :=
  exists_runOcmToDdrTest hserves h buf

/-- After reset the engines are ready. -/
theorem ready0_init : Ready0 (BurstCopy.init fun _ => 0) :=
  ⟨⟨BurstCopy.clean_init _, rfl, rfl⟩, Or.inl rfl⟩

theorem rested_init : (BurstStream.system BurstParams4.standard).Rested
    (BurstStream.init (fun _ => 0) (fun _ => 0)) :=
  ⟨BurstStream.clean_init _ _, rfl, rfl⟩

/-- The slaves answer at once. -/
def promptly : Timing where
  rmWaitrequest := fun _ => false
  replies := fun _ => true
  wmWaitrequest := fun _ => false
  delay := fun _ => 0

theorem serves_promptly : promptly.Serves := by
  intro k t
  refine ⟨0, ?_⟩
  cases k <;> rfl

/-- `burst_master_0` after reset, with the window at another place than the destination. -/
def boardOcm : Board ((BurstCopy BurstParams.standard) × Nat) :=
  ⟨0x20000000, sevens, (BurstCopy.init (fun _ => 0), 0)⟩

theorem runOcmToDdrTest_hardware_boardOcm :
    ∃ fuel r t, runOcmToDdrTest (burstMaster0 promptly) fuel linkedBuffer boardOcm = some (r, t) ∧
      Ready0 t.dma.1 ∧ OcmCopied t.mem ∧ (r = .success ↔ OcmWindowApart boardOcm.window) :=
  runOcmToDdrTest_hardware serves_promptly (show Ready0 boardOcm.dma.1 from ready0_init)
    linkedBuffer

/-- Option 1 of the menu on the engine of the board. -/
theorem menuOcm_hardware (hserves : c.Serves) (h : Ready0 b0.dma.1) (buf : OcmBuffer) :
    ∃ fuel t, menuOcm (burstMaster0 c) fuel buf b0 = some (.success, t) ∧ Ready0 t.dma.1 ∧
      OcmCopied t.mem := by
  obtain ⟨fuel, r, t, ht, hready, hcopied, hsuccess⟩ :=
    exists_runOcmToDdrTest (b := { b0 with window := 0x20000000 }) hserves h buf
  have hapart : OcmWindowApart 0x20000000 := by decide
  rw [hsuccess.2 hapart] at ht
  exact ⟨fuel, _, Option.map_eq_some_iff.2 ⟨_, ht, rfl⟩, hready, hcopied⟩

/-- `burst_master_4_0` after reset. -/
def boardDdr (window : BitVec 32) : Board ((BurstStream BurstParams4.standard) × Nat) :=
  ⟨window, sevens, (BurstStream.init (fun _ => 0) (fun _ => 0), 0)⟩

/-- **Option 2 of the menu on the engine of the board.**  From an engine at rest, under
slaves that serve again and again, the test returns with the engine at rest, the words
of the source are at the destination, scaled, and the test prints an error for each of
the words that it checks. -/
theorem menuDdr_hardware (hserves : c.Serves)
    (h : (BurstStream.system BurstParams4.standard).Rested b4.dma.1) :
    ∃ fuel t, menuDdr (burstMaster40 c) fuel b4 = some (.failure 1024, t) ∧
      (BurstStream.system BurstParams4.standard).Rested t.dma.1 ∧
        ∀ i, i < ddrTestWords → t.mem.ddr (wordOf (index (ddrPhysBase + dstHwOffset) i)) =
          scaled testCoeff (b4.mem.ddr (wordOf (index (ddrPhysBase + srcOffset) i))) := by
  obtain ⟨fuel, t, ht, hrest, hdone⟩ :=
    exists_runDdrToDdrTest (b := { b4 with window := 0x20000000 }) hserves h
  obtain ⟨hfilled, -⟩ := ddr_prepared { b4 with window := 0x20000000 }
  have hwindow : t.window = 0x20000000 := hdone.window.trans hfilled.window
  have hkeep : ∀ j, j < 2 ^ 25 →
      t.windowWord j = (ddrPrepare { b4 with window := 0x20000000 }).windowWord j := by
    intro j hj
    rw [Board.windowWord, Board.windowWord, hwindow, hfilled.window]
    refine hdone.rest _ ?_
    intro k hk heq
    have habove := above_window (p := ddrPhysBase + dstHwOffset) (by decide) (by decide) hk
    rw [heq, BitVec.add_comm, BitVec.add_sub_cancel, BitVec.toNat_ofNat] at habove
    omega
  have hreport := ddr_failure_of_untouched ht fun i hi =>
    ⟨hkeep (0xC00000 + i) (by omega), hkeep (0x800000 + i) (by omega)⟩
  rw [hreport] at ht
  refine ⟨fuel, _, Option.map_eq_some_iff.2 ⟨_, ht, rfl⟩, hrest, ?_⟩
  intro i hi
  have hsrc := hfilled.rest _
    (above_window (p := ddrPhysBase + srcOffset) (by decide) (by decide) hi)
  rw [← show _ = b4.mem.ddr _ from hsrc]
  exact hdone.dst i hi

theorem menuDdr_hardware_boardDdr :
    ∃ fuel t, menuDdr (burstMaster40 promptly) fuel (boardDdr 0x30000000) =
        some (.failure 1024, t) ∧
      (BurstStream.system BurstParams4.standard).Rested t.dma.1 ∧
        ∀ i, i < ddrTestWords → t.mem.ddr (wordOf (index (ddrPhysBase + dstHwOffset) i)) =
          scaled testCoeff ((boardDdr 0x30000000).mem.ddr
            (wordOf (index (ddrPhysBase + srcOffset) i))) :=
  menuDdr_hardware serves_promptly
    (show (BurstStream.system _).Rested (boardDdr 0x30000000).dma.1 from rested_init)

/-- **The second test with the window at its destination.**  From an engine at rest,
under slaves that serve again and again, the test returns with the engine at rest and
prints SUCCESS, though exactly the first 42668 of the words at the destination are
scaled right. -/
theorem runDdrToDdrTest_hardware (hserves : c.Serves)
    (h : (BurstStream.system BurstParams4.standard).Rested b4.dma.1)
    (hwindow : wordOf b4.window = wordOf ddrPhysBase) :
    ∃ fuel t, runDdrToDdrTest (burstMaster40 c) fuel b4 = some (.success, t) ∧
      (BurstStream.system BurstParams4.standard).Rested t.dma.1 ∧
        ∀ i, i < ddrTestWords →
          (Within1 (t.mem.ddr (wordOf (index (ddrPhysBase + dstHwOffset) i)))
            (swScaled testCoeff
              ((ddrPrepare b4).mem.ddr (wordOf (index (ddrPhysBase + srcOffset) i)))) ↔
            i < 42668) := by
  obtain ⟨fuel, t, ht, hrest, hdone⟩ := exists_runDdrToDdrTest hserves h
  have hN : ddrTestWords = 262144 := rfl
  have hiff : ∀ i, i < ddrTestWords →
      (Within1 (t.mem.ddr (wordOf (index (ddrPhysBase + dstHwOffset) i)))
        (swScaled testCoeff
          ((ddrPrepare b4).mem.ddr (wordOf (index (ddrPhysBase + srcOffset) i)))) ↔
        i < 42668) := by
    intro i hi
    rw [hdone.dst i hi, ddrPrepare_source hwindow hi, ← hwScaled_eq]
    exact scaler_test_word_iff i hi
  have hreport : ddrReport t = .success := by
    refine hdone.report_success hwindow ?_
    intro i hi
    exact (hiff i (by omega)).2 (by omega)
  rw [hreport] at ht
  exact ⟨fuel, t, ht, hrest, hiff⟩

theorem runDdrToDdrTest_hardware_boardDdr :
    ∃ fuel t, runDdrToDdrTest (burstMaster40 promptly) fuel (boardDdr 0x30000000) =
        some (.success, t) ∧
      (BurstStream.system BurstParams4.standard).Rested t.dma.1 ∧
        ∀ i, i < ddrTestWords →
          (Within1 (t.mem.ddr (wordOf (index (ddrPhysBase + dstHwOffset) i)))
            (swScaled testCoeff ((ddrPrepare (boardDdr 0x30000000)).mem.ddr
              (wordOf (index (ddrPhysBase + srcOffset) i)))) ↔ i < 42668) :=
  runDdrToDdrTest_hardware serves_promptly
    (show (BurstStream.system _).Rested (boardDdr 0x30000000).dma.1 from rested_init) rfl

end Results

end SelfTest
end VideoProcessing
