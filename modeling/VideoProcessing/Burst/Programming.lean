import VideoProcessing.Burst.Copy
import VideoProcessing.Burst.Padding
import VideoProcessing.Burst.StartAgreement

/-!
# The order of the configuration writes

A driver programs a transfer with one write to each of `SRC`, `DST`, `LEN`,
`RD_BURST` and `WR_BURST`.  Four of the registers hold what is written to them;
`LEN` is padded with the read burst that is stored when it is written, which is
why the source asks for `RD_BURST` first.  `registers_of_program` says what any
order of the five writes leaves behind.
-/

namespace VideoProcessing

open Lib

deriving instance DecidableEq for AvsIn

namespace AvsIn

/-- The data of a write to register `a`. -/
def written (a : BitVec 3) (i : AvsIn) : Option (BitVec 32) :=
  if i.avsWrite && i.avsAddress == a then some i.avsWritedata else Option.none

@[simp] theorem written_write (a b : BitVec 3) (d : BitVec 32) :
    (AvsIn.write b d).written a = if b = a then some d else Option.none := by
  simp [written, AvsIn.write]

end AvsIn

namespace BurstCsr

variable (s : BurstCsr) (done : Bool) (i : AvsIn)

/-- What the five configuration registers hold after a cycle. -/
theorem step_registers :
    (s.step done i).ctrlSrcAddr = (i.written 2).getD s.ctrlSrcAddr ∧
    (s.step done i).ctrlDstAddr = (i.written 3).getD s.ctrlDstAddr ∧
    (s.step done i).ctrlLen = ((i.written 4).map (padLen s.ctrlRdBurst)).getD s.ctrlLen ∧
    (s.step done i).ctrlRdBurst =
      ((i.written 5).map (BitVec.setWidth 9)).getD s.ctrlRdBurst ∧
    (s.step done i).ctrlWrBurst =
      ((i.written 6).map (BitVec.setWidth 9)).getD s.ctrlWrBurst := by
  obtain ⟨w, a, d⟩ := i
  cases w with
  | false => simp [step, AvsIn.written]
  | true =>
      have ha : a = 0 ∨ a = 1 ∨ a = 2 ∨ a = 3 ∨ a = 4 ∨ a = 5 ∨ a = 6 ∨ a = 7 := by
        revert a
        decide
      rcases ha with rfl | rfl | rfl | rfl | rfl | rfl | rfl | rfl <;>
        simp [step, write, AvsIn.written]

end BurstCsr

/-- The five configuration writes of a driver; the bursts are powers of two. -/
structure Program where
  src : BitVec 32
  dst : BitVec 32
  len : BitVec 32
  rdLog : Nat
  wrLog : Nat
  rdLog_le : rdLog ≤ 8
  wrLog_le : wrLog ≤ 8

namespace Program

variable (p : Program)

/-- The read burst. -/
def rb : BitVec 9 := BitVec.ofNat 9 (2 ^ p.rdLog)

/-- The write burst. -/
def wb : BitVec 9 := BitVec.ofNat 9 (2 ^ p.wrLog)

/-- The write of the length. -/
def lenWrite : AvsIn := AvsIn.write 4 p.len

/-- The write of the read burst. -/
def rdWrite : AvsIn := AvsIn.write 5 (BitVec.ofNat 32 (2 ^ p.rdLog))

/-- The five writes, in the order of `run_ocm_to_ddr_test`. -/
def writes : List AvsIn :=
  [AvsIn.write 2 p.src, AvsIn.write 3 p.dst, p.lenWrite, p.rdWrite,
    AvsIn.write 6 (BitVec.ofNat 32 (2 ^ p.wrLog))]

/-- The CSR writes of a list of cycles. -/
def writesOf (cs : List BurstCycle) : List AvsIn :=
  (cs.map BurstCycle.avs).filter AvsIn.avsWrite

/-- The cycles make the five writes, in any order and with any cycles without a
write in between. -/
def Writes (cs : List BurstCycle) : Prop :=
  (writesOf cs).Perm p.writes

instance (cs : List BurstCycle) : Decidable (p.Writes cs) := by
  unfold Writes
  infer_instance

/-- `RD_BURST` is written before `LEN`. -/
def RdFirst (cs : List BurstCycle) : Prop :=
  ∃ pre c post, cs = pre ++ c :: post ∧ c.avs = p.lenWrite ∧
    ∃ c' ∈ pre, c'.avs = p.rdWrite

/-- A burst count survives the nine bits of its register. -/
theorem setWidth_burst (n : Nat) : (BitVec.ofNat 32 n).setWidth 9 = BitVec.ofNat 9 n := by
  apply BitVec.eq_of_toNat_eq
  simp only [BitVec.toNat_setWidth, BitVec.toNat_ofNat]
  exact Nat.mod_mod_of_dvd n (by decide)

theorem two_pow_le {k : Nat} (hk : k ≤ 8) : 2 ^ k ≤ 256 :=
  Nat.pow_le_pow_right (n := 2) (by decide) hk

theorem toNat_rb : p.rb.toNat = 2 ^ p.rdLog := by
  have := two_pow_le p.rdLog_le
  rw [rb, BitVec.toNat_ofNat, Nat.mod_eq_of_lt (by omega)]

theorem toNat_wb : p.wb.toNat = 2 ^ p.wrLog := by
  have := two_pow_le p.wrLog_le
  rw [wb, BitVec.toNat_ofNat, Nat.mod_eq_of_lt (by omega)]

/-- A power of two pads to the least multiple. -/
theorem toNat_padLen_two_pow {rb : BitVec 9} {k : Nat} (hrb : rb.toNat = 2 ^ k)
    {len : BitVec 32} (hfit : roundUp (4 * 2 ^ k) len.toNat < 2 ^ 32) :
    (BurstCsr.padLen rb len).toNat = roundUp (4 * 2 ^ k) len.toNat := by
  have hpos : 0 < rb.toNat := by
    rw [hrb]
    exact Nat.two_pow_pos k
  have hmask : MaskRounds (4 * rb.toNat) len.toNat := by
    rw [hrb, Nat.mul_comm, show 2 ^ k * 4 = 2 ^ (k + 2) from (Nat.pow_add 2 k 2).symm]
    exact maskRounds_two_pow _ _
  rw [← hrb] at hfit ⊢
  exact (BurstCsr.padLen_eq_roundUp_iff hpos hfit).2 hmask

/-- What is stored is always a multiple of the burst. -/
theorem dvd_padLen {rb : BitVec 9} {k : Nat} (hk : k ≤ 8) (hrb : rb.toNat = 2 ^ k)
    (len : BitVec 32) : 4 * 2 ^ k ∣ (BurstCsr.padLen rb len).toNat := by
  rw [BurstCsr.padLen_eq, hrb, Nat.mul_comm,
    show 2 ^ k * 4 = 2 ^ (k + 2) from (Nat.pow_add 2 k 2).symm]
  exact two_pow_dvd_mask (by omega) _

/-- With the read burst of the program the length is padded to the least
multiple. -/
theorem toNat_padLen {k : Nat} (hk : IsLeast {k | 4 * 2 ^ p.rdLog ∣ k ∧ p.len.toNat ≤ k} k)
    (hlt : k < 2 ^ 32) : (BurstCsr.padLen p.rb p.len).toNat = k := by
  have hleast := isLeast_roundUp (m := 4 * 2 ^ p.rdLog) (n := p.len.toNat)
    (Nat.mul_pos (by decide) (Nat.two_pow_pos _))
  rw [hk.unique hleast] at hlt ⊢
  exact toNat_padLen_two_pow p.toNat_rb hlt

/-- The data written to register `a`, in order. -/
theorem filterMap_written (a : BitVec 3) (cs : List BurstCycle) :
    cs.filterMap (fun c => c.avs.written a) =
      (writesOf cs).filterMap (AvsIn.written a) := by
  induction cs with
  | nil => rfl
  | cons c cs ih =>
      have hcons : writesOf (c :: cs) =
          (if c.avs.avsWrite then [c.avs] else []) ++ writesOf cs := by
        cases hw : c.avs.avsWrite <;> simp [writesOf, hw]
      rw [List.filterMap_cons, ih, hcons, List.filterMap_append]
      cases hw : c.avs.avsWrite with
      | false => simp [AvsIn.written, hw]
      | true => cases hd : c.avs.written a <;> simp [hd]

variable {p} {cs : List BurstCycle}

/-- A register that the program writes once gets that data and no other. -/
theorem Writes.written (h : p.Writes cs) {a : BitVec 3} {d : BitVec 32}
    (hd : p.writes.filterMap (AvsIn.written a) = [d]) :
    cs.filterMap (fun c => c.avs.written a) = [d] := by
  have hperm := h.filterMap (AvsIn.written a)
  rw [hd, List.perm_singleton] at hperm
  rw [filterMap_written, hperm]

/-- The only write to `RD_BURST`. -/
theorem Writes.eq_rdWrite (h : p.Writes cs) {c : BurstCycle} (hc : c ∈ cs)
    (hset : c.avs.written 5 ≠ none) : c.avs = p.rdWrite := by
  have hwrite : c.avs.avsWrite = true := by
    by_contra hno
    exact hset (by simp [AvsIn.written, hno])
  have hmem : c.avs ∈ p.writes :=
    h.mem_iff.1 (List.mem_filter.2 ⟨List.mem_map_of_mem hc, hwrite⟩)
  simp only [writes, List.mem_cons, List.not_mem_nil, or_false] at hmem
  rcases hmem with he | he | he | he | he
  · exact absurd (by simp [he]) hset
  · exact absurd (by simp [he]) hset
  · exact absurd (by simp [he, lenWrite]) hset
  · exact he
  · exact absurd (by simp [he]) hset

/-- The program starts nothing. -/
theorem Writes.no_start (h : p.Writes cs) {c : BurstCycle} (hc : c ∈ cs) :
    c.avs.start = false := by
  cases hw : c.avs.avsWrite with
  | false => simp [AvsIn.start, hw]
  | true =>
      have hmem : c.avs ∈ p.writes :=
        h.mem_iff.1 (List.mem_filter.2 ⟨List.mem_map_of_mem hc, hw⟩)
      simp only [writes, List.mem_cons, List.not_mem_nil, or_false] at hmem
      rcases hmem with he | he | he | he | he <;> rw [he] <;> rfl

/-- No other cycle of the program writes the register. -/
theorem Writes.split (h : p.Writes cs) {a : BitVec 3} {d : BitVec 32}
    (hd : p.writes.filterMap (AvsIn.written a) = [d]) {pre post : List BurstCycle}
    {c : BurstCycle} (hcs : cs = pre ++ c :: post) (hc : c.avs.written a = some d) :
    pre.filterMap (fun c => c.avs.written a) = [] ∧
      post.filterMap (fun c => c.avs.written a) = [] := by
  have hall := h.written hd
  rw [hcs, List.filterMap_append, List.filterMap_cons, hc] at hall
  have hlen := congrArg List.length hall
  simp only [List.length_append, List.length_cons, List.length_nil] at hlen
  exact ⟨List.eq_nil_of_length_eq_zero (by omega),
    List.eq_nil_of_length_eq_zero (by omega)⟩

end Program

namespace BurstCopy

variable {P : BurstParams} (s : BurstCopy P) {p : Program} {cs : List BurstCycle}

section Registers

/-- What the five configuration registers hold after a cycle. -/
theorem step_registers (s : BurstCopy P) (c : BurstCycle) :
    let csr := s.engine.ctl.csr
    let csr' := (step s c).engine.ctl.csr
    csr'.ctrlSrcAddr = (c.avs.written 2).getD csr.ctrlSrcAddr ∧
    csr'.ctrlDstAddr = (c.avs.written 3).getD csr.ctrlDstAddr ∧
    csr'.ctrlLen = ((c.avs.written 4).map (BurstCsr.padLen csr.ctrlRdBurst)).getD csr.ctrlLen ∧
    csr'.ctrlRdBurst = ((c.avs.written 5).map (BitVec.setWidth 9)).getD csr.ctrlRdBurst ∧
    csr'.ctrlWrBurst = ((c.avs.written 6).map (BitVec.setWidth 9)).getD csr.ctrlWrBurst :=
  BurstCsr.step_registers _ _ _

/-- The length is padded with the read burst stored in the cycle of its write. -/
theorem run_ctrlLen (pre : List BurstCycle) {post : List BurstCycle} {c : BurstCycle}
    {d : BitVec 32}
    (hc : c.avs.written 4 = some d)
    (hpost : post.filterMap (fun c => c.avs.written 4) = []) :
    (run step s (pre ++ c :: post)).engine.ctl.csr.ctrlLen =
      BurstCsr.padLen (run step s pre).engine.ctl.csr.ctrlRdBurst d := by
  have hlen := fun (s : BurstCopy P) c => (step_registers s c).2.2.1
  rw [run_append, run_cons, run_keeps fun s : BurstCopy P => s.engine.ctl.csr.ctrlLen]
  · rw [hlen, hc]
    rfl
  · intro s c' hc'
    rw [hlen, List.filterMap_eq_nil_iff.1 hpost c' hc']
    rfl

/-- The read burst holds the last one written. -/
theorem run_ctrlRdBurst (cs : List BurstCycle) :
    (run step s cs).engine.ctl.csr.ctrlRdBurst =
      ((cs.filterMap fun c => c.avs.written 5).getLast?.map (BitVec.setWidth 9)).getD
        s.engine.ctl.csr.ctrlRdBurst := by
  have hrun := run_last_set (fun s : BurstCopy P => s.engine.ctl.csr.ctrlRdBurst)
    (fun c => ((BurstCycle.avs c).written 5).map (BitVec.setWidth 9))
    (fun s c => (step_registers s c).2.2.2.1) cs s
  have hmap : cs.filterMap (fun c => (c.avs.written 5).map (BitVec.setWidth 9)) =
      (cs.filterMap fun c => c.avs.written 5).map (BitVec.setWidth 9) := by
    rw [List.map_filterMap]
  rw [hmap, List.getLast?_map] at hrun
  exact hrun

/-- With `RD_BURST` first the length is padded with the burst of the program: nothing else
writes the register before. -/
theorem ctrlLen_of_rdFirst (h : p.Writes cs) (hfirst : p.RdFirst cs) :
    (run step s cs).engine.ctl.csr.ctrlLen = BurstCsr.padLen p.rb p.len := by
  obtain ⟨pre, c, post, hcs, hc, c', hc', hrdw⟩ := hfirst
  have hlen : p.writes.filterMap (AvsIn.written 4) = [p.len] := by
    simp [Program.writes, Program.lenWrite, Program.rdWrite]
  have hrd : p.writes.filterMap (AvsIn.written 5) = [BitVec.ofNat 32 (2 ^ p.rdLog)] := by
    simp [Program.writes, Program.lenWrite, Program.rdWrite]
  have hc4 : c.avs.written 4 = some p.len := by simp [hc, Program.lenWrite]
  have hc5 : c'.avs.written 5 = some (BitVec.ofNat 32 (2 ^ p.rdLog)) := by
    simp [hrdw, Program.rdWrite]
  have hpre : pre.filterMap (fun c => c.avs.written 5) =
      [BitVec.ofNat 32 (2 ^ p.rdLog)] := by
    obtain ⟨u, v, rfl⟩ := List.append_of_mem hc'
    obtain ⟨hu, hv⟩ :=
      h.split hrd (show cs = u ++ c' :: (v ++ c :: post) by simp [hcs]) hc5
    rw [List.filterMap_append, List.append_eq_nil_iff] at hv
    rw [List.filterMap_append, hu, List.filterMap_cons, hc5, hv.1]
    rfl
  have hburst := run_ctrlRdBurst s pre
  rw [hpre] at hburst
  have hrb : (run step s pre).engine.ctl.csr.ctrlRdBurst = p.rb :=
    hburst.trans (Program.setWidth_burst _)
  have hrun := run_ctrlLen s pre hc4 (h.split hlen hcs hc4).2
  rw [hrb, ← hcs] at hrun
  exact hrun

/-- Otherwise it is padded with the burst that was stored before. -/
theorem ctrlLen_of_late (h : p.Writes cs) (hlate : ¬ p.RdFirst cs) :
    (run step s cs).engine.ctl.csr.ctrlLen =
      BurstCsr.padLen s.engine.ctl.csr.ctrlRdBurst p.len := by
  have hlen : p.writes.filterMap (AvsIn.written 4) = [p.len] := by
    simp [Program.writes, Program.lenWrite, Program.rdWrite]
  have hmem : p.lenWrite ∈ Program.writesOf cs :=
    h.mem_iff.2 (by simp [Program.writes])
  obtain ⟨c, hcmem, hc⟩ := List.mem_map.1 (List.mem_filter.1 hmem).1
  obtain ⟨pre, post, hcs⟩ := List.append_of_mem hcmem
  have hc4 : c.avs.written 4 = some p.len := by simp [hc, Program.lenWrite]
  have hpre : pre.filterMap (fun c => c.avs.written 5) = [] := by
    rw [List.filterMap_eq_nil_iff]
    intro c' hc'
    by_contra hset
    refine hlate ⟨pre, c, post, hcs, hc, c', hc', ?_⟩
    exact h.eq_rdWrite (by simp [hcs, hc']) hset
  have hburst := run_ctrlRdBurst s pre
  rw [hpre] at hburst
  have hold : (run step s pre).engine.ctl.csr.ctrlRdBurst = s.engine.ctl.csr.ctrlRdBurst :=
    hburst
  have hrun := run_ctrlLen s pre hc4 (h.split hlen hcs hc4).2
  rw [hold, ← hcs] at hrun
  exact hrun

/-- What the program leaves in the registers it writes: only the length depends
on the order, and then only on the read burst it meets. -/
theorem registers_of_program (h : p.Writes cs) :
    let csr := (run step s cs).engine.ctl.csr
    csr.ctrlSrcAddr = p.src ∧ csr.ctrlDstAddr = p.dst ∧ csr.ctrlRdBurst = p.rb ∧
      csr.ctrlWrBurst = p.wb ∧
      (p.RdFirst cs → csr.ctrlLen = BurstCsr.padLen p.rb p.len) ∧
      (¬ p.RdFirst cs →
        csr.ctrlLen = BurstCsr.padLen s.engine.ctl.csr.ctrlRdBurst p.len) := by
  intro csr
  have hsrc := h.written (a := 2) (d := p.src)
    (by simp [Program.writes, Program.lenWrite, Program.rdWrite])
  have hdst := h.written (a := 3) (d := p.dst)
    (by simp [Program.writes, Program.lenWrite, Program.rdWrite])
  have hrd : p.writes.filterMap (AvsIn.written 5) = [BitVec.ofNat 32 (2 ^ p.rdLog)] := by
    simp [Program.writes, Program.lenWrite, Program.rdWrite]
  have hwr := h.written (a := 6) (d := BitVec.ofNat 32 (2 ^ p.wrLog))
    (by simp [Program.writes, Program.lenWrite, Program.rdWrite])
  refine ⟨?_, ?_, ?_, ?_, ctrlLen_of_rdFirst s h, ctrlLen_of_late s h⟩
  · have hrun := run_last_set (fun s : BurstCopy P => s.engine.ctl.csr.ctrlSrcAddr)
      (fun c => (BurstCycle.avs c).written 2) (fun s c => (step_registers s c).1) cs s
    rw [hsrc] at hrun
    exact hrun
  · have hrun := run_last_set (fun s : BurstCopy P => s.engine.ctl.csr.ctrlDstAddr)
      (fun c => (BurstCycle.avs c).written 3) (fun s c => (step_registers s c).2.1) cs s
    rw [hdst] at hrun
    exact hrun
  · have hrun := run_ctrlRdBurst s cs
    rw [h.written hrd] at hrun
    exact hrun.trans (Program.setWidth_burst _)
  · have hrun := run_last_set (fun s : BurstCopy P => s.engine.ctl.csr.ctrlWrBurst)
      (fun c => ((BurstCycle.avs c).written 6).map (BitVec.setWidth 9))
      (fun s c => (step_registers s c).2.2.2.2) cs s
    rw [← List.map_filterMap, hwr] at hrun
    exact hrun.trans (Program.setWidth_burst _)

end Registers

end BurstCopy

section Beats

/-- What the write master is doing when `m` beats are taken and `y` words are
stored, with bursts of `wb` words; nothing is asked of the length. -/
inductive BeatPhase (dst : BitVec 32) (wb : BitVec 9) (s : BurstBus) (m y : Nat) : Prop
  | idle (state : s.ctl.wm.wmFsm = .wIdle) (write : s.ctl.wm.wmWrite = false)
  | wait (state : s.ctl.wm.wmFsm = .wWaitData) (write : s.ctl.wm.wmWrite = false)
      (addr : s.ctl.wm.currentDstAddr = dst + 4 * BitVec.ofNat 32 m)
      (left : s.mem.beatsLeft = 0)
  | burst (on : OnBurst wb s.ctl.wm s.mem)
      (addr : s.ctl.wm.currentDstAddr + 4 * BitVec.ofNat 32 s.ctl.wm.wmWordCnt.toNat =
        dst + 4 * BitVec.ofNat 32 m)
      (stored : wb.toNat ≤ s.ctl.wm.wmWordCnt.toNat + y)

namespace BeatPhase

variable {P : BurstParams} {s : BurstBus} {dst : BitVec 32} {wb : BitVec 9} {m y : Nat}

/-- `fifo_rd_en` takes a word from the FIFO exactly when the slave takes a beat. -/
theorem fifoRdEn (h : BeatPhase dst wb s m y) (c : BurstCycle) :
    s.ctl.wm.fifoRdEn c.wmWaitrequest = s.takesBeat c := by
  cases h with
  | idle hs hw => simp [WriteMaster.fifoRdEn, BurstBus.takesBeat, hs, hw]
  | wait hs hw _ _ => simp [WriteMaster.fifoRdEn, BurstBus.takesBeat, hs, hw]
  | burst hon _ _ => exact hon.fifoRdEn c

/-- A beat carries the next address and finds a word. -/
theorem beat (h : BeatPhase dst wb s m y) {c : BurstCycle} (hbeat : s.takesBeat c = true) :
    s.beatAddr = dst + 4 * BitVec.ofNat 32 m ∧ 0 < y := by
  cases h with
  | idle _ hw => simp [BurstBus.takesBeat, hw] at hbeat
  | wait _ hw _ _ => simp [BurstBus.takesBeat, hw] at hbeat
  | burst hon haddr hstored =>
      have hlt := hon.lt
      exact ⟨hon.beatAddr.trans haddr, by omega⟩

/-- One cycle without a start pulse: the last beat of a burst, a beat in the middle of it,
or a stall. -/
theorem step (h : BeatPhase dst wb s m y) (hstart : s.ctl.csr.ctrlStart = false)
    (hwb : s.ctl.csr.ctrlWrBurst = wb) (hpos : 0 < wb.toNat) (hy : y < 2 ^ 32)
    (c : BurstCycle) {y' : Nat} (hy' : y ≤ y' + (s.takesBeat c).toNat)
    (rdUsed : BitVec 32) :
    BeatPhase dst wb (s.step P c rdUsed (BitVec.ofNat 32 y)) (m + (s.takesBeat c).toNat) y' := by
  have hmem : (s.step P c rdUsed (BitVec.ofNat 32 y)).mem = s.memNext c := rfl
  have hwm : (s.step P c rdUsed (BitVec.ofNat 32 y)).ctl.wm =
      s.ctl.wm.step (s.ctl.wmInputs (s.inputs c rdUsed (BitVec.ofNat 32 y))) := rfl
  have hwb9 := wb.isLt
  cases h with
  | idle hs hw =>
      rcases WriteMaster.step_wIdle
          (i := s.ctl.wmInputs (s.inputs c rdUsed (BitVec.ofNat 32 y))) hs with
        ⟨hc, _⟩ | ⟨_, he⟩
      · have hc' : s.ctl.csr.ctrlStart = true := hc
        exact absurd (hstart.symm.trans hc') (by decide)
      · rw [he] at hwm
        refine .idle ?_ ?_ <;> rw [hwm]
        exact hs
  | wait hs hw haddr hleft =>
      have hbeat : s.takesBeat c = false := by simp [BurstBus.takesBeat, hw]
      have hleft' : (s.memNext c).beatsLeft = 0 := by
        simp [BurstBus.memNext, hbeat, hleft]
      rw [hbeat, Bool.toNat_false] at hy' ⊢
      rcases WriteMaster.step_wWaitData
          (i := s.ctl.wmInputs (s.inputs c rdUsed (BitVec.ofNat 32 y))) hs with
        ⟨_, he⟩ | ⟨_, hused, he⟩ | ⟨_, _, he⟩ <;> rw [he] at hwm
      · refine .idle ?_ ?_ <;> rw [hwm]
      · have hcheck : s.ctl.csr.ctrlWrBurst.setWidth 32 ≤ BitVec.ofNat 32 y := hused
        rw [hwb, BitVec.le_def, Counter.toNat_ofNat_of_lt hy, BitVec.toNat_setWidth,
          Nat.mod_eq_of_lt (by omega)] at hcheck
        refine .burst ⟨?_, ?_, ?_, ?_, ?_, ?_, ?_⟩ ?_ ?_ <;> rw [hwm]
        · exact hwb
        · exact hpos
        · exact hleft'
        · intro hcnt
          have hcnt' : 0 < (0 : BitVec 9).toNat := hcnt
          exact absurd hcnt' (by decide)
        · simpa using haddr
        · change wb.toNat ≤ 0 + y'
          omega
      · refine .wait ?_ ?_ ?_ hleft' <;> rw [hwm]
        · exact hs
        · exact haddr
  | burst hon haddr hstored =>
      rcases hon.step_cases (P := P) c rdUsed (BitVec.ofNat 32 y) with
        ⟨hbeat, hl, hleft, he⟩ | ⟨hbeat, hcnt, he, hon'⟩ | ⟨hbeat, he, hon'⟩
      · rw [hbeat, Bool.toNat_true]
        refine .wait ?_ ?_ ?_ hleft
        · rw [he]
        · rw [he]
        · rw [he]
          change s.ctl.wm.currentDstAddr + _ = _
          rw [← addr_add, ← haddr, addr_add, hl]
      · rw [hbeat, Bool.toNat_true] at hy' ⊢
        have haddr' : (s.step P c rdUsed (BitVec.ofNat 32 y)).ctl.wm.currentDstAddr =
            s.ctl.wm.currentDstAddr := by rw [he]
        refine .burst hon' ?_ (by omega)
        rw [hcnt, haddr', ← addr_add, haddr, addr_add]
      · rw [hbeat, Bool.toNat_false] at hy' ⊢
        refine .burst hon' ?_ ?_
        · rw [he]
          exact haddr
        · rw [he]
          change wb.toNat ≤ s.ctl.wm.wmWordCnt.toNat + y'
          omega

end BeatPhase
end Beats

namespace BurstCopy

variable {P : BurstParams} {s : BurstCopy P} {T : Transfer} {wb : BitVec 9} {m : Nat}

section Reach

/-- A transfer reaches no further than its length: `m` beats are taken, no more
than words have come back.  `T` is the transfer of the read side; the write burst
`wb` need not divide its length. -/
inductive Within (T : Transfer) (wb : BitVec 9) (s : BurstCopy P) (m : Nat) : Prop
  | started (clean : Clean s) (start : s.engine.ctl.csr.ctrlStart = true)
      (src : s.engine.ctl.csr.ctrlSrcAddr = T.src) (dst : s.engine.ctl.csr.ctrlDstAddr = T.dst)
      (len : s.engine.ctl.csr.ctrlLen = T.len) (rdBurst : s.engine.ctl.csr.ctrlRdBurst = T.rb)
      (wrBurst : s.engine.ctl.csr.ctrlWrBurst = wb) (none : m = 0)
  | moving (start : s.engine.ctl.csr.ctrlStart = false)
      (rdBurst : s.engine.ctl.csr.ctrlRdBurst = T.rb)
      (wrBurst : s.engine.ctl.csr.ctrlWrBurst = wb)
      (done : s.engine.ctl.wm.internalDonePulse = false) {q n : Nat} {l : List (BitVec 32)}
      (reader : ReadProgress T s.engine.ctl.rm s.mem.owed q n)
      (fifo : s.engine.fifo.Holds l) (level : l.length + m ≤ n)
      (beats : BeatPhase T.dst wb s.bus m l.length)
  | finished (start : s.engine.ctl.csr.ctrlStart = false) (state : s.engine.ctl.wm.wmFsm = .wIdle)
      (write : s.engine.ctl.wm.wmWrite = false) (le : m ≤ T.words)

theorem Within.le (h : Within T wb s m) : m ≤ T.words := by
  cases h with
  | started _ _ _ _ _ _ _ hm => omega
  | moving _ _ _ _ hreader _ hlevel _ =>
      have := hreader.n_le
      have := hreader.q_le
      omega
  | finished _ _ _ hle => exact hle

/-- A beat carries the next address of the transfer. -/
theorem Within.beat (h : Within T wb s m) {c : BurstCycle}
    (hbeat : s.bus.takesBeat c = true) :
    s.bus.beatAddr = T.dst + 4 * BitVec.ofNat 32 m := by
  cases h with
  | started hclean _ _ _ _ _ _ _ =>
      exact absurd ((hclean.quiet.takesBeat c).symm.trans hbeat) (by decide)
  | moving _ _ _ _ _ _ _ hbeats => exact (hbeats.beat hbeat).1
  | finished _ _ hw _ =>
      have hw' : s.bus.ctl.wm.wmWrite = false := hw
      simp [BurstBus.takesBeat, hw'] at hbeat

/-- In a cycle in which software writes the status register or nothing, the program
stays and no start is given. -/
theorem kept_program {c : BurstCycle}
    (hstatus : c.avs.avsWrite = true → c.avs.avsAddress = 1) :
    (s.step c).engine.ctl.csr.ctrlStart = false ∧
      (s.step c).engine.ctl.csr.ctrlRdBurst = s.engine.ctl.csr.ctrlRdBurst ∧
      (s.step c).engine.ctl.csr.ctrlWrBurst = s.engine.ctl.csr.ctrlWrBurst := by
  obtain ⟨-, -, -, hrb, hwb⟩ := BurstCsr.step_config s.engine.ctl.csr
    s.engine.ctl.wm.internalDonePulse (fun hw => Or.inr (hstatus hw))
  refine ⟨(BurstCsr.step_ctrlStart _ _ _).trans ?_, hrb, hwb⟩
  change c.avs.start = false
  cases hw : c.avs.avsWrite with
  | false => simp [AvsIn.start, hw]
  | true => simp [AvsIn.start, hstatus hw]

/-- The cycle of the start pulse. -/
theorem Within.step_started (hclean : Clean s) (hstart : s.engine.ctl.csr.ctrlStart = true)
    (hsrc : s.engine.ctl.csr.ctrlSrcAddr = T.src)
    (hdst : s.engine.ctl.csr.ctrlDstAddr = T.dst) (hlen : s.engine.ctl.csr.ctrlLen = T.len)
    (hrb : s.engine.ctl.csr.ctrlRdBurst = T.rb) (hwb : s.engine.ctl.csr.ctrlWrBurst = wb)
    {c : BurstCycle} (hstatus : c.avs.avsWrite = true → c.avs.avsAddress = 1) :
    Within T wb (s.step c) (s.bus.takesBeat c).toNat := by
  obtain ⟨hnone, hrb', hwb'⟩ := kept_program (s := s) hstatus
  have hbeat : s.bus.takesBeat c = false := hclean.quiet.takesBeat c
  have hbus := bus_step hclean.fifo c
  have hreader := hclean.quiet.reader_start (P := P) hstart hsrc hlen c
    (BitVec.ofNat 32 ([] : List (BitVec 32)).length)
    (BitVec.ofNat 32 ([] : List (BitVec 32)).length)
  have hwm := (hclean.quiet.masters_start (P := P) hstart c
    (BitVec.ofNat 32 ([] : List (BitVec 32)).length)
    (BitVec.ofNat 32 ([] : List (BitVec 32)).length)).2
  rw [← hbus] at hreader hwm
  rw [hbeat]
  refine .moving hnone (hrb'.trans hrb) (hwb'.trans hwb) ?_ hreader (hclean.fifo_next c)
    (Nat.le_refl _) (.wait ?_ ?_ ?_ ?_)
  · exact congrArg WriteMaster.internalDonePulse hwm
  · rw [hwm]
  · rw [hwm]
  · rw [hwm]
    change s.engine.ctl.csr.ctrlDstAddr = _
    simp [hdst]
  · exact (hclean.quiet.memNext c).2

/-- The level of the FIFO while words move: a returned word may be stored or lost, a
beat takes one of the stored words. -/
theorem level_next {l : List (BitVec 32)} {n : Nat} {c : BurstCycle}
    (hfifo : s.engine.fifo.Holds l) (hlevel : l.length + m ≤ n)
    (hword : s.bus.takesBeat c = true → 0 < l.length) :
    (Ring.next P.fifoDepth l ((s.bus.returned c).map Prod.snd) (s.bus.takesBeat c)).length +
      (m + (s.bus.takesBeat c).toNat) ≤ n + (s.bus.returned c).isSome.toNat := by
  have hle := hfifo.length_le
  have hlen := Ring.length_next P.fifoDepth l ((s.bus.returned c).map Prod.snd)
    (s.bus.takesBeat c)
  rw [Option.isSome_map] at hlen
  rw [hlen]
  cases hb : s.bus.takesBeat c with
  | false =>
      simp only [Bool.toNat_false]
      split <;> omega
  | true =>
      have hone := hword hb
      simp only [Bool.toNat_true]
      split <;> omega

/-- The cycle before the done pulse leaves the write FSM idle. -/
theorem masters_of_done {c : BurstCycle}
    (hd : (s.step c).engine.ctl.wm.internalDonePulse = true) :
    (s.step c).engine.ctl.wm.wmFsm = .wIdle ∧
      (s.step c).engine.ctl.wm.wmWrite = false := by
  obtain ⟨hs, hrem⟩ :=
    (BurstControl.done_step (P := P) (s.engine.ctlInputs (s.inputs c))).1 hd
  rcases WriteMaster.step_wWaitData
      (i := s.engine.ctl.wmInputs (s.engine.ctlInputs (s.inputs c))) hs with
    ⟨_, he⟩ | ⟨hne, _⟩ | ⟨hne, _⟩
  · have hwm : (s.step c).engine.ctl.wm =
        { s.engine.ctl.wm with
          internalDonePulse := true, wmWrite := false, wmFsm := .wIdle } := he
    rw [hwm]
    exact ⟨rfl, rfl⟩
  · exact absurd hrem hne
  · exact absurd hrem hne

/-- A cycle in which words move, up to the one with the done pulse. -/
theorem Within.step_moving (hstart : s.engine.ctl.csr.ctrlStart = false)
    (hrb : s.engine.ctl.csr.ctrlRdBurst = T.rb) (hwb : s.engine.ctl.csr.ctrlWrBurst = wb)
    (hd : s.engine.ctl.wm.internalDonePulse = false) {q n : Nat} {l : List (BitVec 32)}
    (hreader : ReadProgress T s.engine.ctl.rm s.mem.owed q n)
    (hfifo : s.engine.fifo.Holds l) (hlevel : l.length + m ≤ n)
    (hbeats : BeatPhase T.dst wb s.bus m l.length) (hpos : 0 < wb.toNat) {c : BurstCycle}
    (hstatus : c.avs.avsWrite = true → c.avs.avsAddress = 1) :
    Within T wb (s.step c) (m + (s.bus.takesBeat c).toNat) := by
  obtain ⟨hnone, hrb', hwb'⟩ := kept_program (s := s) hstatus
  have hbus := bus_step hfifo c
  have hfifo' := fifo_step hfifo c
  have hrd : s.engine.ctl.wm.fifoRdEn c.wmWaitrequest = s.bus.takesBeat c :=
    hbeats.fifoRdEn c
  rw [hrd] at hfifo'
  have hdepth := P.fifoDepth_lt
  have hle := hfifo.length_le
  have hlevel' := level_next (c := c) hfifo hlevel fun hb => (hbeats.beat hb).2
  have hlen := Ring.length_next P.fifoDepth l ((s.bus.returned c).map Prod.snd)
    (s.bus.takesBeat c)
  have hkeep : l.length ≤ (Ring.next P.fifoDepth l ((s.bus.returned c).map Prod.snd)
      (s.bus.takesBeat c)).length + (s.bus.takesBeat c).toNat := by
    omega
  have hreader' := ReadProgress.step_of_rb (P := P) (s := s.bus) hreader hrb hd c
    (BitVec.ofNat 32 l.length) (BitVec.ofNat 32 l.length)
  have hbeats' := BeatPhase.step (P := P) (s := s.bus) hbeats hstart hwb hpos (by omega) c
    hkeep (BitVec.ofNat 32 l.length)
  rw [← hbus] at hreader' hbeats'
  cases hd' : (s.step c).engine.ctl.wm.internalDonePulse with
  | false =>
      exact .moving hnone (hrb'.trans hrb) (hwb'.trans hwb) hd' hreader' hfifo' hlevel' hbeats'
  | true =>
      have hq := hreader'.q_le
      have hn := hreader'.n_le
      obtain ⟨hidle, hwrite⟩ := masters_of_done hd'
      exact .finished hnone hidle hwrite (by omega)

/-- A cycle after the done pulse. -/
theorem Within.step_finished (hstart : s.engine.ctl.csr.ctrlStart = false)
    (hs : s.engine.ctl.wm.wmFsm = .wIdle) (hw : s.engine.ctl.wm.wmWrite = false)
    (hle : m ≤ T.words) {c : BurstCycle}
    (hstatus : c.avs.avsWrite = true → c.avs.avsAddress = 1) :
    Within T wb (s.step c) (m + (s.bus.takesBeat c).toNat) := by
  have hbeat : s.bus.takesBeat c = false := by
    have hw' : s.bus.ctl.wm.wmWrite = false := hw
    simp [BurstBus.takesBeat, hw']
  rw [hbeat, Bool.toNat_false, Nat.add_zero]
  rcases WriteMaster.step_wIdle
      (i := s.engine.ctl.wmInputs (s.engine.ctlInputs (s.inputs c))) hs with
    ⟨hc, _⟩ | ⟨_, he⟩
  · have hc' : s.engine.ctl.csr.ctrlStart = true := hc
    exact absurd (hstart.symm.trans hc') (by decide)
  · have hwm : (s.step c).engine.ctl.wm =
        { s.engine.ctl.wm with internalDonePulse := false, wmWrite := false } := he
    refine .finished (kept_program hstatus).1 ?_ ?_ hle <;> rw [hwm]
    exact hs

/-- One cycle in which software writes the status register or nothing. -/
theorem Within.step (h : Within T wb s m) (hpos : 0 < wb.toNat) {c : BurstCycle}
    (hstatus : c.avs.avsWrite = true → c.avs.avsAddress = 1) :
    Within T wb (s.step c) (m + (s.bus.takesBeat c).toNat) := by
  cases h with
  | started hclean hstart hsrc hdst hlen hrb hwb hm =>
      rw [hm, Nat.zero_add]
      exact Within.step_started hclean hstart hsrc hdst hlen hrb hwb hstatus
  | moving hstart hrb hwb hd hreader hfifo hlevel hbeats =>
      exact Within.step_moving hstart hrb hwb hd hreader hfifo hlevel hbeats hpos hstatus
  | finished hstart hs hw hle => exact Within.step_finished hstart hs hw hle hstatus

/-- The beats of a transfer from its start pulse on. -/
theorem beats_within (h : Within T wb s 0) (hpos : 0 < wb.toNat) (cs : List BurstCycle)
    (hstatus : ∀ c ∈ cs, c.avs.avsWrite = true → c.avs.avsAddress = 1) :
    ∃ m, m ≤ T.words ∧
      (BurstBus.beats bus (fun s => s.engine.wmWritedata) (log step s cs)).map Prod.fst =
        wordAddrs T.dst m := by
  have hrun : ∃ m, Within T wb (run step s cs) m ∧
      (BurstBus.beats bus (fun s => s.engine.wmWritedata) (log step s cs)).map Prod.fst =
        wordAddrs T.dst m := by
    refine log_invariant_of
      (G := fun _ _ (c : BurstCycle) => c.avs.avsWrite = true → c.avs.avsAddress = 1)
      (P := fun s l => ∃ m, Within T wb s m ∧
        (BurstBus.beats bus (fun s => s.engine.wmWritedata) l).map Prod.fst = wordAddrs T.dst m)
      ⟨0, h, rfl⟩ ?_ cs ?_
    · rintro s l c ⟨m, hm, hbeats⟩ hc
      refine ⟨_, hm.step hpos hc, ?_⟩
      rw [BurstBus.beats_snoc, List.map_append, hbeats]
      cases hb : s.bus.takesBeat c with
      | false => simp
      | true =>
          rw [if_pos rfl, List.map_singleton, hm.beat hb, Bool.toNat_true, wordAddrs_succ]
    · intro pre c post hcs
      exact hstatus c (by rw [hcs]; simp)
  obtain ⟨m, hm, hbeats⟩ := hrun
  exact ⟨m, hm.le, hbeats⟩

end Reach

section Order

variable {p : Program} {cs : List BurstCycle}

/-- A clean engine that is not started stays clean, and any register may be
written. -/
theorem clean_run (hclean : Clean s) (hidle : s.engine.ctl.csr.ctrlStart = false)
    (hno : ∀ c ∈ cs, c.avs.start = false) :
    Clean (run step s cs) ∧ (run step s cs).engine.ctl.csr.ctrlStart = false ∧
      ∀ p ∈ log step s cs, BurstBus.Disciplined p.1.engine.ctl p.2.avs := by
  have hrun : (Clean (run step s cs) ∧ (run step s cs).engine.ctl.csr.ctrlStart = false) ∧
      ∀ p ∈ log step s cs, BurstBus.Disciplined p.1.engine.ctl p.2.avs := by
    refine log_invariant_of (G := fun _ _ (c : BurstCycle) => c.avs.start = false)
      (P := fun s l => (Clean s ∧ s.engine.ctl.csr.ctrlStart = false) ∧
        ∀ p ∈ l, BurstBus.Disciplined (engine p.1).ctl p.2.avs)
      ⟨⟨hclean, hidle⟩, by simp⟩ ?_ cs ?_
    · rintro s l c ⟨⟨hc, hs⟩, hl⟩ hno
      refine ⟨⟨hc.step_none hs c, (BurstCsr.step_ctrlStart _ _ _).trans hno⟩, ?_⟩
      intro p hp
      rcases List.mem_append.1 hp with hp | hp
      · exact hl p hp
      · rw [List.mem_singleton.1 hp]
        refine ⟨fun _ => Or.inr ⟨hs, hc.quiet.rmState, hc.quiet.wmFsm, hc.quiet.done⟩, ?_⟩
        intro hstart
        exact absurd (hno.symm.trans hstart) (by decide)
    · intro pre c post hcs
      exact hno c (by rw [hcs]; simp)
  exact ⟨hrun.1.1, hrun.1.2, hrun.2⟩

/-- With `RD_BURST` first the beats of the transfer stay within the padded length.  The
transfer has the read side of the program; its write burst is left to `Within`. -/
theorem beats_of_start (h : p.Writes cs) (hfirst : p.RdFirst cs)
    (hclean : Clean (run step s cs))
    (hidle : (run step s cs).engine.ctl.csr.ctrlStart = false) {c0 : BurstCycle}
    {post : List BurstCycle} (hstart : c0.avs.start = true)
    (hstatus : ∀ c ∈ post, c.avs.avsWrite = true → c.avs.avsAddress = 1) :
    ∃ m, 4 * m ≤ (run step s cs).engine.ctl.csr.ctrlLen.toNat ∧
      (BurstBus.beats bus (fun s => s.engine.wmWritedata)
        (log step (run step s cs) (c0 :: post))).map Prod.fst = wordAddrs p.dst m := by
  obtain ⟨hsrc, hdst, hrb, hwb, hlen, _⟩ := registers_of_program s h
  generalize hs1 : run step s cs = s1 at *
  have hdvd : 4 * p.rb.toNat ∣ s1.engine.ctl.csr.ctrlLen.toNat := by
    rw [hlen hfirst, p.toNat_rb]
    exact Program.dvd_padLen p.rdLog_le p.toNat_rb p.len
  let T : Transfer :=
    { src := p.src
      dst := p.dst
      len := s1.engine.ctl.csr.ctrlLen
      rb := p.rb
      wb := 1
      rb_pos := by
        rw [p.toNat_rb]
        exact Nat.two_pow_pos _
      wb_pos := by decide
      rb_dvd := hdvd
      wb_dvd := Nat.dvd_trans (Nat.mul_dvd_mul_left 4 (Nat.one_dvd _)) hdvd }
  have hpos : 0 < p.wb.toNat := by
    rw [p.toNat_wb]
    exact Nat.two_pow_pos _
  obtain ⟨hsrc', hdst', hlen', hrb', hwb'⟩ :=
    BurstCsr.step_config s1.engine.ctl.csr s1.engine.ctl.wm.internalDonePulse
      (i := c0.avs) (fun _ => Or.inl (AvsIn.of_start hstart).2)
  have hwithin : Within T p.wb (s1.step c0) 0 :=
    .started (hclean.step_none hidle c0) ((BurstCsr.step_ctrlStart _ _ _).trans hstart)
      (hsrc'.trans hsrc) (hdst'.trans hdst) hlen' (hrb'.trans hrb) (hwb'.trans hwb) rfl
  obtain ⟨m, hm, hbeats⟩ := beats_within hwithin hpos post hstatus
  refine ⟨m, ?_, ?_⟩
  · have hwords := T.four_mul_words
    change 4 * T.words = s1.engine.ctl.csr.ctrlLen.toNat at hwords
    omega
  · have hnone : s1.bus.takesBeat c0 = false := hclean.quiet.takesBeat c0
    have hcons : BurstBus.beats bus (fun s => s.engine.wmWritedata) (log step s1 (c0 :: post)) =
        BurstBus.beats bus (fun s => s.engine.wmWritedata) (log step (s1.step c0) post) := by
      rw [log_cons, BurstBus.beats, List.flatMap_cons, hnone]
      rfl
    rw [hcons]
    exact hbeats

end Order

/-- **The order of the configuration writes.**  For every prior state, every
program and every order of its five writes: source, destination and both bursts
are as written.  When `RD_BURST` comes before `LEN` the stored length is the least
multiple of the read burst, whatever was stored before; when it comes after, the
length is padded with the burst that was stored before, which makes no difference
for a length of whole bursts of both.  With `RD_BURST` first a transfer of an
engine that was idle writes no further than the padded length. -/
theorem programming_order (P : BurstParams) (s : BurstCopy P) (p : Program)
    (cs : List BurstCycle) (h : p.Writes cs) :
    let s' := run step s cs
    let csr := s'.engine.ctl.csr
    let old := s.engine.ctl.csr.ctrlRdBurst
    (csr.ctrlSrcAddr = p.src ∧ csr.ctrlDstAddr = p.dst ∧ csr.ctrlRdBurst.toNat = 2 ^ p.rdLog ∧
      csr.ctrlWrBurst.toNat = 2 ^ p.wrLog) ∧
    (p.RdFirst cs → csr.ctrlLen = BurstCsr.padLen p.rb p.len ∧
      ∀ k, IsLeast {k | 4 * 2 ^ p.rdLog ∣ k ∧ p.len.toNat ≤ k} k → k < 2 ^ 32 →
        csr.ctrlLen.toNat = k) ∧
    (¬ p.RdFirst cs → csr.ctrlLen = BurstCsr.padLen old p.len ∧
      ∀ j ≤ 8, old.toNat = 2 ^ j → 4 * 2 ^ j ∣ p.len.toNat → 4 * 2 ^ p.rdLog ∣ p.len.toNat →
        csr.ctrlLen = BurstCsr.padLen p.rb p.len) ∧
    (p.RdFirst cs → Clean s → s.engine.ctl.csr.ctrlStart = false → ∀ c0 post,
      c0.avs.start = true → (∀ c ∈ post, c.avs.avsWrite = true → c.avs.avsAddress = 1) →
        ∃ m, 4 * m ≤ csr.ctrlLen.toNat ∧
          (BurstBus.beats bus (fun s => s.engine.wmWritedata) (log step s' (c0 :: post))).map
            Prod.fst = wordAddrs p.dst m) := by
  intro s' csr old
  obtain ⟨hsrc, hdst, hrb, hwb, hfirst, hlate⟩ := registers_of_program s h
  refine ⟨⟨hsrc, hdst, ?_, ?_⟩, ?_, ?_, ?_⟩
  · rw [hrb, p.toNat_rb]
  · rw [hwb, p.toNat_wb]
  · intro hrd
    refine ⟨hfirst hrd, ?_⟩
    intro k hk hlt
    rw [hfirst hrd]
    exact p.toNat_padLen hk hlt
  · intro hrd
    refine ⟨hlate hrd, ?_⟩
    intro j hj hold hdvd hdvd'
    have h2 : ∀ k, 0 < 4 * 2 ^ k := fun k => Nat.mul_pos (by decide) (Nat.two_pow_pos k)
    have hlt := p.len.isLt
    have hr := roundUp_of_dvd (h2 j) hdvd
    have hr' := roundUp_of_dvd (h2 p.rdLog) hdvd'
    have hpad := Program.toNat_padLen_two_pow hold (by rw [hr]; exact hlt)
    have hpad' := Program.toNat_padLen_two_pow p.toNat_rb (by rw [hr']; exact hlt)
    rw [hlate hrd, ← BitVec.toNat_inj, hpad, hpad', hr, hr']
  · intro hrd hclean hidle c0 post hstart hstatus
    obtain ⟨hclean', hidle', _⟩ := clean_run hclean hidle fun c hc => h.no_start hc
    exact beats_of_start h hrd hclean' hidle' hstart hstatus

/-- The order of `run_ddr_to_ddr_test`: the bursts first. -/
def burstsFirst (p : Program) : List BurstCycle :=
  [BurstCycle.ready p.rdWrite 0, BurstCycle.ready (AvsIn.write 6 (BitVec.ofNat 32 (2 ^ p.wrLog))) 0,
    BurstCycle.ready (AvsIn.write 2 p.src) 0, BurstCycle.ready (AvsIn.write 3 p.dst) 0,
    BurstCycle.ready p.lenWrite 0]

/-- The order of `run_ocm_to_ddr_test`: the bursts last. -/
def burstsLast (p : Program) : List BurstCycle :=
  p.writes.map fun i => BurstCycle.ready i 0

/-- 1000 bytes in bursts of 256 words. -/
def program1000 : Program where
  src := 0x1000
  dst := 0x2000
  len := 1000
  rdLog := 8
  wrLog := 8
  rdLog_le := by decide
  wrLog_le := by decide

/-- The example of the source: with the burst set first, 1000 bytes are padded to
1024. -/
theorem programming_order_1000 :
    (run step (init (P := BurstParams.standard) fun _ => 0)
      (burstsFirst program1000)).engine.ctl.csr.ctrlLen.toNat = 1024 := by
  have h := programming_order BurstParams.standard (init fun _ => 0) program1000
    (burstsFirst program1000) (by decide)
  have hfirst : program1000.RdFirst (burstsFirst program1000) :=
    ⟨(burstsFirst program1000).take 4, BurstCycle.ready program1000.lenWrite 0, [], rfl, rfl,
      BurstCycle.ready program1000.rdWrite 0, List.mem_cons_self, rfl⟩
  refine (h.2.1 hfirst).2 1024 ⟨by decide, ?_⟩ (by decide)
  rintro k ⟨hdvd, hle⟩
  have hlen : program1000.len.toNat = 1000 := rfl
  have hrd : 4 * 2 ^ program1000.rdLog = 1024 := rfl
  rw [hrd] at hdvd
  omega

/-- Four bytes in bursts of one word. -/
def program4 : Program where
  src := 0x1000
  dst := 0x2000
  len := 4
  rdLog := 0
  wrLog := 0
  rdLog_le := by decide
  wrLog_le := by decide

/-- After reset, where the read burst is 256, the two orders program different
transfers: with the bursts last four bytes become 1024. -/
theorem order_matters :
    let s := init (P := BurstParams.standard) fun _ => 0
    program4.Writes (burstsFirst program4) ∧ program4.Writes (burstsLast program4) ∧
    IsLeast {k | 4 * 2 ^ program4.rdLog ∣ k ∧ program4.len.toNat ≤ k} 4 ∧
    (run step s (burstsFirst program4)).engine.ctl.csr.ctrlLen = 4 ∧
    (run step s (burstsLast program4)).engine.ctl.csr.ctrlLen = 1024 := by
  refine ⟨by decide, by decide, ⟨by decide, ?_⟩, by decide, by decide⟩
  rintro k ⟨_, hle⟩
  exact hle

end BurstCopy
end VideoProcessing
