import VideoProcessing.Burst.Bus

/-!
# Transfers on the memory bus

Between transfers the bus is `Quiet`; from the start pulse to the completion
pulse it is `InTransfer`, with `q` words commanded, `n` returned and `m` beats
taken.  The lemmas of this module are the steps between and inside the two; the
FIFO levels enter through `Credit`, which keeps the read side from overflowing,
and `Supply`, which keeps the write side from running dry.
-/

namespace VideoProcessing

open Lib

variable {P : BurstParams} {s : BurstBus} {T : Transfer} {q n m : Nat}

/-- Without a completion pulse the FSM decides the state of the read master. -/
theorem BurstBus.rmState_step (hd : s.ctl.wm.internalDonePulse = false) (c : BurstCycle)
    (rdUsed wrUsed : BitVec 32) :
    (s.step P c rdUsed wrUsed).ctl.rm.rmState =
      (s.ctl.rm.fsm P (s.ctl.rmInputs (s.inputs c rdUsed wrUsed))).rmState := by
  have hstep := ReadMaster.step_of_not_done (P := P) (m := s.ctl.rm)
    (i := s.ctl.rmInputs (s.inputs c rdUsed wrUsed)) hd
  change (s.ctl.rm.step P _).rmState = _
  rw [hstep]

/-- In the transfer `T`: `q` words are commanded, `n` are returned, `m` beats are
taken. -/
structure InTransfer (T : Transfer) (s : BurstBus) (q n m : Nat) : Prop where
  config : T.Configured s.ctl.csr
  start : s.ctl.csr.ctrlStart = false
  reader : ReadProgress T s.ctl.rm s.mem.owed q n
  writer : ∃ p, WriteProgress T s.ctl.wm s.mem p m

/-- No transfer: the masters are idle and the slaves owe nothing. -/
structure Quiet (s : BurstBus) : Prop where
  rmState : s.ctl.rm.rmState = .idle
  rmRead : s.ctl.rm.rmRead = false
  pending : s.ctl.rm.pendingReads = 0
  wmFsm : s.ctl.wm.wmFsm = .wIdle
  wmWrite : s.ctl.wm.wmWrite = false
  done : s.ctl.wm.internalDonePulse = false
  owed : s.mem.owed = []
  left : s.mem.beatsLeft = 0

theorem quiet_init (P : BurstParams) : Quiet ⟨BurstControl.reset P, MemoryBus.init⟩ :=
  ⟨rfl, rfl, rfl, rfl, rfl, rfl, rfl, rfl⟩

namespace Quiet

theorem accepted (h : Quiet s) (c : BurstCycle) : s.accepted c = none := by
  simp [BurstBus.accepted, h.rmRead]

theorem returned (h : Quiet s) (c : BurstCycle) : s.returned c = none := by
  simp [BurstBus.returned, BurstBus.available, h.accepted c, h.owed]

theorem takesBeat (h : Quiet s) (c : BurstCycle) : s.takesBeat c = false := by
  simp [BurstBus.takesBeat, h.wmWrite]

theorem memNext (h : Quiet s) (c : BurstCycle) :
    (s.memNext c).owed = [] ∧ (s.memNext c).beatsLeft = 0 := by
  refine ⟨?_, ?_⟩
  · simp [BurstBus.memNext, BurstBus.available, h.accepted c, h.owed]
  · simp [BurstBus.memNext, h.takesBeat c, h.left]

theorem rm_step (h : Quiet s) (c : BurstCycle) (rdUsed wrUsed : BitVec 32) :
    (s.step P c rdUsed wrUsed).ctl.rm =
      s.ctl.rm.fsm P (s.ctl.rmInputs (s.inputs c rdUsed wrUsed)) := by
  have hpend : s.ctl.rm.pendingNext (s.ctl.rmInputs (s.inputs c rdUsed wrUsed)) = 0 := by
    have hvalid : (s.ctl.rmInputs (s.inputs c rdUsed wrUsed)).rmReaddatavalid = false := by
      change (s.returned c).isSome = false
      rw [h.returned c]
      rfl
    simp [ReadMaster.pendingNext, h.rmState, hvalid, h.pending]
  have hstep := ReadMaster.step_of_not_done (P := P) (m := s.ctl.rm)
    (i := s.ctl.rmInputs (s.inputs c rdUsed wrUsed)) h.done
  change s.ctl.rm.step P (s.ctl.rmInputs (s.inputs c rdUsed wrUsed)) = _
  rw [hstep, hpend]
  rcases ReadMaster.fsm_idle (P := P) (i := s.ctl.rmInputs (s.inputs c rdUsed wrUsed))
    h.rmState with ⟨_, he⟩ | ⟨_, he⟩ <;> rw [he, ← h.pending]

/-- Without a start pulse the bus stays quiet. -/
theorem step_none (h : Quiet s) (hs : s.ctl.csr.ctrlStart = false) (c : BurstCycle)
    (rdUsed wrUsed : BitVec 32) : Quiet (s.step P c rdUsed wrUsed) := by
  have hrm := h.rm_step (P := P) c rdUsed wrUsed
  have hwm : (s.step P c rdUsed wrUsed).ctl.wm =
      s.ctl.wm.step (s.ctl.wmInputs (s.inputs c rdUsed wrUsed)) := rfl
  obtain ⟨howed, hleft⟩ := h.memNext c
  rcases ReadMaster.fsm_idle (P := P) (i := s.ctl.rmInputs (s.inputs c rdUsed wrUsed))
    h.rmState with ⟨hc, _⟩ | ⟨_, he⟩
  · have hc' : s.ctl.csr.ctrlStart = true := hc
    exact absurd (hs.symm.trans hc') (by decide)
  · rcases WriteMaster.step_wIdle (i := s.ctl.wmInputs (s.inputs c rdUsed wrUsed))
      h.wmFsm with ⟨hc, _⟩ | ⟨_, hwe⟩
    · have hc' : s.ctl.csr.ctrlStart = true := hc
      exact absurd (hs.symm.trans hc') (by decide)
    · rw [he] at hrm
      rw [hwe] at hwm
      refine ⟨?_, ?_, ?_, ?_, ?_, ?_, howed, hleft⟩
      · rw [hrm]
        exact h.rmState
      · rw [hrm]
        exact h.rmRead
      · rw [hrm]
        exact h.pending
      · rw [hwm]
        exact h.wmFsm
      · rw [hwm]
      · rw [hwm]

/-- The start pulse is taken by both masters. -/
theorem masters_start (h : Quiet s) (hs : s.ctl.csr.ctrlStart = true) (c : BurstCycle)
    (rdUsed wrUsed : BitVec 32) :
    (s.step P c rdUsed wrUsed).ctl.rm =
      { s.ctl.rm with
        currentSrcAddr := s.ctl.csr.ctrlSrcAddr
        readRemainingLen := s.ctl.csr.ctrlLen
        rmState := .waitFifo } ∧
    (s.step P c rdUsed wrUsed).ctl.wm =
      { s.ctl.wm with
        internalDonePulse := false
        wmWrite := false
        currentDstAddr := s.ctl.csr.ctrlDstAddr
        remainingLen := s.ctl.csr.ctrlLen
        wmFsm := .wWaitData } := by
  have hrm := h.rm_step (P := P) c rdUsed wrUsed
  refine ⟨?_, ?_⟩
  · rcases ReadMaster.fsm_idle (P := P) (i := s.ctl.rmInputs (s.inputs c rdUsed wrUsed))
      h.rmState with ⟨_, he⟩ | ⟨hc, _⟩
    · exact hrm.trans he
    · have hc' : s.ctl.csr.ctrlStart = false := hc
      exact absurd (hs.symm.trans hc') (by decide)
  · rcases WriteMaster.step_wIdle (i := s.ctl.wmInputs (s.inputs c rdUsed wrUsed))
      h.wmFsm with ⟨_, he⟩ | ⟨hc, _⟩
    · exact he
    · have hc' : s.ctl.csr.ctrlStart = false := hc
      exact absurd (hs.symm.trans hc') (by decide)

/-- The start pulse loads the read master with the programmed transfer. -/
theorem reader_start (h : Quiet s) (hs : s.ctl.csr.ctrlStart = true)
    (hsrc : s.ctl.csr.ctrlSrcAddr = T.src) (hlen : s.ctl.csr.ctrlLen = T.len)
    (c : BurstCycle) (rdUsed wrUsed : BitVec 32) :
    ReadProgress T (s.step P c rdUsed wrUsed).ctl.rm (s.step P c rdUsed wrUsed).mem.owed 0 0 := by
  have hrm := (h.masters_start (P := P) hs c rdUsed wrUsed).1
  refine ⟨?_, ?_, ?_, (h.memNext c).1, Nat.le_refl _, Nat.zero_le _, Nat.dvd_zero _,
    .wait ?_ ?_⟩ <;> rw [hrm]
  · change s.ctl.csr.ctrlSrcAddr = _
    simp [hsrc]
  · change s.ctl.csr.ctrlLen = _
    rw [Nat.sub_zero, Transfer.four_mul_words, BitVec.ofNat_toNat, BitVec.setWidth_eq,
      hlen]
  · exact h.pending
  · exact h.rmRead

/-- The start pulse opens the programmed transfer. -/
theorem step_start (h : Quiet s) (hs : s.ctl.csr.ctrlStart = true)
    (hp : BurstBus.Programmed s.ctl.csr) {c : BurstCycle}
    (hdisc : BurstBus.Disciplined s.ctl c.avs) (rdUsed wrUsed : BitVec 32) :
    InTransfer (Transfer.ofCsr s.ctl.csr hp) (s.step P c rdUsed wrUsed) 0 0 0 := by
  have hwm := (h.masters_start (P := P) hs c rdUsed wrUsed).2
  have hcsr : (s.step P c rdUsed wrUsed).ctl.csr =
      s.ctl.csr.step s.ctl.wm.internalDonePulse c.avs := rfl
  have hleft := (h.memNext c).2
  have hstatus : c.avs.avsWrite = true → c.avs.avsAddress = 1 := by
    intro hw
    rcases hdisc.1 hw with h1 | h1
    · exact h1
    · exact absurd (hs.symm.trans h1.1) (by decide)
  have hconfig := BurstCsr.step_config s.ctl.csr s.ctl.wm.internalDonePulse
    (fun hw => Or.inr (hstatus hw))
  have hstart : c.avs.start = false := by
    cases hw : c.avs.avsWrite with
    | false => simp [AvsIn.start, hw]
    | true => simp [AvsIn.start, hstatus hw]
  have hlen : s.ctl.csr.ctrlLen =
      BitVec.ofNat 32 (4 * ((Transfer.ofCsr s.ctl.csr hp).words - 0)) := by
    rw [Nat.sub_zero, Transfer.four_mul_words, BitVec.ofNat_toNat, BitVec.setWidth_eq]
    rfl
  refine ⟨?_, ?_, ?_, 0, ?_⟩
  · rw [hcsr]
    obtain ⟨h1, h2, h3, h4, h5⟩ := hconfig
    exact ⟨h1, h2, h3, h4, h5⟩
  · rw [hcsr, BurstCsr.step_ctrlStart, hstart]
  · exact h.reader_start hs rfl rfl c rdUsed wrUsed
  · refine ⟨?_, ?_, Nat.zero_le _, Nat.dvd_zero _, .wait ?_ ?_ ?_ rfl hleft⟩ <;> rw [hwm]
    · change s.ctl.csr.ctrlDstAddr = _
      simp [Transfer.ofCsr]
    · exact hlen

end Quiet

namespace InTransfer

/-- During a transfer a disciplined software only writes the status register. -/
theorem status_only (h : InTransfer T s q n m) {c : BurstCycle}
    (hdisc : BurstBus.Disciplined s.ctl c.avs) (hw : c.avs.avsWrite = true) :
    c.avs.avsAddress = 1 := by
  rcases hdisc.1 hw with h1 | h1
  · exact h1
  · exact absurd h1.2.1 h.reader.state_ne_idle

theorem no_start (h : InTransfer T s q n m) {c : BurstCycle}
    (hdisc : BurstBus.Disciplined s.ctl c.avs) : c.avs.start = false := by
  cases hw : c.avs.avsWrite with
  | false => simp [AvsIn.start, hw]
  | true => simp [AvsIn.start, h.status_only hdisc hw]

theorem csr_step (h : InTransfer T s q n m) {c : BurstCycle}
    (hdisc : BurstBus.Disciplined s.ctl c.avs) (rdUsed wrUsed : BitVec 32) :
    T.Configured (s.step P c rdUsed wrUsed).ctl.csr ∧
      (s.step P c rdUsed wrUsed).ctl.csr.ctrlStart = false := by
  have hcsr : (s.step P c rdUsed wrUsed).ctl.csr =
      s.ctl.csr.step s.ctl.wm.internalDonePulse c.avs := rfl
  obtain ⟨h1, h2, h3, h4, h5⟩ :=
    BurstCsr.step_config s.ctl.csr s.ctl.wm.internalDonePulse
      (fun hw => Or.inr (h.status_only hdisc hw))
  rw [hcsr]
  refine ⟨⟨?_, ?_, ?_, ?_, ?_⟩, ?_⟩
  · exact h1.trans h.config.src
  · exact h2.trans h.config.dst
  · exact h3.trans h.config.len
  · exact h4.trans h.config.rb
  · exact h5.trans h.config.wb
  · rw [BurstCsr.step_ctrlStart, h.no_start hdisc]

/-- One cycle before the completion pulse. -/
theorem step (h : InTransfer T s q n m) (hd : s.ctl.wm.internalDonePulse = false)
    {c : BurstCycle} (hdisc : BurstBus.Disciplined s.ctl c.avs)
    (rdUsed wrUsed : BitVec 32) :
    InTransfer T (s.step P c rdUsed wrUsed) (q + s.commandedWords c)
      (n + (s.returned c).isSome.toNat) (m + (s.takesBeat c).toNat) := by
  obtain ⟨hconf, hstart⟩ := h.csr_step (P := P) hdisc rdUsed wrUsed
  obtain ⟨p, hp⟩ := h.writer
  exact ⟨hconf, hstart, h.reader.step h.config hd c rdUsed wrUsed,
    hp.step h.config hd c rdUsed wrUsed⟩

/-- At the completion pulse all words are written; if no more beats were taken
than words returned, everything is complete and the bus falls quiet. -/
theorem finish (h : InTransfer T s q n m) (hd : s.ctl.wm.internalDonePulse = true)
    (hm : m ≤ n) {c : BurstCycle} (hdisc : BurstBus.Disciplined s.ctl c.avs)
    (rdUsed wrUsed : BitVec 32) :
    q = T.words ∧ n = T.words ∧ m = T.words ∧
      s.accepted c = none ∧ s.returned c = none ∧ s.takesBeat c = false ∧
        Quiet (s.step P c rdUsed wrUsed) ∧
          (s.step P c rdUsed wrUsed).ctl.csr.ctrlStart = false := by
  obtain ⟨p, hp⟩ := h.writer
  obtain ⟨hwidle, hwrite, hall, hleft⟩ := hp.complete hd
  have hn := h.reader.n_le
  have hq := h.reader.q_le
  have hq' : q = T.words := by omega
  have hn' : n = T.words := by omega
  have hread : s.ctl.rm.rmState = .waitFifo ∧ s.ctl.rm.rmRead = false := by
    cases h.reader.phase with
    | wait hs hr => exact ⟨hs, hr⟩
    | command _ _ _ _ hlt => omega
  have hacc : s.accepted c = none := by simp [BurstBus.accepted, hread.2]
  have howed : s.mem.owed = [] := by
    rw [h.reader.owed, hn', hq']
    exact List.drop_eq_nil_of_le (Nat.le_of_eq (length_wordAddrs _ _))
  have hret : s.returned c = none := by
    simp [BurstBus.returned, BurstBus.available, hacc, howed]
  have hbeat : s.takesBeat c = false := by simp [BurstBus.takesBeat, hwrite]
  refine ⟨hq', hn', hall, hacc, hret, hbeat, ?_, (h.csr_step hdisc rdUsed wrUsed).2⟩
  have hrm := ReadMaster.step_of_done (P := P) (m := s.ctl.rm)
    (i := s.ctl.rmInputs (s.inputs c rdUsed wrUsed)) hd
  have hread' : (s.ctl.rm.step P (s.ctl.rmInputs (s.inputs c rdUsed wrUsed))).rmRead =
      false := by
    have hd' : (s.ctl.rmInputs (s.inputs c rdUsed wrUsed)).internalDonePulse = true := hd
    have hrem : ¬ s.ctl.rm.readRemainingLen > 0 := by
      rw [h.reader.remaining, hq', Nat.sub_self]
      decide
    simp only [ReadMaster.step, hd', if_true, ReadMaster.fsm, hread.1, hrem, if_false]
    exact hread.2
  have hwm : (s.step P c rdUsed wrUsed).ctl.wm =
      s.ctl.wm.step (s.ctl.wmInputs (s.inputs c rdUsed wrUsed)) := rfl
  rcases WriteMaster.step_wIdle (i := s.ctl.wmInputs (s.inputs c rdUsed wrUsed))
    hwidle with ⟨hc, _⟩ | ⟨_, hwe⟩
  · have hc' : s.ctl.csr.ctrlStart = true := hc
    exact absurd (h.start.symm.trans hc') (by decide)
  · rw [hwe] at hwm
    refine ⟨hrm.1, hread', hrm.2, ?_, ?_, ?_, ?_, ?_⟩
    · rw [hwm]
      exact hwidle
    · rw [hwm]
    · rw [hwm]
    · change (s.available c).drop _ = []
      simp [BurstBus.available, hacc, howed]
    · change (s.memNext c).beatsLeft = 0
      simp [BurstBus.memNext, hbeat, hleft]

end InTransfer

section Levels

/-- The read side keeps room for the owed words and for a waiting command when
its FIFO stores `x` words. -/
def Credit (P : BurstParams) (s : BurstBus) (T : Transfer) (q n x : Nat) : Prop :=
  x + (q - n) + (if s.ctl.rm.rmState = .read then T.rb.toNat else 0) ≤ P.fifoDepth

/-- The write side has the rest of the open burst when its FIFO stores `y`
words. -/
def Supply (s : BurstBus) (T : Transfer) (y : Nat) : Prop :=
  s.ctl.wm.wmFsm = .wBurst → T.wb.toNat ≤ s.ctl.wm.wmWordCnt.toNat + y

/-- A fresh transfer has credit and supply. -/
theorem Quiet.levels_start (h : Quiet s) (hs : s.ctl.csr.ctrlStart = true) (c : BurstCycle)
    (rdUsed wrUsed : BitVec 32) :
    Credit P (s.step P c rdUsed wrUsed) T 0 0 0 ∧
      Supply (s.step P c rdUsed wrUsed) T 0 := by
  obtain ⟨hrm, hwm⟩ := h.masters_start (P := P) hs c rdUsed wrUsed
  refine ⟨?_, ?_⟩
  · rw [Credit, hrm]
    simp
  · rw [Supply, hwm]
    intro hb
    exact absurd hb (by simp)

namespace InTransfer

/-- With credit a returned word finds room. -/
theorem room_of_returned (h : InTransfer T s q n m) {x : Nat} (hx : Credit P s T q n x)
    {c : BurstCycle} (hret : (s.returned c).isSome = true) : x < P.fifoDepth := by
  have hlt : n < q + s.commandedWords c := by
    rcases h.reader.returned c with hnone | ⟨hlt, _⟩
    · rw [hnone] at hret
      exact absurd hret (by decide)
    · exact hlt
  rw [Credit] at hx
  rcases h.reader.accepted c with ⟨_, hnum, _⟩ | ⟨_, hnum, hst, _⟩
  · rw [hnum] at hlt
    omega
  · rw [if_pos hst] at hx
    have := T.rb_pos
    omega

/-- The room check keeps the credit. -/
theorem credit_step (h : InTransfer T s q n m) (hd : s.ctl.wm.internalDonePulse = false)
    {x x' : Nat} (hx : Credit P s T q n x) {c : BurstCycle}
    (hx' : x' ≤ x + (s.returned c).isSome.toNat) (wrUsed : BitVec 32) :
    Credit P (s.step P c (BitVec.ofNat 32 x) wrUsed) T (q + s.commandedWords c)
      (n + (s.returned c).isSome.toNat) x' := by
  have hdepth := P.fifoDepth_lt
  have hwords := T.words_lt
  have hq := h.reader.q_le
  have hn := h.reader.n_le
  have hrb := T.rb.isLt
  have hret := h.reader.returned_le c
  have hrm := BurstBus.rmState_step (P := P) hd c (BitVec.ofNat 32 x) wrUsed
  rw [Credit] at hx ⊢
  rw [hrm]
  rcases h.reader.accepted c with ⟨_, hnum, hst⟩ | ⟨_, hnum, hst, hw⟩
  · rw [hnum] at hret ⊢
    cases h.reader.phase with
    | wait hs hread =>
        rw [hs, if_neg (by decide)] at hx
        rcases ReadMaster.fsm_waitFifo (P := P)
            (i := s.ctl.rmInputs (s.inputs c (BitVec.ofNat 32 x) wrUsed)) hs with
          ⟨_, hroom, he⟩ | ⟨_, he⟩ <;> rw [he]
        · have hcheck : BitVec.ofNat 32 x + s.ctl.rm.pendingReads +
              s.ctl.csr.ctrlRdBurst.setWidth 32 ≤ BitVec.ofNat 32 P.fifoDepth := by
            rw [ReadMaster.room, decide_eq_true_eq] at hroom
            exact hroom
          rw [h.reader.pending, h.config.rb, ← BitVec.ofNat_toNat, ← BitVec.ofNat_add,
            ← BitVec.ofNat_add, BitVec.le_def, Counter.toNat_ofNat_of_lt (by omega),
            Counter.toNat_ofNat_of_lt (by omega)] at hcheck
          rw [if_pos rfl]
          omega
        · rw [hs, if_neg (by decide)]
          omega
    | command hs hread haddr hburst hlt =>
        rw [if_pos hs] at hx
        rcases ReadMaster.fsm_read (P := P)
            (i := s.ctl.rmInputs (s.inputs c (BitVec.ofNat 32 x) wrUsed)) hs with
          ⟨hw, _⟩ | ⟨_, he⟩
        · have hw' : c.rmWaitrequest = false := hw
          exact absurd (hw'.symm.trans (hst hs)) (by decide)
        · rw [he, if_pos hs]
          omega
  · rw [hnum] at hret ⊢
    rw [if_pos hst] at hx
    rcases ReadMaster.fsm_read (P := P)
        (i := s.ctl.rmInputs (s.inputs c (BitVec.ofNat 32 x) wrUsed)) hst with
      ⟨_, he⟩ | ⟨hw', _⟩
    · rw [he, if_neg (by simp)]
      omega
    · have hw'' : c.rmWaitrequest = true := hw'
      exact absurd (hw.symm.trans hw'') (by decide)

/-- With supply a beat finds a word. -/
theorem word_of_beat (h : InTransfer T s q n m) {y : Nat} (hy : Supply s T y)
    {c : BurstCycle} (hbeat : s.takesBeat c = true) : 0 < y := by
  obtain ⟨p, hp⟩ := h.writer
  cases hp.phase with
  | wait _ hw _ _ _ => simp [BurstBus.takesBeat, hw] at hbeat
  | complete _ hw _ _ _ => simp [BurstBus.takesBeat, hw] at hbeat
  | burst hs _ _ _ _ _ hlt _ _ _ =>
      have := hy hs
      omega

/-- The burst check keeps the supply. -/
theorem supply_step (h : InTransfer T s q n m) {y y' : Nat} (hy : Supply s T y)
    (hlt32 : y < 2 ^ 32) {c : BurstCycle} (hy' : y ≤ y' + (s.takesBeat c).toNat)
    (rdUsed : BitVec 32) :
    Supply (s.step P c rdUsed (BitVec.ofNat 32 y)) T y' := by
  have hwm : (s.step P c rdUsed (BitVec.ofNat 32 y)).ctl.wm =
      s.ctl.wm.step (s.ctl.wmInputs (s.inputs c rdUsed (BitVec.ofNat 32 y))) := rfl
  obtain ⟨p, hp⟩ := h.writer
  rw [Supply, hwm]
  cases hp.phase with
  | wait hs hw _ _ _ =>
      have hbeat : s.takesBeat c = false := by simp [BurstBus.takesBeat, hw]
      rw [hbeat, Bool.toNat_false] at hy'
      rcases WriteMaster.step_wWaitData
          (i := s.ctl.wmInputs (s.inputs c rdUsed (BitVec.ofNat 32 y))) hs with
        ⟨_, he⟩ | ⟨_, hused, he⟩ | ⟨_, _, he⟩ <;> rw [he] <;> intro hs'
      · exact absurd hs' (by simp)
      · have hcheck : s.ctl.csr.ctrlWrBurst.setWidth 32 ≤ BitVec.ofNat 32 y := hused
        have hwb := T.wb.isLt
        rw [h.config.wb, BitVec.le_def, Counter.toNat_ofNat_of_lt hlt32,
          BitVec.toNat_setWidth, Nat.mod_eq_of_lt (by omega)] at hcheck
        change T.wb.toNat ≤ 0 + y'
        omega
      · exact absurd hs' (by simp [hs])
  | complete hs _ _ _ _ =>
      rcases WriteMaster.step_wIdle
          (i := s.ctl.wmInputs (s.inputs c rdUsed (BitVec.ofNat 32 y))) hs with
        ⟨_, he⟩ | ⟨_, he⟩ <;> rw [he] <;> intro hs'
      · exact absurd hs' (by simp)
      · exact absurd hs' (by simp [hs])
  | burst hs hw _ _ _ _ hlt _ _ _ =>
      have hsupply := hy hs
      rcases WriteMaster.step_wBurst
          (i := s.ctl.wmInputs (s.inputs c rdUsed (BitVec.ofNat 32 y))) hs with
        ⟨_, _, he⟩ | ⟨hwait, _, he⟩ | ⟨hwait, he⟩ <;> rw [he] <;> intro hs'
      · exact absurd hs' (by simp)
      · have hwait' : c.wmWaitrequest = false := hwait
        have hbeat : s.takesBeat c = true := by simp [BurstBus.takesBeat, hw, hwait']
        have hwb := T.wb.isLt
        rw [hbeat, Bool.toNat_true] at hy'
        change T.wb.toNat ≤ (s.ctl.wm.wmWordCnt + 1).toNat + y'
        have hcnt : (s.ctl.wm.wmWordCnt + 1).toNat = s.ctl.wm.wmWordCnt.toNat + 1 :=
          BitVec.toNat_add_of_lt (y := 1#9)
            (by change s.ctl.wm.wmWordCnt.toNat + 1 < 2 ^ 9; omega)
        omega
      · have hwait' : c.wmWaitrequest = true := hwait
        have hbeat : s.takesBeat c = false := by simp [BurstBus.takesBeat, hwait']
        rw [hbeat, Bool.toNat_false] at hy'
        change T.wb.toNat ≤ s.ctl.wm.wmWordCnt.toNat + y'
        omega

end InTransfer
end Levels
end VideoProcessing
