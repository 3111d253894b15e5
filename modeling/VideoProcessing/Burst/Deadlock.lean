import VideoProcessing.Burst.Copy
import VideoProcessing.Burst.Programming
import VideoProcessing.Burst.Stuck
import VideoProcessing.Lib.Tank

/-!
# When `burst_master` gets stuck

The two masters of `burst_master` share one FIFO: the read master fills it by
whole read bursts while they fit, the write master drains it by whole write
bursts while they are there (`Lib.Tank`).  `Active.level` reads the raised read
bursts and the opened write bursts of a transfer as a level of that buffer.  With
`rd + wr - gcd rd wr` words of room no level is blocked; with less, a transfer is
`Doomed`: it cannot complete, and slaves that never stall run it into a blocked
level.  `never_stuck_iff` puts the two together.
-/

namespace VideoProcessing

open Lib

/-- The read bursts raised so far: those commanded and one that waits for the
slave. -/
def ReadPortions (T : Transfer) (rm : ReadMaster) (q i : Nat) : Prop :=
  i * T.rb.toNat = q + if rm.rmState = .read then T.rb.toNat else 0

/-- The write bursts opened so far: those written and the open one, of which some
beats are taken. -/
def WritePortions (T : Transfer) (wm : WriteMaster) (m j : Nat) : Prop :=
  j * T.wb.toNat + (if wm.wmFsm = .wBurst then wm.wmWordCnt.toNat else 0) =
    m + if wm.wmFsm = .wBurst then T.wb.toNat else 0

/-- A cycle without a register write in which the slaves do not stall and the read
slave returns a word if it owes one. -/
def BurstCycle.eager : BurstCycle := BurstCycle.free (some 0)

namespace InTransfer

variable {P : BurstParams} {s : BurstBus} {T : Transfer} {q n m i j : Nat}

/-- An open write burst is not complete. -/
theorem wordCnt_lt (h : InTransfer T s q n m) (hs : s.ctl.wm.wmFsm = .wBurst) :
    s.ctl.wm.wmWordCnt.toNat < T.wb.toNat := by
  obtain ⟨p, hp⟩ := h.writer
  cases hp.phase with
  | wait hs' _ _ _ _ => exact absurd (hs.symm.trans hs') (by decide)
  | complete hs' _ _ _ _ => exact absurd (hs.symm.trans hs') (by decide)
  | burst _ _ _ _ _ _ hlt _ _ _ => exact hlt

/-- The opened write bursts hold the taken beats. -/
theorem le_writePortions (h : InTransfer T s q n m) (hj : WritePortions T s.ctl.wm m j) :
    m ≤ j * T.wb.toNat := by
  rw [WritePortions] at hj
  by_cases hs : s.ctl.wm.wmFsm = .wBurst
  · have hlt := h.wordCnt_lt hs
    rw [if_pos hs, if_pos hs] at hj
    omega
  · rw [if_neg hs, if_neg hs] at hj
    omega

/-- A cycle raises no read burst or one for which there is room. -/
theorem readPortions_step (h : InTransfer T s q n m)
    (hd : s.ctl.wm.internalDonePulse = false) (hi : ReadPortions T s.ctl.rm q i) {x : Nat}
    (hroom : x + (q - n) ≤ P.fifoDepth) (c : BurstCycle) (wrUsed : BitVec 32) :
    ∃ i', ReadPortions T (s.step P c (BitVec.ofNat 32 x) wrUsed).ctl.rm
        (q + s.commandedWords c) i' ∧
      (i' = i ∨ i' = i + 1 ∧ s.ctl.rm.rmState ≠ .read ∧
        x + (q - n) + T.rb.toNat ≤ P.fifoDepth) := by
  have hdepth := P.fifoDepth_lt
  have hrb := T.rb.isLt
  have hrm := BurstBus.rmState_step (P := P) hd c (BitVec.ofNat 32 x) wrUsed
  simp only [ReadPortions, hrm] at hi ⊢
  rcases h.reader.accepted c with ⟨_, hnum, hst⟩ | ⟨_, hnum, hst, hw⟩
  · rw [hnum, Nat.add_zero]
    cases h.reader.phase with
    | wait hs _ =>
        rw [hs, if_neg (by decide)] at hi
        rcases ReadMaster.fsm_waitFifo (P := P)
            (i := s.ctl.rmInputs (s.inputs c (BitVec.ofNat 32 x) wrUsed)) hs with
          ⟨_, hcheck, he⟩ | ⟨_, he⟩ <;> rw [he]
        · have hcheck' : BitVec.ofNat 32 x + s.ctl.rm.pendingReads +
              s.ctl.csr.ctrlRdBurst.setWidth 32 ≤ BitVec.ofNat 32 P.fifoDepth := by
            rw [ReadMaster.room, decide_eq_true_eq] at hcheck
            exact hcheck
          rw [h.reader.pending, h.config.rb, ← BitVec.ofNat_toNat, ← BitVec.ofNat_add,
            ← BitVec.ofNat_add, BitVec.le_def, Counter.toNat_ofNat_of_lt (by omega),
            Counter.toNat_ofNat_of_lt (by omega)] at hcheck'
          refine ⟨i + 1, ?_, Or.inr ⟨rfl, by rw [hs]; decide, hcheck'⟩⟩
          rw [if_pos rfl, Nat.add_mul, hi, Nat.one_mul, Nat.add_zero]
        · exact ⟨i, by rw [hs, if_neg (by decide)]; exact hi, Or.inl rfl⟩
    | command hs _ _ _ _ =>
        rcases ReadMaster.fsm_read (P := P)
            (i := s.ctl.rmInputs (s.inputs c (BitVec.ofNat 32 x) wrUsed)) hs with
          ⟨hw, _⟩ | ⟨_, he⟩
        · have hw' : c.rmWaitrequest = false := hw
          exact absurd (hw'.symm.trans (hst hs)) (by decide)
        · rw [he]
          exact ⟨i, hi, Or.inl rfl⟩
  · rw [hnum]
    rw [if_pos hst] at hi
    rcases ReadMaster.fsm_read (P := P)
        (i := s.ctl.rmInputs (s.inputs c (BitVec.ofNat 32 x) wrUsed)) hst with
      ⟨_, he⟩ | ⟨hw', _⟩
    · rw [he]
      exact ⟨i, by simpa using hi, Or.inl rfl⟩
    · have hw'' : c.rmWaitrequest = true := hw'
      exact absurd (hw.symm.trans hw'') (by decide)

/-- A cycle opens no write burst or one for which the words are there. -/
theorem writePortions_step (h : InTransfer T s q n m) (hj : WritePortions T s.ctl.wm m j)
    {y : Nat} (hy : y < 2 ^ 32) (c : BurstCycle) (rdUsed : BitVec 32) :
    ∃ j', WritePortions T (s.step P c rdUsed (BitVec.ofNat 32 y)).ctl.wm
        (m + (s.takesBeat c).toNat) j' ∧
      (j' = j ∨ j' = j + 1 ∧ s.ctl.wm.wmFsm ≠ .wBurst ∧ T.wb.toNat ≤ y) := by
  have hwm : (s.step P c rdUsed (BitVec.ofNat 32 y)).ctl.wm =
      s.ctl.wm.step (s.ctl.wmInputs (s.inputs c rdUsed (BitVec.ofNat 32 y))) := rfl
  have hwb := T.wb.isLt
  obtain ⟨p, hp⟩ := h.writer
  simp only [WritePortions, hwm] at hj ⊢
  cases hp.phase with
  | complete hs hw _ _ _ =>
      have hbeat : s.takesBeat c = false := by simp [BurstBus.takesBeat, hw]
      rw [hs, if_neg (by decide), if_neg (by decide)] at hj
      rcases WriteMaster.step_wIdle
          (i := s.ctl.wmInputs (s.inputs c rdUsed (BitVec.ofNat 32 y))) hs with
        ⟨_, he⟩ | ⟨_, he⟩ <;> rw [he, hbeat]
      · exact ⟨j, by simpa using hj, Or.inl rfl⟩
      · exact ⟨j, by simpa [hs] using hj, Or.inl rfl⟩
  | wait hs hw _ _ _ =>
      have hbeat : s.takesBeat c = false := by simp [BurstBus.takesBeat, hw]
      rw [hs, if_neg (by decide), if_neg (by decide)] at hj
      rcases WriteMaster.step_wWaitData
          (i := s.ctl.wmInputs (s.inputs c rdUsed (BitVec.ofNat 32 y))) hs with
        ⟨_, he⟩ | ⟨_, hused, he⟩ | ⟨_, _, he⟩ <;> rw [he, hbeat]
      · exact ⟨j, by simpa using hj, Or.inl rfl⟩
      · have hcheck : s.ctl.csr.ctrlWrBurst.setWidth 32 ≤ BitVec.ofNat 32 y := hused
        rw [h.config.wb, BitVec.le_def, Counter.toNat_ofNat_of_lt hy,
          BitVec.toNat_setWidth, Nat.mod_eq_of_lt (by omega)] at hcheck
        refine ⟨j + 1, ?_, Or.inr ⟨rfl, by rw [hs]; decide, hcheck⟩⟩
        simp [Nat.add_mul] at hj ⊢
        omega
      · exact ⟨j, by simpa [hs] using hj, Or.inl rfl⟩
  | burst hs _ _ _ _ _ _ _ _ _ =>
      obtain ⟨hon, _, _⟩ := hp.onBurst hs
      rw [hs, if_pos rfl, if_pos rfl] at hj
      refine ⟨j, ?_, Or.inl rfl⟩
      rw [← hwm]
      rcases hon.step_cases (P := P) c rdUsed (BitVec.ofNat 32 y) with
        ⟨hbeat, hl, _, he⟩ | ⟨hbeat, hcnt, _, hon'⟩ | ⟨hbeat, he, hon'⟩
      · rw [he, hbeat]
        simp
        omega
      · rw [hon'.state, if_pos rfl, if_pos rfl, hcnt, hbeat, Bool.toNat_true]
        omega
      · rw [hon'.state, if_pos rfl, if_pos rfl, he, hbeat, Bool.toNat_false]
        exact hj

/-- How far the read side is: commands count twice, a raised one and every
returned word once. -/
def readGauge (s : BurstBus) (q n : Nat) : Nat :=
  2 * q + n + if s.ctl.rm.rmState = .read then 1 else 0

/-- How far the write side is: beats count twice, an open burst once. -/
def writeGauge (s : BurstBus) (m : Nat) : Nat :=
  2 * m + if s.ctl.wm.wmFsm = .wBurst then 1 else 0

/-- In an eager cycle the read side gets further, or it has nothing in flight and
stays as it is. -/
theorem readGauge_eager (h : InTransfer T s q n m)
    (hd : s.ctl.wm.internalDonePulse = false) (rdUsed wrUsed : BitVec 32) :
    readGauge s q n < readGauge (s.step P BurstCycle.eager rdUsed wrUsed)
        (q + s.commandedWords BurstCycle.eager)
        (n + (s.returned BurstCycle.eager).isSome.toNat) ∨
      (readGauge s q n ≤ readGauge (s.step P BurstCycle.eager rdUsed wrUsed)
          (q + s.commandedWords BurstCycle.eager)
          (n + (s.returned BurstCycle.eager).isSome.toNat) ∧
        s.mem.owed = [] ∧ s.available BurstCycle.eager = [] ∧
        (s.step P BurstCycle.eager rdUsed wrUsed).ctl.rm = s.ctl.rm) := by
  have hrm := BurstBus.rmState_step (P := P) hd BurstCycle.eager rdUsed wrUsed
  have hrb := T.rb_pos
  simp only [readGauge, hrm]
  cases h.reader.phase with
  | command hs hread haddr hburst hlt =>
      left
      have hnum : s.commandedWords BurstCycle.eager = T.rb.toNat := by
        rcases h.reader.accepted BurstCycle.eager with ⟨_, _, hw⟩ | ⟨_, hnum, _, _⟩
        · exact absurd (hw hs) Bool.false_ne_true
        · exact hnum
      rw [hnum, if_pos hs]
      omega
  | wait hs hread =>
      have hnum : s.commandedWords BurstCycle.eager = 0 := by
        rcases h.reader.accepted BurstCycle.eager with ⟨_, hnum, _⟩ | ⟨_, _, hs', _⟩
        · exact hnum
        · exact absurd (hs.symm.trans hs') (by decide)
      have hacc : s.accepted BurstCycle.eager = none := by
        simp [BurstBus.accepted, hread]
      have havail : s.available BurstCycle.eager = s.mem.owed := by
        simp [BurstBus.available, hacc]
      have hst : ¬ s.ctl.rm.rmState = .read := by
        rw [hs]
        decide
      rw [hnum, if_neg hst]
      cases howed : s.mem.owed with
      | cons a l =>
          left
          have hret : s.returned BurstCycle.eager = some (a, 0) := by
            rw [BurstBus.returned, havail, howed]
            rfl
          rw [hret]
          simp
          omega
      | nil =>
          have hret : s.returned BurstCycle.eager = none := by
            rw [BurstBus.returned, havail, howed]
          rw [hret]
          rcases ReadMaster.fsm_waitFifo (P := P)
              (i := s.ctl.rmInputs (s.inputs BurstCycle.eager rdUsed wrUsed)) hs with
            ⟨_, _, he⟩ | ⟨_, he⟩ <;> rw [he]
          · left
            simp
          · right
            refine ⟨by simp, rfl, by rw [havail, howed], ?_⟩
            have hstep := ReadMaster.step_of_not_done (P := P) (m := s.ctl.rm)
              (i := s.ctl.rmInputs (s.inputs BurstCycle.eager rdUsed wrUsed)) hd
            have hvalid : (s.ctl.rmInputs
                (s.inputs BurstCycle.eager rdUsed wrUsed)).rmReaddatavalid = false := by
              change (s.returned BurstCycle.eager).isSome = false
              rw [hret]
              rfl
            have hpend : s.ctl.rm.pendingNext
                (s.ctl.rmInputs (s.inputs BurstCycle.eager rdUsed wrUsed)) =
                  s.ctl.rm.pendingReads := by
              simp [ReadMaster.pendingNext, hs, hvalid]
            rw [he, hpend] at hstep
            exact hstep

/-- In an eager cycle the write side gets further, or it takes no beat and stays as
it is; unless it completes. -/
theorem writeGauge_eager (h : InTransfer T s q n m)
    (hd : s.ctl.wm.internalDonePulse = false) (rdUsed wrUsed : BitVec 32)
    (hnext : (s.step P BurstCycle.eager rdUsed wrUsed).ctl.wm.internalDonePulse = false) :
    writeGauge s m < writeGauge (s.step P BurstCycle.eager rdUsed wrUsed)
        (m + (s.takesBeat BurstCycle.eager).toNat) ∨
      (writeGauge s m ≤ writeGauge (s.step P BurstCycle.eager rdUsed wrUsed)
          (m + (s.takesBeat BurstCycle.eager).toNat) ∧
        s.takesBeat BurstCycle.eager = false ∧
        (s.step P BurstCycle.eager rdUsed wrUsed).ctl.wm = s.ctl.wm) := by
  have hwm : (s.step P BurstCycle.eager rdUsed wrUsed).ctl.wm =
      s.ctl.wm.step (s.ctl.wmInputs (s.inputs BurstCycle.eager rdUsed wrUsed)) := rfl
  obtain ⟨p, hp⟩ := h.writer
  simp only [writeGauge, hwm] at hnext ⊢
  cases hp.phase with
  | complete _ _ hd' _ _ => exact absurd (hd'.symm.trans hd) (by decide)
  | wait hs hw _ _ _ =>
      have hbeat : s.takesBeat BurstCycle.eager = false := by simp [BurstBus.takesBeat, hw]
      have hst : ¬ s.ctl.wm.wmFsm = .wBurst := by
        rw [hs]
        decide
      rw [hbeat, if_neg hst]
      rcases WriteMaster.step_wWaitData
          (i := s.ctl.wmInputs (s.inputs BurstCycle.eager rdUsed wrUsed)) hs with
        ⟨_, he⟩ | ⟨_, _, he⟩ | ⟨_, _, he⟩ <;> rw [he] at hnext ⊢
      · exact absurd hnext (by simp)
      · left
        simp
      · right
        have hsame : ∀ w : WriteMaster, w.internalDonePulse = false → w.wmWrite = false →
            { w with internalDonePulse := false, wmWrite := false } = w := by
          rintro ⟨⟩ rfl rfl
          rfl
        exact ⟨by simp, rfl, hsame _ hd hw⟩
  | burst hs hw _ hcount _ _ hlt _ _ _ =>
      left
      have hbeat : s.takesBeat BurstCycle.eager = true := by
        simp [BurstBus.takesBeat, hw, BurstCycle.eager, BurstCycle.free]
      rw [hbeat, if_pos hs]
      rcases WriteMaster.step_wBurst
          (i := s.ctl.wmInputs (s.inputs BurstCycle.eager rdUsed wrUsed)) hs with
        ⟨_, _, he⟩ | ⟨_, _, he⟩ | ⟨hwait, _⟩
      · rw [he]
        simp
        omega
      · rw [he]
        simp
        omega
      · exact absurd hwait Bool.false_ne_true

end InTransfer

namespace BurstCopy

variable {P : BurstParams} {s : BurstCopy P} {T : Transfer} {ws : List (BitVec 32)}
  {q m i j k : Nat}

/-- The write master is busy, no word is owed and a free cycle changes nothing. -/
def Stuck (s : BurstCopy P) : Prop :=
  s.engine.ctl.wm.wmFsm ≠ .wIdle ∧ s.mem.owed = [] ∧ ∃ ret, s.step (BurstCycle.free ret) = s

/-- A stuck transfer is not complete, and its FIFO is blocked. -/
theorem Active.blocked (h : Active T s ws q m) (hstuck : Stuck s) :
    m < T.words ∧ Nat.gcd T.rb.toNat T.wb.toNat ∣ ws.length - m ∧
      Tank.Blocked P.fifoDepth T.rb.toNat T.wb.toNat (ws.length - m) := by
  obtain ⟨hbusy, howed, ret, hstill⟩ := hstuck
  have hbus := bus_step h.fifo (BurstCycle.free ret)
  rw [hstill, List.length_drop] at hbus
  have hdepth := P.fifoDepth_lt
  have hle := h.fifo.length_le
  rw [List.length_drop] at hle
  obtain ⟨hdvd, hm, hfew⟩ := h.transfer.writer_of_still (P := P) hbusy (y := ws.length - m)
    (by omega) (congrArg (fun b : BurstBus => b.ctl.wm) hbus).symm
  obtain ⟨hn, _, hfull⟩ := h.transfer.reader_of_still (P := P) (h.transfer.not_done hbusy) howed
    (x := ws.length - m) hle (congrArg (fun b : BurstBus => b.ctl.rm) hbus).symm
  have hq := h.transfer.reader.q_le
  have hnext := T.next_le T.wb_dvd hdvd hm
  have hread : Nat.gcd T.rb.toNat T.wb.toNat ∣ ws.length := by
    rw [hn]
    exact Nat.dvd_trans (Nat.gcd_dvd_left _ _) h.transfer.reader.q_dvd
  have hwrite : Nat.gcd T.rb.toNat T.wb.toNat ∣ m :=
    Nat.dvd_trans (Nat.gcd_dvd_right _ _) hdvd
  exact ⟨hm, Nat.dvd_sub hread hwrite, hfew, hfull (by omega)⟩

/-- The portions of a transfer as a level of the shared FIFO. -/
theorem Active.level (h : Active T s ws q m) (hi : ReadPortions T s.engine.ctl.rm q i)
    (hj : WritePortions T s.engine.ctl.wm m j) :
    Tank.Level P.fifoDepth T.rb.toNat T.wb.toNat i j
      (i * T.rb.toNat - j * T.wb.toNat) := by
  have hm := h.m_le
  have hn := h.transfer.reader.n_le
  have hcredit := h.credit
  have hsupply := h.supply
  rw [Credit] at hcredit
  rw [ReadPortions] at hi
  have hst : s.bus.ctl.rm.rmState = s.engine.ctl.rm.rmState := rfl
  rw [hst] at hcredit
  have hdrained : m ≤ j * T.wb.toNat := h.transfer.le_writePortions hj
  rw [WritePortions] at hj
  have hbounds : j * T.wb.toNat ≤ i * T.rb.toNat ∧
      i * T.rb.toNat - j * T.wb.toNat ≤ P.fifoDepth := by
    by_cases hs : s.engine.ctl.wm.wmFsm = .wBurst
    · have hrest := hsupply hs
      have hcnt : s.bus.ctl.wm.wmWordCnt = s.engine.ctl.wm.wmWordCnt := rfl
      rw [hcnt] at hrest
      rw [if_pos hs, if_pos hs] at hj
      omega
    · rw [if_neg hs, if_neg hs] at hj
      omega
  exact ⟨by omega, hbounds.2⟩

/-- The last number of portions that the two bursts allow. -/
structure Last (T : Transfer) (k : Nat) : Prop where
  blocked : k * T.rb.toNat % (T.rb.toNat + T.wb.toNat) =
    T.wb.toNat - Nat.gcd T.rb.toNat T.wb.toNat
  returns : ∀ n, 0 < n → n * T.rb.toNat % (T.rb.toNat + T.wb.toNat) = 0 → k < n

/-- A transfer that has not seen its last portion. -/
structure Doomed (T : Transfer) (k : Nat) (s : BurstCopy P) (ws : List (BitVec 32))
    (q m : Nat) : Prop where
  active : Active T s ws q m
  not_done : s.engine.ctl.wm.internalDonePulse = false
  portions : ∃ i j, ReadPortions T s.engine.ctl.rm q i ∧
    WritePortions T s.engine.ctl.wm m j ∧ i + j ≤ k

/-- A transfer with too little room is not complete before its last portion. -/
theorem Active.not_complete (h : Active T s ws q m)
    (hi : ReadPortions T s.engine.ctl.rm q i) (hj : WritePortions T s.engine.ctl.wm m j)
    (hpos : 0 < T.words) (hlast : Last T k)
    (hsmall : P.fifoDepth < T.rb.toNat + T.wb.toNat) (hle : i + j ≤ k) :
    s.engine.ctl.wm.internalDonePulse = false := by
  by_contra hd
  rw [Bool.not_eq_false] at hd
  obtain ⟨p, hp⟩ := h.transfer.writer
  obtain ⟨hidle, _, hall, _⟩ := hp.complete hd
  have hidle' : s.engine.ctl.wm.wmFsm = .wIdle := hidle
  have hm := h.m_le
  have hn := h.transfer.reader.n_le
  have hq := h.transfer.reader.q_le
  have hlevel := h.level hi hj
  rw [ReadPortions] at hi
  rw [WritePortions, hidle', if_neg (by decide), if_neg (by decide)] at hj
  have hwait : s.engine.ctl.rm.rmState ≠ .read := by
    intro hs
    cases h.transfer.reader.phase with
    | wait hs' _ => exact absurd (hs.symm.trans hs') (by decide)
    | command _ _ _ _ hlt => omega
  rw [if_neg hwait] at hi
  have hzero : i * T.rb.toNat - j * T.wb.toNat = 0 := by omega
  rw [hzero] at hlevel
  have hsome : 0 < i + j := by
    rcases Nat.eq_zero_or_pos i with rfl | h0
    · omega
    · omega
  have := hlevel.returns hsmall hlast.returns hsome
  omega

/-- A doomed transfer stays doomed: at the last portion the FIFO is blocked and neither
side moves, and before it room for a read burst does not go together with a whole write
burst stored. -/
theorem Doomed.step (h : Doomed T k s ws q m) (hpos : 0 < T.words) (hlast : Last T k)
    (hsmall : P.fifoDepth < T.rb.toNat + T.wb.toNat - Nat.gcd T.rb.toNat T.wb.toNat)
    {c : BurstCycle} (hdisc : BurstBus.Disciplined s.engine.ctl c.avs) :
    Doomed T k (s.step c) (ws ++ ((s.bus.returned c).map Prod.snd).toList)
      (q + s.bus.commandedWords c) (m + (s.bus.takesBeat c).toNat) := by
  obtain ⟨i, j, hi, hj, hle⟩ := h.portions
  have hd := h.not_done
  have hact' := h.active.step hd hdisc
  have hlevel := h.active.level hi hj
  have hbus := bus_step h.active.fifo c
  rw [List.length_drop] at hbus
  have hdepth := P.fifoDepth_lt
  have hm := h.active.m_le
  have hn := h.active.transfer.reader.n_le
  have hcredit := h.active.credit
  rw [Credit] at hcredit
  obtain ⟨i', hi', hraise⟩ := h.active.transfer.readPortions_step (P := P) hd hi
    (x := ws.length - m) (by omega) c (BitVec.ofNat 32 (ws.length - m))
  obtain ⟨j', hj', hopen⟩ := h.active.transfer.writePortions_step (P := P) hj
    (y := ws.length - m) (by omega) c (BitVec.ofNat 32 (ws.length - m))
  rw [← hbus] at hi' hj'
  have hblocked : i + j = k →
      Tank.Blocked P.fifoDepth T.rb.toNat T.wb.toNat (i * T.rb.toNat - j * T.wb.toNat) := by
    intro hk
    exact hlevel.blocked_of_last T.wb_pos hsmall (by rw [hk]; exact hlast.blocked)
  have hfill : i' ≠ i →
      i * T.rb.toNat - j * T.wb.toNat + T.rb.toNat ≤ P.fifoDepth ∧ i' = i + 1 := by
    intro hne
    rcases hraise with heq | ⟨heq, hst, hroom⟩
    · exact absurd heq hne
    · have hdrained : m ≤ j * T.wb.toNat := h.active.transfer.le_writePortions hj
      have hst' : s.engine.ctl.rm.rmState ≠ .read := hst
      rw [ReadPortions, if_neg hst'] at hi
      exact ⟨by omega, heq⟩
  have hdrain : j' ≠ j → T.wb.toNat ≤ i * T.rb.toNat - j * T.wb.toNat ∧ j' = j + 1 := by
    intro hne
    rcases hopen with heq | ⟨heq, hst, hroom⟩
    · exact absurd heq hne
    · have hst' : s.engine.ctl.wm.wmFsm ≠ .wBurst := hst
      rw [WritePortions, if_neg hst', if_neg hst'] at hj
      rw [ReadPortions] at hi
      exact ⟨by omega, heq⟩
  have hle' : i' + j' ≤ k := by
    have hg : 0 < Nat.gcd T.rb.toNat T.wb.toNat := Nat.gcd_pos_of_pos_left _ T.rb_pos
    by_cases hri : i' = i
    · by_cases hwj : j' = j
      · omega
      · obtain ⟨hthere, heq⟩ := hdrain hwj
        have hne : i + j ≠ k := by
          intro hk
          have := (hblocked hk).1
          omega
        omega
    · obtain ⟨hfits, heq⟩ := hfill hri
      have hne : i + j ≠ k := by
        intro hk
        have := (hblocked hk).2
        omega
      by_cases hwj : j' = j
      · omega
      · obtain ⟨hthere, _⟩ := hdrain hwj
        omega
  exact ⟨hact', hact'.not_complete hi' hj' hpos hlast (by omega) hle', i', j', hi', hj',
    hle'⟩

section Eager

/-- A cycle in which neither master moves and no word moves changes nothing. -/
theorem eq_of_still (hstart : s.engine.ctl.csr.ctrlStart = false)
    (hd : s.engine.ctl.wm.internalDonePulse = false) (howed : s.mem.owed = [])
    (havail : s.bus.available BurstCycle.eager = [])
    (hbeat : s.bus.takesBeat BurstCycle.eager = false)
    (hrd : s.engine.ctl.wm.fifoRdEn false = false)
    (hrm : (s.step BurstCycle.eager).engine.ctl.rm = s.engine.ctl.rm)
    (hwm : (s.step BurstCycle.eager).engine.ctl.wm = s.engine.ctl.wm) :
    s.step BurstCycle.eager = s := by
  have hret : s.bus.returned BurstCycle.eager = none := by
    rw [BurstBus.returned, havail]
  have hcsr : (s.step BurstCycle.eager).engine.ctl.csr = s.engine.ctl.csr := by
    have hsame : ∀ r : BurstCsr, r.ctrlStart = false → r.step false AvsIn.none = r := by
      rintro ⟨⟩ rfl
      rfl
    have hstep : (s.step BurstCycle.eager).engine.ctl.csr =
        s.engine.ctl.csr.step s.engine.ctl.wm.internalDonePulse AvsIn.none := rfl
    rw [hstep, hd, hsame _ hstart]
  have hfifo : (s.step BurstCycle.eager).engine.fifo = s.engine.fifo := by
    have hstep : (s.step BurstCycle.eager).engine.fifo =
        s.engine.fifo.step (s.bus.returned BurstCycle.eager).isSome
          (((s.bus.returned BurstCycle.eager).map Prod.snd).getD 0)
          (s.engine.ctl.wm.fifoRdEn false) := rfl
    rw [hstep, hret, hrd]
    simp [SimpleFifo.step]
  have hmem : (s.step BurstCycle.eager).mem = s.mem := by
    have hstep : (s.step BurstCycle.eager).mem = s.bus.memNext BurstCycle.eager := rfl
    have hbus : s.bus.mem = s.mem := rfl
    rw [hstep, BurstBus.memNext, havail, hret, hbeat, hbus]
    rcases hm : s.mem with ⟨owed, left, next⟩
    rw [hm] at howed
    obtain rfl : owed = [] := howed
    simp
  have hsplit : ∀ t u : BurstCopy P, t.engine.ctl.csr = u.engine.ctl.csr →
      t.engine.ctl.rm = u.engine.ctl.rm → t.engine.ctl.wm = u.engine.ctl.wm →
        t.engine.fifo = u.engine.fifo → t.mem = u.mem → t = u := by
    rintro ⟨⟨⟨_, _, _⟩, _⟩, _⟩ ⟨⟨⟨_, _, _⟩, _⟩, _⟩ rfl rfl rfl rfl rfl
    rfl
  exact hsplit _ _ hcsr hrm hwm hfifo hmem

/-- How far a transfer is. -/
def gauge (s : BurstCopy P) (q n m : Nat) : Nat :=
  InTransfer.readGauge s.bus q n + InTransfer.writeGauge s.bus m

theorem Active.gauge_le (h : Active T s ws q m) :
    gauge s q ws.length m ≤ 5 * T.words + 2 := by
  have hm := h.m_le
  have hn := h.transfer.reader.n_le
  have hq := h.transfer.reader.q_le
  rw [gauge, InTransfer.readGauge, InTransfer.writeGauge]
  split <;> split <;> omega

theorem disciplined_eager (s : BurstCopy P) :
    BurstBus.Disciplined s.engine.ctl BurstCycle.eager.avs :=
  ⟨fun hw => absurd hw Bool.false_ne_true, fun hs => absurd hs Bool.false_ne_true⟩

/-- An eager cycle brings a doomed transfer further, or it is stuck. -/
theorem Doomed.eager (h : Doomed T k s ws q m) (hpos : 0 < T.words) (hlast : Last T k)
    (hsmall : P.fifoDepth < T.rb.toNat + T.wb.toNat - Nat.gcd T.rb.toNat T.wb.toNat) :
    Stuck s ∨ ∃ ws' q' m', Doomed T k (s.step BurstCycle.eager) ws' q' m' ∧
      gauge s q ws.length m < gauge (s.step BurstCycle.eager) q' ws'.length m' := by
  have hnext := h.step hpos hlast hsmall (disciplined_eager s)
  have hbus := bus_step h.active.fifo BurstCycle.eager
  have hlen : (ws ++ ((s.bus.returned BurstCycle.eager).map Prod.snd).toList).length =
      ws.length + (s.bus.returned BurstCycle.eager).isSome.toNat := by
    cases s.bus.returned BurstCycle.eager <;> simp
  have hread := h.active.transfer.readGauge_eager (P := P) h.not_done
    (BitVec.ofNat 32 (ws.drop m).length) (BitVec.ofNat 32 (ws.drop m).length)
  have hwrite := h.active.transfer.writeGauge_eager (P := P) h.not_done
    (BitVec.ofNat 32 (ws.drop m).length) (BitVec.ofNat 32 (ws.drop m).length)
    (by rw [← hbus]; exact hnext.not_done)
  rw [← hbus] at hread hwrite
  have hgauge : gauge (s.step BurstCycle.eager) (q + s.bus.commandedWords BurstCycle.eager)
      (ws.length + (s.bus.returned BurstCycle.eager).isSome.toNat)
      (m + (s.bus.takesBeat BurstCycle.eager).toNat) =
        InTransfer.readGauge (s.step BurstCycle.eager).bus
          (q + s.bus.commandedWords BurstCycle.eager)
          (ws.length + (s.bus.returned BurstCycle.eager).isSome.toNat) +
        InTransfer.writeGauge (s.step BurstCycle.eager).bus
          (m + (s.bus.takesBeat BurstCycle.eager).toNat) := rfl
  have hnow : gauge s q ws.length m =
      InTransfer.readGauge s.bus q ws.length + InTransfer.writeGauge s.bus m := rfl
  obtain ⟨p, hp⟩ := h.active.transfer.writer
  rcases hread with hread | ⟨hread, howed, havail, hrm⟩
  · refine Or.inr ⟨_, _, _, hnext, ?_⟩
    rw [hlen, hgauge, hnow]
    rcases hwrite with hwrite | ⟨hwrite, _⟩ <;> omega
  · rcases hwrite with hwrite | ⟨hwrite, hbeat, hwm⟩
    · refine Or.inr ⟨_, _, _, hnext, ?_⟩
      rw [hlen, hgauge, hnow]
      omega
    · left
      refine ⟨?_, howed, some 0, ?_⟩
      · intro hidle
        cases hp.phase with
        | wait hs _ _ _ _ => exact absurd (hs.symm.trans hidle) (by decide)
        | burst hs _ _ _ _ _ _ _ _ _ => exact absurd (hs.symm.trans hidle) (by decide)
        | complete _ _ hd _ _ => exact absurd (hd.symm.trans h.not_done) (by decide)
      · refine eq_of_still h.active.transfer.start h.not_done howed havail hbeat ?_ hrm hwm
        exact (hp.fifoRdEn BurstCycle.eager).trans hbeat

/-- A doomed transfer runs into a stuck state when the slaves never stall. -/
theorem stuck_of_doomed (h : Doomed T k s ws q m) (hpos : 0 < T.words) (hlast : Last T k)
    (hsmall : P.fifoDepth < T.rb.toNat + T.wb.toNat - Nat.gcd T.rb.toNat T.wb.toNat) :
    ∃ r ws' q' m', Active T (run step s (List.replicate r BurstCycle.eager)) ws' q' m' ∧
      Stuck (run step s (List.replicate r BurstCycle.eager)) := by
  generalize hleft : 5 * T.words + 2 - gauge s q ws.length m = left
  induction left using Nat.strong_induction_on generalizing s ws q m with
  | _ left ih =>
      rcases h.eager hpos hlast hsmall with hstuck | ⟨ws', q', m', hnext, hgauge⟩
      · exact ⟨0, ws, q, m, h.active, hstuck⟩
      · have hle := hnext.active.gauge_le
        obtain ⟨r, hr⟩ := ih _ (by omega) hnext rfl
        exact ⟨r + 1, hr⟩

end Eager

section Programming

/-- Register writes that program a transfer: the length is written while the read
burst is one, so that it is stored as it is. -/
def configure (src dst : BitVec 32) (rd wr : BitVec 9) (len : BitVec 32) :
    List BurstCycle :=
  [BurstCycle.ready (AvsIn.write 2 src) 0, BurstCycle.ready (AvsIn.write 3 dst) 0,
    BurstCycle.ready (AvsIn.write 5 1) 0, BurstCycle.ready (AvsIn.write 4 len) 0,
    BurstCycle.ready (AvsIn.write 5 (rd.setWidth 32)) 0,
    BurstCycle.ready (AvsIn.write 6 (wr.setWidth 32)) 0]

variable {len : BitVec 32} {rd wr : BitVec 9}

theorem configure_registers (s : BurstCopy P) (src dst : BitVec 32) (rd wr : BitVec 9)
    (hlen : 4 ∣ len.toNat) :
    let csr := (run step s (configure src dst rd wr len)).engine.ctl.csr
    csr.ctrlRdBurst = rd ∧ csr.ctrlWrBurst = wr ∧ csr.ctrlLen = len := by
  have hpad : BurstCsr.padLen 1 len = len := by
    have hlt := len.isLt
    have hround : roundUp (4 * 2 ^ 0) len.toNat = len.toNat :=
      roundUp_of_dvd (by decide) hlen
    rw [← BitVec.toNat_inj]
    exact (Program.toNat_padLen_two_pow (k := 0) rfl (by rw [hround]; exact hlt)).trans hround
  have hone : (1 : BitVec 32).setWidth 9 = 1 := by decide
  intro csr
  refine ⟨?_, ?_, ?_⟩
  · change (rd.setWidth 32).setWidth 9 = rd
    simp
  · change (wr.setWidth 32).setWidth 9 = wr
    simp
  · change BurstCsr.padLen ((1 : BitVec 32).setWidth 9) len = len
    rw [hone, hpad]

/-- An idle engine can be programmed with any transfer and started. -/
theorem active_of_configure (hclean : Clean s) (hidle : s.engine.ctl.csr.ctrlStart = false)
    (hrd : 0 < rd.toNat) (hwr : 0 < wr.toNat) (hrdvd : 4 * rd.toNat ∣ len.toNat)
    (hwdvd : 4 * wr.toNat ∣ len.toNat) :
    ∃ cs T, (∀ p ∈ log step s cs, BurstBus.Disciplined p.1.engine.ctl p.2.avs) ∧
      T.rb = rd ∧ T.wb = wr ∧ T.len = len ∧ Active T (run step s cs) [] 0 0 ∧
      ReadPortions T (run step s cs).engine.ctl.rm 0 0 ∧
      WritePortions T (run step s cs).engine.ctl.wm 0 0 := by
  have hno : ∀ c ∈ configure 0 0 rd wr len, c.avs.start = false := by
    simp [configure, BurstCycle.ready, AvsIn.start, AvsIn.write]
  obtain ⟨hclean1, hidle1, hdisc1⟩ := clean_run hclean hidle hno
  obtain ⟨hrb1, hwb1, hlen1⟩ := configure_registers s 0 0 rd wr
    (Nat.dvd_trans (Nat.dvd_mul_right 4 _) hrdvd)
  generalize hs1 : run step s (configure 0 0 rd wr len) = s1 at *
  have hstart : (BurstCycle.ready (AvsIn.write 0 1) 0).avs.start = true := by decide
  have hprog : BurstBus.Programmed s1.engine.ctl.csr := by
    rw [BurstBus.Programmed, hrb1, hwb1, hlen1]
    exact ⟨hrd, hwr, hrdvd, hwdvd⟩
  have hdisc2 :
      BurstBus.Disciplined s1.engine.ctl (BurstCycle.ready (AvsIn.write 0 1) 0).avs :=
    ⟨fun _ => Or.inr ⟨hidle1, hclean1.quiet.rmState, hclean1.quiet.wmFsm, hclean1.quiet.done⟩,
      fun _ => hprog⟩
  have hclean2 := hclean1.step_none hidle1 (BurstCycle.ready (AvsIn.write 0 1) 0)
  have hpulse : (s1.step (BurstCycle.ready (AvsIn.write 0 1) 0)).engine.ctl.csr.ctrlStart =
      true :=
    (BurstCsr.step_ctrlStart _ _ _).trans hstart
  obtain ⟨hrb2, hwb2, hlen2⟩ :
      (s1.step (BurstCycle.ready (AvsIn.write 0 1) 0)).engine.ctl.csr.ctrlRdBurst = rd ∧
      (s1.step (BurstCycle.ready (AvsIn.write 0 1) 0)).engine.ctl.csr.ctrlWrBurst = wr ∧
      (s1.step (BurstCycle.ready (AvsIn.write 0 1) 0)).engine.ctl.csr.ctrlLen = len := by
    obtain ⟨_, _, hl, hr, hw⟩ :=
      BurstCsr.step_config s1.engine.ctl.csr s1.engine.ctl.wm.internalDonePulse
        (i := AvsIn.write 0 1) (fun _ => Or.inl rfl)
    exact ⟨hr.trans hrb1, hw.trans hwb1, hl.trans hlen1⟩
  have hrun : run step s1 [BurstCycle.ready (AvsIn.write 0 1) 0, BurstCycle.eager] =
      (s1.step (BurstCycle.ready (AvsIn.write 0 1) 0)).step BurstCycle.eager := rfl
  have hlog : log step s1 [BurstCycle.ready (AvsIn.write 0 1) 0, BurstCycle.eager] =
      [(s1, BurstCycle.ready (AvsIn.write 0 1) 0),
        (s1.step (BurstCycle.ready (AvsIn.write 0 1) 0), BurstCycle.eager)] := rfl
  generalize s1.step (BurstCycle.ready (AvsIn.write 0 1) 0) = s2 at *
  have hprog2 : BurstBus.Programmed s2.engine.ctl.csr := by
    rw [BurstBus.Programmed, hrb2, hwb2, hlen2]
    exact ⟨hrd, hwr, hrdvd, hwdvd⟩
  refine ⟨configure 0 0 rd wr len ++ [BurstCycle.ready (AvsIn.write 0 1) 0, BurstCycle.eager],
    Transfer.ofCsr s2.engine.ctl.csr hprog2, ?_, hrb2, hwb2, hlen2, ?_⟩
  rotate_left
  · rw [run_append, hs1, hrun]
    obtain ⟨hrm, hwm⟩ := hclean2.quiet.masters_start (P := P) hpulse BurstCycle.eager
      (BitVec.ofNat 32 ([] : List (BitVec 32)).length)
      (BitVec.ofNat 32 ([] : List (BitVec 32)).length)
    rw [← bus_step hclean2.fifo] at hrm hwm
    have hrm' : (s2.step BurstCycle.eager).engine.ctl.rm.rmState = .waitFifo :=
      congrArg ReadMaster.rmState hrm
    have hwm' : (s2.step BurstCycle.eager).engine.ctl.wm.wmFsm = .wWaitData :=
      congrArg WriteMaster.wmFsm hwm
    refine ⟨hclean2.step_start hpulse hprog2 (disciplined_eager s2), ?_, ?_⟩
    · simp [ReadPortions, hrm']
    · simp [WritePortions, hwm']
  · rw [log_append, hs1, hlog]
    intro p hp
    rcases List.mem_append.1 hp with hp | hp
    · exact hdisc1 p hp
    · rcases List.mem_cons.1 hp with rfl | hp
      · exact hdisc2
      · rw [List.mem_singleton.1 hp]
        exact disciplined_eager s2

end Programming

/-- With too little room for the two bursts an idle engine can be run into a stuck
state of any transfer with them. -/
theorem stuck_of_small (hclean : Clean s) (hidle : s.engine.ctl.csr.ctrlStart = false)
    {rd wr : BitVec 9} {len : BitVec 32} (hrd : 0 < rd.toNat) (hwr : 0 < wr.toNat)
    (hrdvd : 4 * rd.toNat ∣ len.toNat) (hwdvd : 4 * wr.toNat ∣ len.toNat)
    (hpos : 0 < len.toNat)
    (hsmall : P.fifoDepth < rd.toNat + wr.toNat - Nat.gcd rd.toNat wr.toNat) :
    ∃ cs, (∀ p ∈ log step s cs, BurstBus.Disciplined p.1.engine.ctl p.2.avs) ∧
      (run step s cs).engine.ctl.csr.ctrlRdBurst = rd ∧
      (run step s cs).engine.ctl.csr.ctrlWrBurst = wr ∧
      (run step s cs).engine.ctl.csr.ctrlLen = len ∧ Stuck (run step s cs) := by
  obtain ⟨cs, T, hdisc, rfl, rfl, rfl, hact, hi, hj⟩ :=
    active_of_configure hclean hidle hrd hwr hrdvd hwdvd
  have hwords : 0 < T.words := by
    have := T.four_mul_words
    omega
  obtain ⟨k, hblocked, hreturns⟩ := Tank.exists_last T.rb_pos T.wb_pos
  have hlast : Last T k := ⟨hblocked, hreturns⟩
  have hdoomed : Doomed T k (run step s cs) [] 0 0 :=
    ⟨hact, hact.not_complete hi hj hwords hlast (by omega) (Nat.zero_le k), 0, 0, hi, hj,
      Nat.zero_le k⟩
  obtain ⟨r, ws, q, m, hact', hstuck⟩ := stuck_of_doomed hdoomed hwords hlast hsmall
  have hrun : run step s (cs ++ List.replicate r BurstCycle.eager) =
      run step (run step s cs) (List.replicate r BurstCycle.eager) := run_append _ _ _ _
  refine ⟨cs ++ List.replicate r BurstCycle.eager, ?_, ?_⟩
  · rw [log_append]
    intro p hp
    rcases List.mem_append.1 hp with hp | hp
    · exact hdisc p hp
    · obtain ⟨pre, post, hsplit, _⟩ := (mem_log_iff _ _ _ _).1 hp
      have hmem : p.2 ∈ List.replicate r BurstCycle.eager := by
        rw [hsplit]
        simp
      rw [(List.mem_replicate.1 hmem).2]
      exact disciplined_eager p.1
  · rw [hrun]
    have hconf := hact'.transfer.config
    exact ⟨hconf.rb, hconf.wb, hconf.len, hstuck⟩

/-- **When `burst_master` cannot get stuck.**  For all burst counts and every
length that both divide: no run from reset of a disciplined software reaches a
stuck state of a transfer with them if and only if the length is zero or the FIFO
has room for both bursts, less their greatest common divisor. -/
theorem never_stuck_iff (P : BurstParams) (mem0 : BitVec (clog2 P.fifoDepth) → BitVec 32)
    (rd wr : BitVec 9) (len : BitVec 32) (hrd : 0 < rd.toNat) (hwr : 0 < wr.toNat)
    (hrdvd : 4 * rd.toNat ∣ len.toNat) (hwdvd : 4 * wr.toNat ∣ len.toNat) :
    (∀ cs, (∀ p ∈ log step (init (P := P) mem0) cs,
        BurstBus.Disciplined p.1.engine.ctl p.2.avs) →
      (run step (init (P := P) mem0) cs).engine.ctl.csr.ctrlRdBurst = rd →
      (run step (init (P := P) mem0) cs).engine.ctl.csr.ctrlWrBurst = wr →
      (run step (init (P := P) mem0) cs).engine.ctl.csr.ctrlLen = len →
      ¬ Stuck (run step (init (P := P) mem0) cs)) ↔
    len.toNat = 0 ∨ rd.toNat + wr.toNat - Nat.gcd rd.toNat wr.toNat ≤ P.fifoDepth := by
  constructor
  · intro hnever
    by_contra hno
    rw [not_or, Nat.not_le] at hno
    obtain ⟨cs, hdisc, hrb, hwb, hlen, hstuck⟩ := stuck_of_small (clean_init (P := P) mem0) rfl
      hrd hwr hrdvd hwdvd (by omega) hno.2
    exact hnever cs hdisc hrb hwb hlen hstuck
  · intro hroom cs hdisc hrb hwb hlen
    have hsettled := BurstSystem.settled_run (E := system P) (clean_init mem0) rfl cs hdisc
    rcases hsettled with ⟨hclean, _⟩ | ⟨T, f, ws, q, m, hact, _⟩
    · rintro ⟨hbusy, _⟩
      have hclean' : Clean (run step (init (P := P) mem0) cs) := hclean
      exact hbusy hclean'.quiet.wmFsm
    · have hact' : Active T (run step (init (P := P) mem0) cs) ws q m := hact
      have hconf := hact'.transfer.config
      have hlen' : T.len = len := hconf.len.symm.trans hlen
      have hrb' : T.rb = rd := hconf.rb.symm.trans hrb
      have hwb' : T.wb = wr := hconf.wb.symm.trans hwb
      intro hstuck
      obtain ⟨hm, hdvd, hblocked⟩ := hact'.blocked hstuck
      rw [hrb', hwb'] at hdvd hblocked
      rcases hroom with hzero | hroom
      · have hwords := T.four_mul_words
        rw [hlen'] at hwords
        omega
      · exact Tank.not_blocked hroom hdvd hblocked

/-- After the Start of a transfer in bursts of 256 words, through the default FIFO. -/
theorem never_stuck_iff_256 :
    ¬ Stuck (run step (init (P := BurstParams.standard) fun _ => 0)
      (configure 0 0 256 256 4096 ++
        [BurstCycle.ready (AvsIn.write 0 1) 0, BurstCycle.eager, BurstCycle.eager])) :=
  (never_stuck_iff BurstParams.standard (fun _ => 0) 256 256 4096 (by decide) (by decide)
    (by decide) (by decide)).2 (Or.inr (by decide)) _ (by decide +kernel) rfl rfl rfl

/-- One word more on the read side and two on the write side, and a length that
both divide: after the first read burst 257 words are stored, which is too few for
the writer and leaves no room for the reader. -/
theorem exists_stuck : ∃ cs,
    (∀ p ∈ log step (init (P := BurstParams.standard) fun _ => 0) cs,
      BurstBus.Disciplined p.1.engine.ctl p.2.avs) ∧
    (run step (init (P := BurstParams.standard) fun _ => 0) cs).engine.ctl.csr.ctrlRdBurst = 257 ∧
    (run step (init (P := BurstParams.standard) fun _ => 0) cs).engine.ctl.csr.ctrlWrBurst = 258 ∧
    (run step (init (P := BurstParams.standard) fun _ => 0) cs).engine.ctl.csr.ctrlLen = 265224 ∧
    Stuck (run step (init (P := BurstParams.standard) fun _ => 0) cs) :=
  stuck_of_small (clean_init _) rfl (by decide) (by decide) (by decide) (by decide) (by decide)
    (by decide)

end BurstCopy
end VideoProcessing
