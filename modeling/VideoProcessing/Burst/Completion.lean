import VideoProcessing.Burst.Deadlock
import VideoProcessing.Lib.Fairness

/-!
# Transfers complete

A transfer waits for the slaves in three ways (`BusNeed`): a raised read command waits to
be accepted, an owed word waits to be returned, and a beat of an open burst waits to be
taken.  In a cycle that does not advance the gauge of `Burst.Deadlock` the masters and the
owed words stay as they are (`reader_advances`, `writer_advances`); so a transfer that is
never blocked between two such needs makes progress in the sense of `Lib.Fairness`.

`BurstSystem.Advancing` collects this for an engine; `BurstCopy.advancing` needs room for
a read burst and a write burst less their common divisor in the one FIFO, and
`BurstStream.advancing` counts the words in the pipeline as well.
-/

namespace VideoProcessing

open Lib

/-- What a transfer can wait for. -/
inductive BusNeed
  | command
  | reply
  | beat
deriving DecidableEq

/-- The cycle brings what a transfer waits for. -/
def BusNeed.Met : BusNeed → BurstCycle → Prop
  | .command, c => c.rmWaitrequest = false
  | .reply, c => c.ret ≠ none
  | .beat, c => c.wmWaitrequest = false

/-- What the bus waits for. -/
def BurstBus.Needs (s : BurstBus) : BusNeed → Prop
  | .command => s.ctl.rm.rmState = .read
  | .reply => s.mem.owed ≠ []
  | .beat => s.ctl.wm.wmFsm = .wBurst

namespace InTransfer

variable {P : BurstParams} {s : BurstBus} {T : Transfer} {q n m : Nat}

/-- A read side that a cycle leaves alone. -/
structure ReaderStill (s s' : BurstBus) (c : BurstCycle) : Prop where
  commanded : s.commandedWords c = 0
  returned : s.returned c = none
  rm : s'.ctl.rm = s.ctl.rm
  owed : s'.mem.owed = s.mem.owed
  command : s.ctl.rm.rmState = .read → c.rmWaitrequest = true
  reply : s.mem.owed ≠ [] → c.ret = none

/-- A write side that a cycle leaves alone. -/
structure WriterStill (s s' : BurstBus) (c : BurstCycle) : Prop where
  beat : s.takesBeat c = false
  wm : s'.ctl.wm = s.ctl.wm
  wait : s.ctl.wm.wmFsm = .wBurst → c.wmWaitrequest = true

/-- Where nothing is accepted or returned, the owed words and their count stay. -/
theorem still_of_idle (hd : s.ctl.wm.internalDonePulse = false) {c : BurstCycle}
    {rdUsed wrUsed : BitVec 32} (hacc : s.accepted c = none) (hret : s.returned c = none)
    (hwait : s.ctl.rm.rmState = .read → c.rmWaitrequest = true)
    (hfsm : s.ctl.rm.fsm P (s.ctl.rmInputs (s.inputs c rdUsed wrUsed)) = s.ctl.rm) :
    ReaderStill s (s.step P c rdUsed wrUsed) c := by
  have havail : s.available c = s.mem.owed := by
    simp [BurstBus.available, hacc]
  have hvalid : (s.ctl.rmInputs (s.inputs c rdUsed wrUsed)).rmReaddatavalid = false := by
    change (s.returned c).isSome = false
    rw [hret]
    rfl
  have hno : (s.ctl.rm.rmState == .read &&
      !(s.ctl.rmInputs (s.inputs c rdUsed wrUsed)).rmWaitrequest) = false := by
    change (s.ctl.rm.rmState == .read && !c.rmWaitrequest) = false
    cases hs : s.ctl.rm.rmState
    · rfl
    · simp [hwait hs]
    · rfl
  have hpend : s.ctl.rm.pendingNext (s.ctl.rmInputs (s.inputs c rdUsed wrUsed)) =
      s.ctl.rm.pendingReads := by
    simp [ReadMaster.pendingNext, hno, hvalid]
  refine ⟨by simp [BurstBus.commandedWords, hacc], hret, ?_, ?_, hwait, ?_⟩
  · have hstep := ReadMaster.step_of_not_done (P := P) (m := s.ctl.rm)
      (i := s.ctl.rmInputs (s.inputs c rdUsed wrUsed)) hd
    rw [hfsm, hpend] at hstep
    exact hstep
  · change (s.available c).drop (s.returned c).isSome.toNat = _
    rw [hret, havail]
    rfl
  · intro howed
    rw [BurstBus.returned, havail] at hret
    cases hl : s.mem.owed with
    | nil => exact absurd hl howed
    | cons a l =>
        rw [hl] at hret
        cases hr : c.ret with
        | none => rfl
        | some d =>
            rw [hr] at hret
            exact absurd hret (by simp)

/-- A cycle advances the read side, or leaves it alone: a command is accepted or raised, or
the state of the master stays. -/
theorem reader_advances (h : InTransfer T s q n m)
    (hd : s.ctl.wm.internalDonePulse = false) (c : BurstCycle)
    (rdUsed wrUsed : BitVec 32) :
    readGauge s q n < readGauge (s.step P c rdUsed wrUsed) (q + s.commandedWords c)
        (n + (s.returned c).isSome.toNat) ∨
      ReaderStill s (s.step P c rdUsed wrUsed) c := by
  have hrm := BurstBus.rmState_step (P := P) hd c rdUsed wrUsed
  have hrb := T.rb_pos
  simp only [readGauge, hrm]
  rcases h.reader.accepted c with ⟨hacc, hnum, hwait⟩ | ⟨_, hnum, hst, hw⟩
  · have hstate : s.ctl.rm.fsm P (s.ctl.rmInputs (s.inputs c rdUsed wrUsed)) = s.ctl.rm ∨
        (s.ctl.rm.rmState = .waitFifo ∧
          (s.ctl.rm.fsm P (s.ctl.rmInputs (s.inputs c rdUsed wrUsed))).rmState = .read) := by
      cases h.reader.phase with
      | wait hs _ =>
          rcases ReadMaster.fsm_waitFifo (P := P)
              (i := s.ctl.rmInputs (s.inputs c rdUsed wrUsed)) hs with ⟨_, _, he⟩ | ⟨_, he⟩
          · exact Or.inr ⟨hs, by rw [he]⟩
          · exact Or.inl he
      | command hs _ _ _ _ =>
          rcases ReadMaster.fsm_read (P := P)
              (i := s.ctl.rmInputs (s.inputs c rdUsed wrUsed)) hs with ⟨hw, _⟩ | ⟨_, he⟩
          · have hw' : c.rmWaitrequest = false := hw
            exact absurd (hw'.symm.trans (hwait hs)) (by decide)
          · exact Or.inl he
    rw [hnum]
    rcases hstate with he | ⟨hs, he⟩
    · rw [he]
      cases hret : s.returned c with
      | none => exact Or.inr (still_of_idle hd hacc hret hwait he)
      | some r =>
          left
          simp
    · left
      rw [he, hs, if_pos rfl, if_neg (by decide)]
      omega
  · left
    rw [hnum, if_pos hst]
    split <;> omega

/-- A cycle completes the transfer, advances the write side, or leaves it alone. -/
theorem writer_advances (h : InTransfer T s q n m)
    (hd : s.ctl.wm.internalDonePulse = false) (c : BurstCycle)
    (rdUsed wrUsed : BitVec 32) :
    (s.step P c rdUsed wrUsed).ctl.wm.internalDonePulse = true ∨
      writeGauge s m < writeGauge (s.step P c rdUsed wrUsed) (m + (s.takesBeat c).toNat) ∨
      WriterStill s (s.step P c rdUsed wrUsed) c := by
  have hwm : (s.step P c rdUsed wrUsed).ctl.wm =
      s.ctl.wm.step (s.ctl.wmInputs (s.inputs c rdUsed wrUsed)) := rfl
  obtain ⟨p, hp⟩ := h.writer
  simp only [writeGauge, hwm]
  cases hp.phase with
  | complete _ _ hd' _ _ => exact absurd (hd'.symm.trans hd) (by decide)
  | wait hs hw _ _ _ =>
      have hbeat : s.takesBeat c = false := by simp [BurstBus.takesBeat, hw]
      have hst : ¬ s.ctl.wm.wmFsm = .wBurst := by
        rw [hs]
        decide
      rcases WriteMaster.step_wWaitData
          (i := s.ctl.wmInputs (s.inputs c rdUsed wrUsed)) hs with
        ⟨_, he⟩ | ⟨_, _, he⟩ | ⟨_, _, he⟩
      · left
        rw [he]
      · right
        left
        rw [he, hbeat, if_neg hst]
        simp
      · right
        right
        have hsame : ∀ w : WriteMaster, w.internalDonePulse = false → w.wmWrite = false →
            { w with internalDonePulse := false, wmWrite := false } = w := by
          rintro ⟨⟩ rfl rfl
          rfl
        exact ⟨hbeat, by rw [hwm, he, hsame _ hd hw], fun hs' => absurd hs' hst⟩
  | burst hs hw _ _ _ _ _ _ _ _ =>
      right
      rcases WriteMaster.step_wBurst
          (i := s.ctl.wmInputs (s.inputs c rdUsed wrUsed)) hs with
        ⟨hwait, _, he⟩ | ⟨hwait, _, he⟩ | ⟨hwait, he⟩
      · left
        have hwait' : c.wmWaitrequest = false := hwait
        have hbeat : s.takesBeat c = true := by simp [BurstBus.takesBeat, hw, hwait']
        rw [he, hbeat, if_pos hs]
        simp
        omega
      · left
        have hwait' : c.wmWaitrequest = false := hwait
        have hbeat : s.takesBeat c = true := by simp [BurstBus.takesBeat, hw, hwait']
        rw [he, hbeat, if_pos hs]
        simp
      · right
        have hwait' : c.wmWaitrequest = true := hwait
        have hsame : ∀ w : WriteMaster, w.internalDonePulse = false →
            { w with internalDonePulse := false } = w := by
          rintro ⟨⟩ rfl
          rfl
        exact ⟨by simp [BurstBus.takesBeat, hwait'], by rw [hwm, he, hsame _ hd],
          fun _ => hwait'⟩

/-- A bus that a cycle leaves alone keeps its needs, and the cycle meets none. -/
theorem needs_of_still {s' : BurstBus} {c : BurstCycle} (hr : ReaderStill s s' c)
    (hw : WriterStill s s' c) (k : BusNeed) (hk : s.Needs k) : s'.Needs k ∧ ¬ k.Met c := by
  cases k with
  | command =>
      refine ⟨?_, ?_⟩
      · rw [BurstBus.Needs, hr.rm]
        exact hk
      · rw [BusNeed.Met, hr.command hk]
        decide
  | reply =>
      refine ⟨?_, ?_⟩
      · rw [BurstBus.Needs, hr.owed]
        exact hk
      · rw [BusNeed.Met, hr.reply hk]
        exact fun h => h rfl
  | beat =>
      refine ⟨?_, ?_⟩
      · rw [BurstBus.Needs, hw.wm]
        exact hk
      · rw [BusNeed.Met, hw.wait hk]
        decide

/-- A bus that needs nothing and is left alone waits on both sides: the write master for a
whole burst, the read master for room, if anything is left to read.  Neither master looks
at the slaves there, so a free cycle does the same. -/
theorem waits_of_still (h : InTransfer T s q n m) (hd : s.ctl.wm.internalDonePulse = false)
    {x y : Nat} (hx : x ≤ P.fifoDepth) (hy : y < 2 ^ 32) {c : BurstCycle}
    (hr : ReaderStill s (s.step P c (BitVec.ofNat 32 x) (BitVec.ofNat 32 y)) c)
    (hw : WriterStill s (s.step P c (BitVec.ofNat 32 x) (BitVec.ofNat 32 y)) c)
    (hnone : ∀ k, ¬ s.Needs k) :
    (T.wb.toNat ∣ m ∧ m < T.words ∧ y < T.wb.toNat) ∧
      n = q ∧ (q < T.words → P.fifoDepth < x + T.rb.toNat) := by
  have howed : s.mem.owed = [] := not_not.1 (hnone .reply)
  have hread : s.ctl.rm.rmState ≠ .read := hnone .command
  have hburst : s.ctl.wm.wmFsm ≠ .wBurst := hnone .beat
  have hwfree : (s.step P (BurstCycle.free none) (BitVec.ofNat 32 x) (BitVec.ofNat 32 y)).ctl.wm =
      s.ctl.wm := by
    rw [← hw.wm]
    change s.ctl.wm.step _ = s.ctl.wm.step _
    cases hs : s.ctl.wm.wmFsm with
    | wIdle => simp only [WriteMaster.step, hs]; rfl
    | wWaitData => simp only [WriteMaster.step, hs]; rfl
    | wBurst => exact absurd hs hburst
  have hrfree : (s.step P (BurstCycle.free none) (BitVec.ofNat 32 x) (BitVec.ofNat 32 y)).ctl.rm =
      s.ctl.rm := by
    cases h.reader.phase with
    | command hs _ _ _ _ => exact absurd hs hread
    | wait hs hrd =>
        have hacc : ∀ c', s.accepted c' = none := by
          intro c'
          simp [BurstBus.accepted, hrd]
        have hret : ∀ c', s.returned c' = none := by
          intro c'
          simp [BurstBus.returned, BurstBus.available, hacc, howed]
        have hfsm : s.ctl.rm.fsm P (s.ctl.rmInputs
            (s.inputs (BurstCycle.free none) (BitVec.ofNat 32 x) (BitVec.ofNat 32 y))) =
            s.ctl.rm.fsm P (s.ctl.rmInputs
              (s.inputs c (BitVec.ofNat 32 x) (BitVec.ofNat 32 y))) := by
          simp only [ReadMaster.fsm, hs]
          rfl
        have hstate :=
          BurstBus.rmState_step (P := P) hd c (BitVec.ofNat 32 x) (BitVec.ofNat 32 y)
        rw [hr.rm, hs] at hstate
        rcases ReadMaster.fsm_waitFifo (P := P) (i := s.ctl.rmInputs
            (s.inputs c (BitVec.ofNat 32 x) (BitVec.ofNat 32 y))) hs with ⟨_, _, he⟩ | ⟨_, he⟩
        · rw [he] at hstate
          exact absurd hstate (by simp)
        · exact (still_of_idle hd (hacc _) (hret _) (fun h => absurd h hread)
            (hfsm.trans he)).rm
  obtain ⟨p, hp⟩ := h.writer
  have hbusy : s.ctl.wm.wmFsm ≠ .wIdle := by
    intro hidle
    cases hp.phase with
    | wait hs _ _ _ _ => exact absurd (hs.symm.trans hidle) (by decide)
    | burst hs _ _ _ _ _ _ _ _ _ => exact absurd (hs.symm.trans hidle) (by decide)
    | complete _ _ hd' _ _ => exact absurd (hd'.symm.trans hd) (by decide)
  obtain ⟨hn, -, hroom⟩ := h.reader_of_still (P := P) hd howed hx hrfree
  exact ⟨h.writer_of_still (P := P) hbusy hy hwfree, hn, hroom⟩

/-- A cycle completes the transfer, advances one side and pulls back none, or leaves both
alone. -/
theorem bus_advances (h : InTransfer T s q n m) (hd : s.ctl.wm.internalDonePulse = false)
    (c : BurstCycle) (rdUsed wrUsed : BitVec 32) :
    let s' := s.step P c rdUsed wrUsed
    s'.ctl.wm.internalDonePulse = true ∨
      readGauge s q n + writeGauge s m <
        readGauge s' (q + s.commandedWords c) (n + (s.returned c).isSome.toNat) +
          writeGauge s' (m + (s.takesBeat c).toNat) ∨
      (ReaderStill s s' c ∧ WriterStill s s' c ∧
        readGauge s q n + writeGauge s m =
          readGauge s' (q + s.commandedWords c) (n + (s.returned c).isSome.toNat) +
            writeGauge s' (m + (s.takesBeat c).toNat)) := by
  intro s'
  have hread : ReaderStill s s' c → readGauge s q n =
      readGauge s' (q + s.commandedWords c) (n + (s.returned c).isSome.toNat) := by
    intro hr
    simp [readGauge, hr.commanded, hr.returned, hr.rm]
  have hwrite : WriterStill s s' c →
      writeGauge s m = writeGauge s' (m + (s.takesBeat c).toNat) := by
    intro hw
    simp [writeGauge, hw.beat, hw.wm]
  rcases h.writer_advances (P := P) hd c rdUsed wrUsed with hdone | hw | hw
  · exact Or.inl hdone
  · rcases h.reader_advances (P := P) hd c rdUsed wrUsed with hr | hr
    · exact Or.inr (Or.inl (Nat.add_lt_add hr hw))
    · exact Or.inr (Or.inl (Nat.add_lt_add_of_le_of_lt (Nat.le_of_eq (hread hr)) hw))
  · rcases h.reader_advances (P := P) hd c rdUsed wrUsed with hr | hr
    · exact Or.inr (Or.inl (Nat.add_lt_add_of_lt_of_le hr (Nat.le_of_eq (hwrite hw))))
    · refine Or.inr (Or.inr ⟨hr, hw, ?_⟩)
      rw [← hread hr, ← hwrite hw]

end InTransfer

/-- The transfers `T` of an engine advance: every cycle before the completion completes
the transfer, increases the gauge, or leaves it waiting for the slaves. -/
structure BurstSystem.Advancing (E : BurstSystem) (T : Transfer) where
  gauge : E.State → Nat → Nat → Nat → Nat
  bound : Nat
  le_bound : ∀ f s ws q m, E.Active T f s ws q m → gauge s q ws.length m ≤ bound
  advances : ∀ f s ws q m c, E.Active T f s ws q m →
    (E.bus s).ctl.wm.internalDonePulse = false → BurstBus.Disciplined (E.bus s).ctl c.avs →
      (E.bus (E.step s c)).ctl.wm.internalDonePulse = true ∨
        Advances BusNeed.Met (fun s => (E.bus s).Needs) s c (E.step s c)
          (gauge s q ws.length m)
          (gauge (E.step s c) (q + (E.bus s).commandedWords c)
            (ws.length + ((E.bus s).returned c).isSome.toNat)
            (m + ((E.bus s).takesBeat c).toNat))

namespace BurstCopy

variable {P : BurstParams} {s : BurstCopy P} {T : Transfer} {ws : List (BitVec 32)}
  {q m : Nat}

/-- With room for a read burst and a write burst less their common divisor a waiting
transfer waits for a slave. -/
theorem Active.needs_of_still (h : Active T s ws q m)
    (hroom : T.rb.toNat + T.wb.toNat - Nat.gcd T.rb.toNat T.wb.toNat ≤ P.fifoDepth)
    (hd : s.engine.ctl.wm.internalDonePulse = false) {c : BurstCycle}
    (hr : InTransfer.ReaderStill s.bus (s.step c).bus c)
    (hw : InTransfer.WriterStill s.bus (s.step c).bus c) : ∃ k, s.bus.Needs k := by
  by_contra hnone
  rw [not_exists] at hnone
  have hdepth := P.fifoDepth_lt
  have hlevel := h.fifo.length_le
  rw [List.length_drop] at hlevel
  rw [bus_step h.fifo, List.length_drop] at hr hw
  obtain ⟨⟨hdvd, hm, hfew⟩, hn, hfull⟩ :=
    h.transfer.waits_of_still hd hlevel (by omega) hr hw hnone
  have hq := h.transfer.reader.q_le
  have hnext := T.next_le T.wb_dvd hdvd hm
  have hread : Nat.gcd T.rb.toNat T.wb.toNat ∣ ws.length := by
    rw [hn]
    exact Nat.dvd_trans (Nat.gcd_dvd_left _ _) h.transfer.reader.q_dvd
  have hwrite : Nat.gcd T.rb.toNat T.wb.toNat ∣ m :=
    Nat.dvd_trans (Nat.gcd_dvd_right _ _) hdvd
  exact Tank.not_blocked hroom (Nat.dvd_sub hread hwrite) ⟨hfew, hfull (by omega)⟩

/-- The transfers of `burst_master` advance when the FIFO has room for the two bursts. -/
def advancing (P : BurstParams) (T : Transfer)
    (hroom : T.rb.toNat + T.wb.toNat - Nat.gcd T.rb.toNat T.wb.toNat ≤ P.fifoDepth) :
    (system P).Advancing T where
  gauge := gauge
  bound := 5 * T.words + 2
  le_bound := fun _ _ _ _ _ h => h.1.gauge_le
  advances := by
    rintro f s ws q m c ⟨h, -⟩ hd -
    have hbus := bus_step h.fifo c
    have hcases := h.transfer.bus_advances (P := P) hd c
      (BitVec.ofNat 32 (ws.drop m).length) (BitVec.ofNat 32 (ws.drop m).length)
    rw [← hbus] at hcases
    obtain hdone | hlt | ⟨hr, hw, heq⟩ := hcases
    · exact Or.inl hdone
    · exact Or.inr (Or.inl hlt)
    · exact Or.inr (Or.inr ⟨heq, h.needs_of_still hroom hd hr hw,
        InTransfer.needs_of_still hr hw⟩)

end BurstCopy

namespace BurstStream

variable {P : BurstParams4} {s : BurstStream P} {T : Transfer}
  {ws lin lout : List (BitVec 32)} {q m : Nat}

/-- How far the words in the data path have come: those behind the pipeline by all its
places, the others by the stages that they have reached. -/
def pathGauge (s : BurstStream P) (m : Nat) : Nat :=
  (P.pipeLatency + 2) * (m + s.engine.fifoOut.usedW.toNat) +
    Elastic.age P.pipeLatency s.engine.pipe.stage

/-- How far a transfer is. -/
def gauge (s : BurstStream P) (q n m : Nat) : Nat :=
  InTransfer.readGauge s.bus q n + InTransfer.writeGauge s.bus m + pathGauge s m

/-- The word offered to the pipeline. -/
def offered (s : BurstStream P) : Option (BitVec 32) :=
  if s.engine.fifoIn.empty then none else some s.engine.fifoIn.rdData

/-- One cycle adds the places that the words of the data path move. -/
theorem pathGauge_step (hl : Stores s lin lout) {c : BurstCycle}
    (hbeat : s.engine.ctl.wm.fifoRdEn c.wmWaitrequest = true → 0 < lout.length) :
    pathGauge (s.step c) (m + (s.engine.ctl.wm.fifoRdEn c.wmWaitrequest).toNat) =
      pathGauge s m + s.drains.isSome.toNat +
        (Elastic.ready P.pipeLatency s.engine.pipe.stage s.engine.fifoOut.full 0 &&
          s.offered.isSome).toNat +
        Elastic.movesFrom P.pipeLatency s.engine.pipe.stage s.engine.fifoOut.full
          P.pipeLatency := by
  have hstage : (s.step c).engine.pipe.stage =
      Elastic.step P.pipeLatency (Pipeline.op s.engine.ctrlCoeff) s.engine.pipe.stage s.offered
        s.engine.fifoOut.full := Pipeline.stage_step _ _
  have hout : s.drains =
      Elastic.out P.pipeLatency s.engine.pipe.stage s.engine.fifoOut.full :=
    Pipeline.out_eq.symm
  have hage := Elastic.age_step P.pipeLatency (Pipeline.op s.engine.ctrlCoeff)
    s.engine.pipe.stage s.offered s.engine.fifoOut.full
  rw [← hstage, ← hout] at hage
  have hnext := Ring.next_eq_drop (drains_not_full hl) hbeat
  have hlout := congrArg List.length hnext
  rw [List.length_drop, List.length_append] at hlout
  have hdrained : s.drains.toList.length = s.drains.isSome.toNat := by
    cases s.drains <;> rfl
  have htaken : (s.engine.ctl.wm.fifoRdEn c.wmWaitrequest).toNat ≤ lout.length := by
    cases hrd : s.engine.ctl.wm.fifoRdEn c.wmWaitrequest with
    | false => exact Nat.zero_le _
    | true => exact hbeat hrd
  have hlevel : m + (s.engine.ctl.wm.fifoRdEn c.wmWaitrequest).toNat +
      (s.step c).engine.fifoOut.usedW.toNat =
        m + s.engine.fifoOut.usedW.toNat + s.drains.isSome.toNat := by
    rw [(stores_step hl c).fifoOut.used, hl.fifoOut.used, hlout, hdrained]
    omega
  rw [pathGauge, pathGauge, hlevel, Nat.mul_add (P.pipeLatency + 2) (m + _)]
  have hsplit : (P.pipeLatency + 2) * s.drains.isSome.toNat =
      (P.pipeLatency + 1) * s.drains.isSome.toNat + s.drains.isSome.toNat := Nat.succ_mul _ _
  omega

/-- A data path that moves no word, with room in the output FIFO, holds none before it. -/
theorem path_of_no_move (hl : Stores s lin lout) (hroom : lout.length < P.fifoDepth)
    (hdrains : s.drains = none)
    (hfeeds : (Elastic.ready P.pipeLatency s.engine.pipe.stage s.engine.fifoOut.full 0 &&
      s.offered.isSome) = false)
    (hmoves : Elastic.movesFrom P.pipeLatency s.engine.pipe.stage s.engine.fifoOut.full
      P.pipeLatency = 0) : lin = [] ∧ s.held = [] := by
  have hfull : s.engine.fifoOut.full = false := by
    rw [← Bool.not_eq_true, hl.fifoOut.full_iff]
    omega
  have hout : s.drains =
      Elastic.out P.pipeLatency s.engine.pipe.stage s.engine.fifoOut.full :=
    Pipeline.out_eq.symm
  rw [hfull] at hout hfeeds hmoves
  rw [Elastic.ready, Elastic.readyFrom_false, Bool.true_and] at hfeeds
  refine ⟨?_, Elastic.held_eq_nil_of_still (hout.symm.trans hdrains) hmoves⟩
  have hempty : s.engine.fifoIn.empty = true := by
    rw [offered] at hfeeds
    cases he : s.engine.fifoIn.empty with
    | true => rfl
    | false =>
        rw [he] at hfeeds
        exact absurd hfeeds (by simp)
  exact List.length_eq_zero_iff.1 (hl.fifoIn.empty_iff.1 hempty)

/-- The places of all words of a transfer bound its gauge. -/
theorem Active.gauge_le (h : Active T s ws q m) :
    gauge s q ws.length m ≤ 5 * T.words + 2 + (P.pipeLatency + 2) * T.words := by
  obtain ⟨lin, lout, hl, hpath, -, -⟩ := h.path
  have hm := h.m_le
  have hn := h.transfer.reader.n_le
  have hq := h.transfer.reader.q_le
  have hlens := congrArg List.length hpath
  simp only [List.length_append, List.length_map, List.length_drop] at hlens
  have hage : Elastic.age P.pipeLatency s.engine.pipe.stage ≤
      (P.pipeLatency + 2) * s.held.length :=
    Nat.le_trans Elastic.age_le (Nat.mul_le_mul_right _ (Nat.le_succ _))
  have hplaces : pathGauge s m ≤ (P.pipeLatency + 2) * T.words := by
    rw [pathGauge, hl.fifoOut.used]
    refine Nat.le_trans (Nat.add_le_add_left hage _) ?_
    rw [← Nat.mul_add]
    exact Nat.mul_le_mul_left _ (by omega)
  have hbus : InTransfer.readGauge s.bus q ws.length + InTransfer.writeGauge s.bus m ≤
      5 * T.words + 2 := by
    rw [InTransfer.readGauge, InTransfer.writeGauge]
    split <;> split <;> omega
  rw [gauge]
  exact Nat.add_le_add hbus hplaces

/-- With a burst of room in each FIFO a transfer that moves nothing waits for a slave. -/
theorem Active.needs_of_still (h : Active T s ws q m) (hdepth : 511 ≤ P.fifoDepth)
    (hd : s.engine.ctl.wm.internalDonePulse = false) {c : BurstCycle}
    (hr : InTransfer.ReaderStill s.bus (s.step c).bus c)
    (hw : InTransfer.WriterStill s.bus (s.step c).bus c)
    (hpath : pathGauge (s.step c) (m + (s.bus.takesBeat c).toNat) ≤ pathGauge s m) :
    ∃ k, s.bus.Needs k := by
  by_contra hnone
  rw [not_exists] at hnone
  obtain ⟨lin, lout, hl, hwords, -, hsupply⟩ := h.path
  have hlt := P.fifoDepth_lt
  have hlin := hl.fifoIn.length_le
  have hlout := hl.fifoOut.length_le
  rw [bus_step hl] at hr hw
  obtain ⟨⟨hdvd, hm, hfew⟩, hn, hfull⟩ :=
    h.transfer.waits_of_still (P := P.toBurstParams) hd hlin (by omega) hr hw hnone
  have hwb := T.wb.isLt
  have hrb := T.rb.isLt
  have hbeat : s.engine.ctl.wm.fifoRdEn c.wmWaitrequest = true → 0 < lout.length := by
    rw [h.fifoRdEn c]
    exact fun hb => h.transfer.word_of_beat hsupply hb
  have hstep := pathGauge_step (m := m) hl hbeat
  rw [h.fifoRdEn c] at hstep
  rw [hstep] at hpath
  have hdrained : s.drains.isSome.toNat = 0 := by omega
  have hdrains : s.drains = none :=
    Option.isNone_iff_eq_none.1 (Option.isSome_eq_false_iff.1 (Bool.toNat_eq_zero.1 hdrained))
  obtain ⟨hnil, hheld⟩ := path_of_no_move hl (by omega) hdrains
    (Bool.toNat_eq_zero.1 (by omega)) (by omega)
  have hq := h.transfer.reader.q_le
  have hall : ws.length = T.words := by
    rcases Nat.lt_or_eq_of_le hq with hq' | hq'
    · have := hfull hq'
      rw [hnil, List.length_nil] at this
      omega
    · omega
  have hrest := congrArg List.length hwords
  rw [hheld, hnil] at hrest
  simp only [List.map_nil, List.append_nil, List.length_drop, List.length_map] at hrest
  have hnext := T.next_le T.wb_dvd hdvd hm
  omega

/-- The transfers of `burst_master_4` advance. -/
def advancing (P : BurstParams4) (hdepth : 511 ≤ P.fifoDepth) (T : Transfer) :
    (system P).Advancing T where
  gauge := gauge
  bound := 5 * T.words + 2 + (P.pipeLatency + 2) * T.words
  le_bound := fun _ _ _ _ _ h => h.1.gauge_le
  advances := by
    rintro f s ws q m c ⟨h, -⟩ hd -
    obtain ⟨lin, lout, hl, -, -, hsupply⟩ := h.path
    have hbus := bus_step hl c
    have hcases := h.transfer.bus_advances (P := P.toBurstParams) hd c
      (BitVec.ofNat 32 lin.length) (BitVec.ofNat 32 lout.length)
    rw [← hbus] at hcases
    have hle : pathGauge s m ≤ pathGauge (s.step c) (m + (s.bus.takesBeat c).toNat) := by
      have hstep := pathGauge_step (m := m) hl (c := c) (by
        rw [h.fifoRdEn c]
        exact fun hb => h.transfer.word_of_beat hsupply hb)
      rw [h.fifoRdEn c] at hstep
      rw [hstep]
      omega
    obtain hdone | hlt | ⟨hr, hw, heq⟩ := hcases
    · exact Or.inl hdone
    · exact Or.inr (Or.inl (Nat.add_lt_add_of_lt_of_le hlt hle))
    · refine Or.inr ?_
      rcases Nat.lt_or_eq_of_le hle with hlt | hsame
      · exact Or.inl (Nat.add_lt_add_of_le_of_lt (Nat.le_of_eq heq) hlt)
      · exact Or.inr ⟨congrArg₂ (· + ·) heq hsame,
          h.needs_of_still hdepth hd hr hw (Nat.le_of_eq hsame.symm),
          InTransfer.needs_of_still hr hw⟩

end BurstStream
end VideoProcessing
