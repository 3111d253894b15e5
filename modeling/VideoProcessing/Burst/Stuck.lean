import VideoProcessing.Burst.Stream

/-!
# A busy engine that nothing moves

In a *free* cycle software writes no register and no slave stalls.  A state is
stuck when the write master is busy, the read slave owes nothing and a free cycle
changes nothing.  `writer_of_still` and `reader_of_still` say what the masters of a
stuck engine wait for; `BurstStream.never_stuck` rules it out for `burst_master_4`,
whose two FIFOs give each master one of its own.
-/

namespace VideoProcessing

open Lib

/-- A cycle without a register write in which neither slave stalls. -/
def BurstCycle.free (ret : Option (BitVec 32)) : BurstCycle where
  avs := AvsIn.none
  rmWaitrequest := false
  ret := ret
  wmWaitrequest := false

variable {P : BurstParams} {s : BurstBus} {T : Transfer} {q n m : Nat}

namespace InTransfer

/-- A busy write master has not completed. -/
theorem not_done (h : InTransfer T s q n m) (hbusy : s.ctl.wm.wmFsm ≠ .wIdle) :
    s.ctl.wm.internalDonePulse = false := by
  obtain ⟨p, hp⟩ := h.writer
  cases hp.phase with
  | wait _ _ hd _ _ => exact hd
  | burst _ _ hd _ _ _ _ _ _ _ => exact hd
  | complete hs _ _ _ _ => exact absurd hs hbusy

/-- A write master that a free cycle leaves alone waits for a burst. -/
theorem writer_of_still (h : InTransfer T s q n m) (hbusy : s.ctl.wm.wmFsm ≠ .wIdle)
    {y : Nat} (hy : y < 2 ^ 32) {ret : Option (BitVec 32)} {rdUsed : BitVec 32}
    (hstill : (s.step P (BurstCycle.free ret) rdUsed (BitVec.ofNat 32 y)).ctl.wm = s.ctl.wm) :
    T.wb.toNat ∣ m ∧ m < T.words ∧ y < T.wb.toNat := by
  have hwm : (s.step P (BurstCycle.free ret) rdUsed (BitVec.ofNat 32 y)).ctl.wm =
      s.ctl.wm.step
        (s.ctl.wmInputs (s.inputs (BurstCycle.free ret) rdUsed (BitVec.ofNat 32 y))) := rfl
  rw [hwm] at hstill
  obtain ⟨p, hp⟩ := h.writer
  have hle := hp.p_le
  cases hp.phase with
  | complete hs _ _ _ _ => exact absurd hs hbusy
  | burst hs _ _ _ _ _ _ _ _ _ =>
      exfalso
      rcases WriteMaster.step_wBurst
          (i := s.ctl.wmInputs (s.inputs (BurstCycle.free ret) rdUsed (BitVec.ofNat 32 y))) hs
        with ⟨_, _, he⟩ | ⟨_, _, he⟩ | ⟨hwait, _⟩
      · have hfsm := congrArg WriteMaster.wmFsm (he.symm.trans hstill)
        simp [hs] at hfsm
      · have hcnt := congrArg WriteMaster.wmWordCnt (he.symm.trans hstill)
        have hone : (1#9 : BitVec 9) = 0 := by
          have hsub : s.ctl.wm.wmWordCnt + 1 - s.ctl.wm.wmWordCnt = 0 := by
            rw [show s.ctl.wm.wmWordCnt + 1 = s.ctl.wm.wmWordCnt from hcnt,
              BitVec.sub_self]
            rfl
          rw [BitVec.add_comm, BitVec.add_sub_cancel] at hsub
          exact hsub
        exact absurd hone (by decide)
      · exact absurd hwait Bool.false_ne_true
  | wait hs _ _ hbeats _ =>
      rw [hbeats]
      rcases WriteMaster.step_wWaitData
          (i := s.ctl.wmInputs (s.inputs (BurstCycle.free ret) rdUsed (BitVec.ofNat 32 y))) hs
        with ⟨_, he⟩ | ⟨_, _, he⟩ | ⟨hrem, hused, _⟩
      · have hfsm := congrArg WriteMaster.wmFsm (he.symm.trans hstill)
        simp [hs] at hfsm
      · have hfsm := congrArg WriteMaster.wmFsm (he.symm.trans hstill)
        simp [hs] at hfsm
      · have hwb := T.wb.isLt
        have hcheck : ¬ s.ctl.csr.ctrlWrBurst.setWidth 32 ≤ BitVec.ofNat 32 y := hused
        rw [h.config.wb, BitVec.le_def, Counter.toNat_ofNat_of_lt hy,
          BitVec.toNat_setWidth, Nat.mod_eq_of_lt (by omega)] at hcheck
        refine ⟨hp.p_dvd, ?_, by omega⟩
        rcases Nat.lt_or_eq_of_le hle with hlt | heq
        · exact hlt
        · rw [hp.remaining, heq, Nat.sub_self] at hrem
          exact absurd rfl hrem

/-- A read master that a free cycle leaves alone has no word in flight, and no room
for the next burst if there is one. -/
theorem reader_of_still (h : InTransfer T s q n m)
    (hd : s.ctl.wm.internalDonePulse = false) (howed : s.mem.owed = []) {x : Nat}
    (hx : x ≤ P.fifoDepth) {ret : Option (BitVec 32)} {wrUsed : BitVec 32}
    (hstill : (s.step P (BurstCycle.free ret) (BitVec.ofNat 32 x) wrUsed).ctl.rm = s.ctl.rm) :
    n = q ∧ s.returned (BurstCycle.free ret) = none ∧
      (q < T.words → P.fifoDepth < x + T.rb.toNat) := by
  have hdepth := P.fifoDepth_lt
  have hwords := T.words_lt
  have hn := h.reader.n_le
  have hall : n = q := by
    have hdrop := h.reader.owed
    rw [howed] at hdrop
    have hlen := congrArg List.length hdrop
    rw [List.length_nil, List.length_drop, length_wordAddrs] at hlen
    omega
  have hrm := ReadMaster.step_of_not_done (P := P) (m := s.ctl.rm)
    (i := s.ctl.rmInputs (s.inputs (BurstCycle.free ret) (BitVec.ofNat 32 x) wrUsed)) hd
  have hstate := congrArg ReadMaster.rmState (hrm.symm.trans hstill)
  obtain ⟨hs, hread⟩ : s.ctl.rm.rmState = .waitFifo ∧ s.ctl.rm.rmRead = false := by
    cases h.reader.phase with
    | wait hs hread => exact ⟨hs, hread⟩
    | command hs _ _ _ _ =>
        exfalso
        rcases ReadMaster.fsm_read (P := P)
            (i := s.ctl.rmInputs (s.inputs (BurstCycle.free ret) (BitVec.ofNat 32 x) wrUsed)) hs
          with ⟨_, he⟩ | ⟨hwait, _⟩
        · simp [he, hs] at hstate
        · exact absurd hwait Bool.false_ne_true
  refine ⟨hall, ?_, ?_⟩
  · simp [BurstBus.returned, BurstBus.available, BurstBus.accepted, hread, howed]
  · intro hlt
    rcases ReadMaster.fsm_waitFifo (P := P)
        (i := s.ctl.rmInputs (s.inputs (BurstCycle.free ret) (BitVec.ofNat 32 x) wrUsed)) hs
      with ⟨_, _, he⟩ | ⟨hroom, _⟩
    · simp [he, hs] at hstate
    · have hrb := T.rb.isLt
      have hrem : s.ctl.rm.readRemainingLen > 0 := by
        rw [h.reader.remaining, gt_iff_lt, BitVec.lt_def,
          Counter.toNat_ofNat_of_lt (by omega)]
        change 0 < 4 * (T.words - q)
        omega
      have hno := hroom hrem
      rw [ReadMaster.room, decide_eq_false_iff_not] at hno
      have hcheck : ¬ BitVec.ofNat 32 x + s.ctl.rm.pendingReads +
          s.ctl.csr.ctrlRdBurst.setWidth 32 ≤ BitVec.ofNat 32 P.fifoDepth := hno
      rw [h.reader.pending, hall, Nat.sub_self, h.config.rb, ← BitVec.ofNat_toNat,
        ← BitVec.ofNat_add, ← BitVec.ofNat_add, BitVec.le_def,
        Counter.toNat_ofNat_of_lt (by omega),
        Counter.toNat_ofNat_of_lt (by omega)] at hcheck
      omega

end InTransfer

namespace BurstStream

variable {P : BurstParams4} {s : BurstStream P} {ws lin lout : List (BitVec 32)}

/-- The write master is busy, no word is owed and a free cycle changes nothing. -/
def Stuck (s : BurstStream P) : Prop :=
  s.engine.ctl.wm.wmFsm ≠ .wIdle ∧ s.mem.owed = [] ∧ ∃ ret, s.step (BurstCycle.free ret) = s

section Drained

/-- A data path that a free cycle leaves alone, with room in the output FIFO, holds
no word before it. -/
theorem path_of_still (hl : Stores s lin lout) (hfull : s.engine.fifoOut.full = false)
    {c : BurstCycle} (hret : s.bus.returned c = none)
    (hin : (s.step c).engine.fifoIn.usedW = s.engine.fifoIn.usedW)
    (hpipe : (s.step c).engine.pipe.pipelineValid = s.engine.pipe.pipelineValid) :
    lin = [] ∧ s.held = [] := by
  have hready : ∀ g, s.engine.pipe.pipelineReady P.pipeLatency s.engine.fifoOut.full g =
      true := by
    intro g
    rw [hfull, Pipeline.pipelineReady_eq, Elastic.ready, Elastic.readyFrom_false]
  have hnil : lin = [] := by
    by_contra hne
    have hempty : s.engine.fifoIn.empty = false := by
      rw [← Bool.not_eq_true, hl.fifoIn.empty_iff]
      simpa using hne
    have hfeeds : s.feeds = true := by
      rw [feeds, Pipeline.fifoInRdEn, hempty, hready 0]
      rfl
    have hnext := (stores_step hl c).fifoIn
    rw [hret, hfeeds] at hnext
    have hused := congrArg BitVec.toNat hin
    rw [hnext.used, hl.fifoIn.used, Ring.length_next] at hused
    have hpos := List.length_pos_iff.2 hne
    simp at hused
    omega
  have hempty : s.engine.fifoIn.empty = true := hl.fifoIn.empty_iff.2 (by rw [hnil]; rfl)
  have hvalid : ∀ g, g ≤ P.pipeLatency → s.engine.pipe.pipelineValid g = false := by
    intro g hg
    induction g with
    | zero =>
        have hzero := congrFun hpipe 0
        change (if s.engine.pipe.pipelineReady P.pipeLatency s.engine.fifoOut.full 0 then
          !s.engine.fifoIn.empty else s.engine.pipe.pipelineValid 0) = _ at hzero
        rw [hready 0, hempty] at hzero
        exact hzero.symm
    | succ g ih =>
        have hsucc := congrFun hpipe (g + 1)
        change (if g < P.pipeLatency &&
          s.engine.pipe.pipelineReady P.pipeLatency s.engine.fifoOut.full (g + 1) then
            s.engine.pipe.pipelineValid g else s.engine.pipe.pipelineValid (g + 1)) = _ at hsucc
        rw [hready (g + 1), decide_eq_true (by omega), ih (by omega)] at hsucc
        exact hsucc.symm
  exact ⟨hnil, Pipeline.held_eq_nil.2 hvalid⟩

end Drained

/-- In a transfer the engine is not stuck: an empty input FIFO has let every word be
commanded and come back, and the output FIFO holds the rest, a whole burst. -/
theorem Active.not_stuck {T : Transfer} {q m : Nat} (h : Active T s ws q m)
    (hdepth : 511 ≤ P.fifoDepth) : ¬ Stuck s := by
  rintro ⟨hbusy, howed, ret, hstill⟩
  obtain ⟨lin, lout, hstores, hpath, _, _⟩ := h.path
  have hbus := bus_step hstores (BurstCycle.free ret)
  rw [hstill] at hbus
  have hd := h.transfer.not_done hbusy
  have hlt := P.fifoDepth_lt
  have hlin := hstores.fifoIn.length_le
  have hlout := hstores.fifoOut.length_le
  obtain ⟨hdvd, hm, hfew⟩ := h.transfer.writer_of_still (P := P.toBurstParams) hbusy
    (y := lout.length) (by omega)
    (congrArg (fun b : BurstBus => b.ctl.wm) hbus).symm
  obtain ⟨hn, hret, hroom⟩ := h.transfer.reader_of_still (P := P.toBurstParams) hd howed
    (x := lin.length) hlin (congrArg (fun b : BurstBus => b.ctl.rm) hbus).symm
  have hwb := T.wb.isLt
  have hrb := T.rb.isLt
  have hfull : s.engine.fifoOut.full = false := by
    rw [← Bool.not_eq_true, hstores.fifoOut.full_iff]
    omega
  obtain ⟨rfl, hheld⟩ := path_of_still hstores hfull hret
    (congrArg (fun s : BurstStream P => s.engine.fifoIn.usedW) hstill)
    (congrArg (fun s : BurstStream P => s.engine.pipe.pipelineValid) hstill)
  have hq := h.transfer.reader.q_le
  have hall : ws.length = T.words := by
    rcases Nat.lt_or_eq_of_le hq with hq' | hq'
    · have := hroom hq'
      simp at this
      omega
    · omega
  have hrest := congrArg List.length hpath
  rw [hheld] at hrest
  simp only [List.map_nil, List.append_nil, List.length_drop, List.length_map] at hrest
  have hnext := T.next_le T.wb_dvd hdvd hm
  omega

/-- **`burst_master_4` is never stuck.**  In every run from reset of a disciplined
software, for FIFOs of at least 511 words: no state in which the write master is
busy and the read slave owes nothing stays as it is in a free cycle. -/
theorem never_stuck (P : BurstParams4) (hdepth : 511 ≤ P.fifoDepth)
    (memIn memOut : BitVec (clog2 P.fifoDepth) → BitVec 32) (cs : List BurstCycle)
    (hdisc : ∀ p ∈ log step (init (P := P) memIn memOut) cs,
      BurstBus.Disciplined p.1.engine.ctl p.2.avs) :
    ¬ Stuck (run step (init (P := P) memIn memOut) cs) := by
  have hsettled :=
    BurstSystem.settled_run (E := system P) (clean_init memIn memOut) rfl cs hdisc
  rcases hsettled with ⟨hclean, _⟩ | ⟨T, f, ws, q, m, hact, _⟩
  · rintro ⟨hbusy, _⟩
    have hclean' : Clean (run step (init (P := P) memIn memOut) cs) := hclean
    exact hbusy hclean'.quiet.wmFsm
  · exact hact.not_stuck hdepth

/-- While two words are on their way. -/
theorem never_stuck_two_words :
    ¬ Stuck (run step (init (P := BurstParams4.standard) (fun _ => 0) fun _ => 0)
      (programTwoWords ++ BurstCycle.ready (AvsIn.write 0 1) 0 ::
        (List.range 7).map fun i => BurstCycle.ready AvsIn.none (BitVec.ofNat 32 i))) :=
  never_stuck BurstParams4.standard (by decide) (fun _ => 0) (fun _ => 0) _ (by decide +kernel)

end BurstStream
end VideoProcessing
