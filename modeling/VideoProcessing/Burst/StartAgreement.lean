import VideoProcessing.Burst.BurstMaster
import VideoProcessing.Burst.BurstMaster4

/-!
# Which transfer the two masters run

A start pulse should start both masters or neither.  `Together` is the relation
of their states that makes it so: the read master is out of `IDLE` exactly while
the write master is out of `W_IDLE` or reports its completion.  It is kept by
every cycle but one kind: a Start command that arrives in the very cycle in
which the write master finds the transfer complete (`LateStart`).  There the
pulse meets the completion, which sends the read master to `IDLE` and leaves the
write master free to start.
-/

namespace VideoProcessing

open Lib

namespace BurstControl

variable {P : BurstParams} {s : BurstControl}

/-- Both masters leave their idle state with the programmed length. -/
def TakenByBoth (s s' : BurstControl) : Prop :=
  (s.rm.rmState = .idle ∧ s'.rm.rmState ≠ .idle) ∧
    (s.wm.wmFsm = .wIdle ∧ s'.wm.wmFsm ≠ .wIdle) ∧
      s'.rm.readRemainingLen = s.csr.ctrlLen ∧ s'.wm.remainingLen = s.csr.ctrlLen

/-- Neither master leaves its idle state. -/
def IgnoredByBoth (s s' : BurstControl) : Prop :=
  ¬ (s.rm.rmState = .idle ∧ s'.rm.rmState ≠ .idle) ∧
    ¬ (s.wm.wmFsm = .wIdle ∧ s'.wm.wmFsm ≠ .wIdle)

/-- The write master runs a transfer that the read master does not run. -/
def WriterAlone (s : BurstControl) : Prop :=
  s.wm.wmFsm ≠ .wIdle ∧ s.rm.rmState = .idle

/-- The masters agree in `s`, where `next` gives the state after each input: a
start pulse is taken by both or ignored by both, and the write master does not
run alone. -/
def Agrees {ι : Type} (next : ι → BurstControl) (s : BurstControl) : Prop :=
  (s.csr.ctrlStart = true → ∀ i, TakenByBoth s (next i) ∨ IgnoredByBoth s (next i)) ∧
    ¬ WriterAlone s

/-- A Start command in the cycle in which the write master is about to report
the completion. -/
def LateStart (s : BurstControl) (avs : AvsIn) : Prop :=
  s.wm.wmFsm = .wWaitData ∧ s.wm.remainingLen = 0 ∧ avs.start = true

/-- The relation between the states of the two masters. -/
structure Together (s : BurstControl) : Prop where
  start_alone : s.csr.ctrlStart = true → s.wm.internalDonePulse = false
  done_idle : s.wm.internalDonePulse = true → s.wm.wmFsm = .wIdle
  busy : s.rm.rmState ≠ .idle ↔ s.wm.wmFsm ≠ .wIdle ∨ s.wm.internalDonePulse = true

theorem together_reset (P : BurstParams) : Together (reset P) := by
  refine ⟨fun _ => rfl, fun h => absurd h (by simp [reset, WriteMaster.reset]), ?_⟩
  simp [reset, ReadMaster.reset, WriteMaster.reset]

/-- The completion pulse after a cycle, by the state that raises it. -/
theorem done_step (i : Inputs) :
    (s.step P i).wm.internalDonePulse = true ↔
      s.wm.wmFsm = .wWaitData ∧ s.wm.remainingLen = 0 := by
  change (s.wm.step (s.wmInputs i)).internalDonePulse = true ↔ _
  cases hs : s.wm.wmFsm with
  | wIdle =>
      rcases WriteMaster.step_wIdle (i := s.wmInputs i) hs with ⟨_, he⟩ | ⟨_, he⟩ <;>
        rw [he] <;> simp
  | wWaitData =>
      rcases WriteMaster.step_wWaitData (i := s.wmInputs i) hs with
        ⟨hr, he⟩ | ⟨hr, _, he⟩ | ⟨hr, _, he⟩ <;> rw [he]
      · simp [hr]
      · simpa using hr
      · simpa using hr
  | wBurst =>
      rcases WriteMaster.step_wBurst (i := s.wmInputs i) hs with
        ⟨_, _, he⟩ | ⟨_, _, he⟩ | ⟨_, he⟩ <;> rw [he] <;> simp

/-- When the write master is out of `W_IDLE` after a cycle. -/
theorem wmFsm_step (i : Inputs) :
    (s.step P i).wm.wmFsm ≠ .wIdle ↔
      (s.wm.wmFsm = .wIdle ∧ s.csr.ctrlStart = true) ∨
        (s.wm.wmFsm ≠ .wIdle ∧ ¬ (s.wm.wmFsm = .wWaitData ∧ s.wm.remainingLen = 0)) := by
  change (s.wm.step (s.wmInputs i)).wmFsm ≠ .wIdle ↔ _
  cases hs : s.wm.wmFsm with
  | wIdle =>
      rcases WriteMaster.step_wIdle (i := s.wmInputs i) hs with ⟨hc, he⟩ | ⟨hc, he⟩
      · have hc' : s.csr.ctrlStart = true := hc
        rw [he]
        simp [hc']
      · have hc' : s.csr.ctrlStart = false := hc
        rw [he]
        simp [hs, hc']
  | wWaitData =>
      rcases WriteMaster.step_wWaitData (i := s.wmInputs i) hs with
        ⟨hr, he⟩ | ⟨hr, _, he⟩ | ⟨hr, _, he⟩ <;> rw [he]
      · simp [hr]
      · simpa using hr
      · simpa [hs] using hr
  | wBurst =>
      rcases WriteMaster.step_wBurst (i := s.wmInputs i) hs with
        ⟨_, _, he⟩ | ⟨_, _, he⟩ | ⟨_, he⟩ <;> rw [he] <;> simp [hs]

/-- When the read master is out of `IDLE` after a cycle. -/
theorem rmState_step (i : Inputs) :
    (s.step P i).rm.rmState ≠ .idle ↔
      s.wm.internalDonePulse = false ∧
        (s.rm.rmState ≠ .idle ∨ s.csr.ctrlStart = true) := by
  change (s.rm.step P (s.rmInputs i)).rmState ≠ .idle ↔ _
  cases hd : s.wm.internalDonePulse with
  | true =>
      rw [(ReadMaster.step_of_done (i := s.rmInputs i) hd).1]
      simp
  | false =>
      rw [ReadMaster.step_of_not_done (i := s.rmInputs i) hd]
      change (s.rm.fsm P (s.rmInputs i)).rmState ≠ .idle ↔ _
      cases hs : s.rm.rmState with
      | idle =>
          rcases ReadMaster.fsm_idle (P := P) (i := s.rmInputs i) hs with
            ⟨hc, he⟩ | ⟨hc, he⟩
          · have hc' : s.csr.ctrlStart = true := hc
            rw [he]
            simp [hc']
          · have hc' : s.csr.ctrlStart = false := hc
            rw [he]
            simp [hs, hc']
      | waitFifo =>
          rcases ReadMaster.fsm_waitFifo (P := P) (i := s.rmInputs i) hs with
            ⟨_, _, he⟩ | ⟨_, he⟩ <;> rw [he] <;> simp [hs]
      | read =>
          rcases ReadMaster.fsm_read (P := P) (i := s.rmInputs i) hs with
            ⟨_, he⟩ | ⟨_, he⟩ <;> rw [he] <;> simp [hs]

/-- Every cycle without a late Start keeps the masters together. -/
theorem Together.step (h : Together s) {i : Inputs} (hi : ¬ LateStart s i.avs) :
    Together (s.step P i) := by
  have hdone := done_step (P := P) (s := s) i
  have hwm := wmFsm_step (P := P) (s := s) i
  have hrm := rmState_step (P := P) (s := s) i
  have hstart : (s.step P i).csr.ctrlStart = i.avs.start := BurstCsr.step_ctrlStart _ _ _
  refine ⟨?_, ?_, ?_⟩
  · intro hs
    rw [hstart] at hs
    rw [← Bool.not_eq_true, hdone]
    intro ⟨h1, h2⟩
    exact hi ⟨h1, h2, hs⟩
  · intro hd
    have hs := hdone.1 hd
    by_contra hne
    rcases hwm.1 hne with ⟨h1, _⟩ | ⟨_, h2⟩
    · rw [hs.1] at h1
      exact absurd h1 (by decide)
    · exact h2 hs
  · rw [hrm, hwm, hdone, h.busy]
    have halone := h.start_alone
    have hidle := h.done_idle
    constructor
    · rintro ⟨hnd, (hne | hd) | hs⟩
      · by_cases hlast : s.wm.wmFsm = .wWaitData ∧ s.wm.remainingLen = 0
        · exact Or.inr hlast
        · exact Or.inl (Or.inr ⟨hne, hlast⟩)
      · rw [hnd] at hd
        exact absurd hd (by decide)
      · by_cases hw : s.wm.wmFsm = .wIdle
        · exact Or.inl (Or.inl ⟨hw, hs⟩)
        · by_cases hlast : s.wm.wmFsm = .wWaitData ∧ s.wm.remainingLen = 0
          · exact Or.inr hlast
          · exact Or.inl (Or.inr ⟨hw, hlast⟩)
    · have hnd : s.wm.wmFsm ≠ .wIdle → s.wm.internalDonePulse = false := by
        intro hne
        cases hd : s.wm.internalDonePulse with
        | false => rfl
        | true => exact absurd (hidle hd) hne
      rintro ((⟨_, hs⟩ | ⟨hne, _⟩) | ⟨hw, _⟩)
      · exact ⟨halone hs, Or.inr hs⟩
      · exact ⟨hnd hne, Or.inl (Or.inl hne)⟩
      · have hne : s.wm.wmFsm ≠ .wIdle := by
          rw [hw]
          decide
        exact ⟨hnd hne, Or.inl (Or.inl hne)⟩

/-- Masters that are together agree on a start pulse. -/
theorem Together.agrees (h : Together s) {ι : Type} (f : ι → Inputs) :
    Agrees (fun i => s.step P (f i)) s := by
  refine ⟨?_, ?_⟩
  · intro hs i
    have hnd := h.start_alone hs
    have hbusy := h.busy
    rw [hnd] at hbusy
    by_cases hw : s.wm.wmFsm = .wIdle
    · left
      have hr : s.rm.rmState = .idle := by
        by_contra hne
        rcases hbusy.1 hne with h1 | h1
        · exact h1 hw
        · exact absurd h1 (by decide)
      have hrm : (s.step P (f i)).rm =
          { s.rm.fsm P (s.rmInputs (f i)) with
            pendingReads := s.rm.pendingNext (s.rmInputs (f i)) } :=
        ReadMaster.step_of_not_done (i := s.rmInputs (f i)) hnd
      rcases ReadMaster.fsm_idle (P := P) (i := s.rmInputs (f i)) hr with
        ⟨_, he⟩ | ⟨hc, _⟩
      · rw [he] at hrm
        rcases WriteMaster.step_wIdle (i := s.wmInputs (f i)) hw with
          ⟨_, hwe⟩ | ⟨hc, _⟩
        · have hwm : (s.step P (f i)).wm = _ := hwe
          refine ⟨⟨hr, ?_⟩, ⟨hw, ?_⟩, ?_, ?_⟩
          · rw [hrm]
            simp
          · rw [hwm]
            simp
          · rw [hrm]
            rfl
          · rw [hwm]
            rfl
        · have hc' : s.csr.ctrlStart = false := hc
          rw [hs] at hc'
          exact absurd hc' (by decide)
      · have hc' : s.csr.ctrlStart = false := hc
        rw [hs] at hc'
        exact absurd hc' (by decide)
    · right
      have hr : s.rm.rmState ≠ .idle := hbusy.2 (Or.inl hw)
      exact ⟨fun h1 => hr h1.1, fun h1 => hw h1.1⟩
  · rintro ⟨hw, hr⟩
    exact h.busy.2 (Or.inl hw) hr

/-- After a late Start the pulse is taken by the write master alone. -/
theorem late_disagrees {i : Inputs} (hi : LateStart s i.avs)
    {ι : Type} (f : ι → Inputs) (j : ι) :
    ¬ Agrees (fun j => (s.step P i).step P (f j)) (s.step P i) := by
  obtain ⟨hw, hrem, hstart⟩ := hi
  have hdone : (s.step P i).wm.internalDonePulse = true := done_step i |>.2 ⟨hw, hrem⟩
  have hidle : (s.step P i).wm.wmFsm = .wIdle := by
    by_contra hne
    rcases (wmFsm_step i).1 hne with ⟨h1, _⟩ | ⟨_, h2⟩
    · rw [hw] at h1
      exact absurd h1 (by decide)
    · exact h2 ⟨hw, hrem⟩
  have hs : (s.step P i).csr.ctrlStart = true := by
    rw [← hstart]
    exact BurstCsr.step_ctrlStart _ _ _
  intro hagree
  rcases hagree.1 hs j with ⟨⟨_, hr⟩, _⟩ | ⟨_, hwm⟩
  · rw [rmState_step, hdone] at hr
    exact absurd hr.1 (by decide)
  · exact hwm ⟨hidle, (wmFsm_step _).2 (Or.inl ⟨hidle, hs⟩)⟩

/-- A machine whose control part starts with its masters together keeps them in
agreement exactly as long as no late Start arrives. -/
theorem agrees_run_iff {σ ι : Type} {step : σ → ι → σ} {π : σ → BurstControl}
    {f : σ → ι → Inputs} (hπ : ∀ s i, π (step s i) = (π s).step P (f s i))
    (s : σ) (h : Together (π s)) (is : List ι) :
    (∀ pre, pre <+: is →
      Agrees (fun i => π (step (run step s pre) i)) (π (run step s pre))) ↔
    ∀ p ∈ log step s is, ¬ LateStart (π p.1) (f p.1 p.2).avs := by
  induction is generalizing s with
  | nil =>
      simp only [List.prefix_nil, log_nil, List.not_mem_nil, false_implies, implies_true,
        iff_true]
      rintro pre rfl
      simp only [run_nil, hπ]
      exact h.agrees _
  | cons i is ih =>
      by_cases hlate : LateStart (π s) (f s i).avs
      · constructor
        · intro hall
          exfalso
          have hbad := hall [i] ⟨is, rfl⟩
          simp only [run_cons, run_nil, hπ] at hbad
          exact late_disagrees hlate _ i hbad
        · intro hall
          exact absurd hlate (hall (s, i) (by simp))
      · have hnext : Together (π (step s i)) := by
          rw [hπ]
          exact h.step hlate
        have hiff := ih (step s i) hnext
        constructor
        · intro hall p hp
          rcases List.mem_cons.1 hp with rfl | hp
          · exact hlate
          · refine hiff.1 ?_ p hp
            intro pre hpre
            exact hall (i :: pre) (List.cons_prefix_cons.2 ⟨rfl, hpre⟩)
        · intro hall pre hpre
          cases pre with
          | nil =>
              simp only [run_nil, hπ]
              exact h.agrees _
          | cons j pre =>
              obtain ⟨rfl, hpre'⟩ := List.cons_prefix_cons.1 hpre
              exact hiff.2 (fun p hp => hall p (List.mem_cons_of_mem _ hp)) pre hpre'

end BurstControl

open BurstControl

/-- The masters of `burst_master` agree in state `s`. -/
def BurstMaster.Agrees {P : BurstParams} (s : BurstMaster P) : Prop :=
  BurstControl.Agrees (fun i => (s.step i).ctl) s.ctl

/-- The masters of `burst_master_4` agree in state `s`. -/
def BurstMaster4.Agrees {P : BurstParams4} (s : BurstMaster4 P) : Prop :=
  BurstControl.Agrees (fun i => (s.step i).ctl) s.ctl

/-- **The masters agree on every transfer exactly when no late Start arrives.**
In every run of either engine from reset: in all states reached a start pulse is
taken by both masters or ignored by both, and the write master never runs a
transfer alone, if and only if no Start command arrived in a cycle in which the
write master was in `W_WAIT_DATA` with nothing left to write. -/
theorem start_agreement (P : BurstParams) (mem0 : BitVec (clog2 P.fifoDepth) → BitVec 32)
    (is : List BurstMaster.Inputs) (P4 : BurstParams4)
    (memIn memOut : BitVec (clog2 P4.fifoDepth) → BitVec 32)
    (is4 : List BurstMaster4.Inputs) :
    ((∀ pre, pre <+: is → (run BurstMaster.step (BurstMaster.reset mem0) pre).Agrees) ↔
      ∀ p ∈ log BurstMaster.step (BurstMaster.reset mem0) is, ¬ LateStart p.1.ctl p.2.avs) ∧
    ((∀ pre, pre <+: is4 →
        (run BurstMaster4.step (BurstMaster4.reset memIn memOut) pre).Agrees) ↔
      ∀ p ∈ log BurstMaster4.step (BurstMaster4.reset memIn memOut) is4,
        ¬ LateStart p.1.ctl p.2.avs) := by
  constructor
  · exact agrees_run_iff (P := P) (π := BurstMaster.ctl) (f := BurstMaster.ctlInputs)
      (fun _ _ => rfl) _ (together_reset P) is
  · exact agrees_run_iff (P := P4.toBurstParams) (π := BurstMaster4.ctl)
      (f := BurstMaster4.ctlInputs) (fun s i => step4_eq_step _ s.ctl (s.ctlInputs i)) _
      (together_reset P4.toBurstParams) is4

namespace BurstMaster

/-- A cycle in which the slaves do not stall. -/
def readyIn (avs : AvsIn) (valid : Bool) : Inputs where
  avs := avs
  rmReaddata := 7
  rmReaddatavalid := valid
  rmWaitrequest := false
  wmWaitrequest := false

/-- A transfer of one word with bursts of one word, and a second Start in the
cycle in which the write master finds it complete. -/
def lateStartRun : List Inputs :=
  [readyIn (AvsIn.write 5 1) false, readyIn (AvsIn.write 6 1) false,
    readyIn (AvsIn.write 4 4) false, readyIn (AvsIn.write 0 1) false,
    readyIn AvsIn.none false, readyIn AvsIn.none false, readyIn AvsIn.none false,
    readyIn AvsIn.none true, readyIn AvsIn.none false, readyIn AvsIn.none false,
    readyIn (AvsIn.write 0 1) false, readyIn AvsIn.none false]

/-- At its end the write master waits for the word of a transfer that the read
master never started. -/
theorem start_agreement_fails :
    ¬ ∀ (mem0 : BitVec (clog2 BurstParams.standard.fifoDepth) → BitVec 32)
        (is pre : List Inputs), pre <+: is → (run step (reset mem0) pre).Agrees := by
  intro h
  have hend := (h (fun _ => 0) lateStartRun lateStartRun (List.prefix_refl _)).2
  exact hend ⟨by decide +kernel, by decide +kernel⟩

end BurstMaster
end VideoProcessing
