import VideoProcessing.Lib.Sticky
import VideoProcessing.Burst.BurstMaster
import VideoProcessing.Burst.BurstMaster4
import VideoProcessing.Video.HdmiSyncGen

/-!
# The Done flags as software polls them

All three modules set Done on a completion and clear it on a write of 1.  The
two assignments stand in one block, the clear behind the set, so in a cycle with
both the clear wins and the completion is lost.  In every other run a completion
can be read until it is acknowledged.
-/

namespace VideoProcessing
namespace DoneFlags

open Lib

/-- Done reads 1 in `burst_master`. -/
def burstDone {P : BurstParams} (s : BurstMaster P) : Prop :=
  (s.ctl.csr.avsReaddata 1).getLsbD 0 = true

/-- Done reads 1 in `burst_master_4`. -/
def burst4Done {P : BurstParams4} (s : BurstMaster4 P) : Prop :=
  (s.avsReaddata 1).getLsbD 0 = true

/-- Done reads 1 in `hdmi_sync_gen`, whatever else is on the ports. -/
def hdmiDone (s : HdmiCsr) : Prop :=
  ∀ i : HdmiCsr.Inputs, i.avsAddress = 1 → (s.readDataMux i).getLsbD 30 = true

/-- In the run `is` of `burst_master` from reset no completion is lost. -/
def BurstKept (P : BurstParams) (mem0 : BitVec (clog2 P.fifoDepth) → BitVec 32)
    (is : List BurstMaster.Inputs) : Prop :=
  Sticky.Kept BurstMaster.step burstDone (fun s _ => s.ctl.wm.internalDonePulse = true)
    (fun _ i => i.avs.clearsDone = true) (BurstMaster.reset (P := P) mem0) is

/-- In the run `is` of `burst_master_4` from reset no completion is lost. -/
def Burst4Kept (P : BurstParams4) (memIn memOut : BitVec (clog2 P.fifoDepth) → BitVec 32)
    (is : List BurstMaster4.Inputs) : Prop :=
  Sticky.Kept BurstMaster4.step burst4Done (fun s _ => s.ctl.wm.internalDonePulse = true)
    (fun _ i => i.avs.clearsDone = true) (BurstMaster4.reset (P := P) memIn memOut) is

/-- In the run `is` of `hdmi_sync_gen` from reset no completion is lost. -/
def HdmiKept (s0 : HdmiCsr) (is : List HdmiCsr.Inputs) : Prop :=
  Sticky.Kept HdmiCsr.step hdmiDone (fun _ i => i.dmaDoneIn = true)
    (fun _ i => i.clearsDone = true) s0.reset is

theorem hdmiDone_iff (s : HdmiCsr) : hdmiDone s ↔ s.dmaDoneSticky = true := by
  constructor
  · intro h
    rw [← h ⟨1, false, false, 0, false, false, false⟩ rfl, HdmiCsr.readDataMux_done s rfl]
  · intro h i hi
    rw [HdmiCsr.readDataMux_done s hi, h]

/-- The two ways of writing what one edge does to a flag. -/
theorem flag_iff (clear set flag : Bool) :
    (!clear && (set || flag)) = true ↔ ¬ clear = true ∧ (set = true ∨ flag = true) := by
  cases clear <;> cases set <;> simp

theorem burstDone_step {P : BurstParams} (s : BurstMaster P) (i : BurstMaster.Inputs) :
    burstDone (s.step i) ↔
      ¬ i.avs.clearsDone = true ∧ (s.ctl.wm.internalDonePulse = true ∨ burstDone s) := by
  rw [burstDone, burstDone, BurstCsr.avsReaddata_done, BurstCsr.avsReaddata_done,
    ← flag_iff, ← BurstCsr.step_ctrlDoneReg_eq]
  rfl

theorem burst4Done_step {P : BurstParams4} (s : BurstMaster4 P) (i : BurstMaster4.Inputs) :
    burst4Done (s.step i) ↔
      ¬ i.avs.clearsDone = true ∧ (s.ctl.wm.internalDonePulse = true ∨ burst4Done s) := by
  have hread : ∀ t : BurstMaster4 P, burst4Done t ↔ t.ctl.csr.ctrlDoneReg = true := by
    intro t
    rw [← BurstCsr.avsReaddata_done]
    exact Iff.rfl
  rw [hread, hread, ← flag_iff, ← BurstCsr.step_ctrlDoneReg_eq]
  rfl

theorem hdmiDone_step (s : HdmiCsr) (i : HdmiCsr.Inputs) :
    hdmiDone (s.step i) ↔ ¬ i.clearsDone = true ∧ (i.dmaDoneIn = true ∨ hdmiDone s) := by
  rw [hdmiDone_iff, hdmiDone_iff, HdmiCsr.step_dmaDoneSticky_eq, flag_iff]

/-- **When completions are kept.**  In each of the three modules and in every run
from reset, whatever software writes and whenever transfers complete: each
completion is readable from the next cycle on until a later clear, if and only if
no cycle of the run has both a completion and a clear. -/
theorem completion_kept_iff
    (P : BurstParams) (mem0 : BitVec (clog2 P.fifoDepth) → BitVec 32)
    (is : List BurstMaster.Inputs)
    (P4 : BurstParams4) (memIn memOut : BitVec (clog2 P4.fifoDepth) → BitVec 32)
    (is4 : List BurstMaster4.Inputs) (s0 : HdmiCsr) (js : List HdmiCsr.Inputs) :
    (BurstKept P mem0 is ↔
      ∀ e ∈ log BurstMaster.step (BurstMaster.reset (P := P) mem0) is,
        ¬ (e.1.ctl.wm.internalDonePulse = true ∧ e.2.avs.clearsDone = true)) ∧
    (Burst4Kept P4 memIn memOut is4 ↔
      ∀ e ∈ log BurstMaster4.step (BurstMaster4.reset (P := P4) memIn memOut) is4,
        ¬ (e.1.ctl.wm.internalDonePulse = true ∧ e.2.avs.clearsDone = true)) ∧
    (HdmiKept s0 js ↔ ∀ i ∈ js, ¬ (i.dmaDoneIn = true ∧ i.clearsDone = true)) := by
  refine ⟨Sticky.kept_iff burstDone_step, Sticky.kept_iff burst4Done_step,
    (Sticky.kept_iff hdmiDone_step).trans ?_⟩
  constructor
  · intro h i hi
    obtain ⟨pre, post, rfl⟩ := List.append_of_mem hi
    exact h (run HdmiCsr.step s0.reset pre, i)
      ((mem_log_iff _ _ _ _).2 ⟨pre, post, rfl, rfl⟩)
  · rintro h ⟨s, i⟩ he
    obtain ⟨pre, post, his, _⟩ := (mem_log_iff _ _ _ _).1 he
    exact h i (by rw [his]; simp)

/-- The ports of an engine in a cycle with the CSR access `a`. -/
def burstCycle (a : AvsIn) : BurstMaster.Inputs where
  avs := a
  rmReaddata := 0
  rmReaddatavalid := false
  rmWaitrequest := false
  wmWaitrequest := false

/-- The same for `burst_master_4`. -/
def burst4Cycle (a : AvsIn) : BurstMaster4.Inputs where
  avs := a
  rmReaddata := 0
  rmReaddatavalid := false
  rmWaitrequest := false
  wmWaitrequest := false

/-- A Start command with length 0, and a clear of Done in the cycle in which the
transfer completes, three cycles later. -/
def clearAtCompletion : List AvsIn :=
  [AvsIn.write 0 1, AvsIn.none, AvsIn.none, AvsIn.write 1 1]

/-- A clear in the cycle of a completion loses it, in each of the modules. -/
theorem completion_lost :
    ¬ BurstKept BurstParams.standard (fun _ => 0) (clearAtCompletion.map burstCycle) ∧
    ¬ Burst4Kept BurstParams4.standard (fun _ => 0) (fun _ => 0)
      (clearAtCompletion.map burst4Cycle) ∧
    ¬ HdmiKept HdmiCsr.blank [⟨1, false, true, BitVec.twoPow 32 30, false, true, false⟩] := by
  refine ⟨fun h => ?_, fun h => ?_, fun h => ?_⟩
  · have hdone := h ([AvsIn.write 0 1, AvsIn.none, AvsIn.none].map burstCycle)
      (burstCycle (AvsIn.write 1 1)) [] [] rfl (by decide) (by simp)
    exact absurd hdone (by unfold burstDone; decide)
  · have hdone := h ([AvsIn.write 0 1, AvsIn.none, AvsIn.none].map burst4Cycle)
      (burst4Cycle (AvsIn.write 1 1)) [] [] rfl (by decide) (by simp)
    exact absurd hdone (by unfold burst4Done; decide)
  · have hdone := h [] _ [] [] rfl rfl (by simp)
    rw [hdmiDone_iff] at hdone
    exact absurd hdone (by decide)

end DoneFlags
end VideoProcessing
