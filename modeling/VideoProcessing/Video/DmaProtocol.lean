import VideoProcessing.Video.DmaFrames
import VideoProcessing.Video.HdmiSyncGen

/-!
# Busy, Done and Start

`DmaBus.Protocol` lists what busy, done and the triggers mean in a reachable
state, with the numbers of frames started and of done pulses counted on the log.

`CsrDma` adds the control registers of `hdmi_sync_gen`, through which software
starts a frame and sees the done pulse as a sticky flag.  The flag is cleared by
software only, so it may report an older frame than the one in progress
(`start_swallowed`); a Start command is accepted for sure when no frame has been
started since the last completion.
-/

namespace VideoProcessing

open Lib

namespace DmaBus

variable {N : BitVec 32} {s : DmaBus} {l : List (DmaBus × Cycle)} {c : Cycle}

theorem length_pushed_snoc :
    (pushed (l ++ [(s, c)])).length = (pushed l).length + (s.returned c).isSome.toNat := by
  rw [pushed_snoc, List.length_append]
  congr 1
  cases s.returned c <;> rfl

/-- How many words and done pulses the started frames have brought. -/
def Counted (N : BitVec 32) (s : DmaBus) (l : List (DmaBus × Cycle)) : Prop :=
  (Idle s ∧ (pushed l).length = N.toNat * starts l ∧ dones l = starts l) ∨
    ∃ a0 k r, InFrame N s a0 k r ∧ (pushed l).length + N.toNat = N.toNat * starts l + r ∧
      dones l + 1 = starts l

theorem Framed.counted (h : Framed N s l) : Counted N s l := by
  rcases h with ⟨h, hwords, hdones⟩ | ⟨as, a0, k, r, h, has, hwords, hdones⟩
  · left
    have hw := congrArg List.length hwords
    rw [List.length_map, length_frameAddrs, length_startAddrs] at hw
    exact ⟨h, hw, hdones⟩
  · right
    have hw := congrArg List.length hwords
    have ha := congrArg List.length has
    rw [List.length_map, List.length_append, length_frameAddrs, length_wordAddrs] at hw
    rw [length_startAddrs, List.length_append, List.length_singleton] at ha
    refine ⟨a0, k, r, h, ?_, hdones⟩
    rw [ha, Nat.mul_add]
    omega

/-- The protocol of busy, done and the triggers in a state reached with a log. -/
structure Protocol (N : BitVec 32) (s : DmaBus) (l : List (DmaBus × Cycle)) : Prop where
  /-- Busy is high exactly outside `IDLE`. -/
  busy_iff : s.dma.busy = true ↔ s.dma.state ≠ .idle
  /-- A trigger with busy low starts a frame. -/
  accepted : ∀ c, s.dma.busy = false → (s.inputs c).trigger = true →
    s.triggers c = true ∧ (s.step N c).dma.busy = true
  /-- A trigger with busy high is ignored. -/
  ignored : ∀ c, s.dma.busy = true → s.triggers c = false ∧
    ∀ d : Cycle, c.SameBus d → s.step N d = s.step N c
  /-- Done follows the last word of a frame. -/
  done_iff : ∀ c, (s.step N c).dma.dmaDone = true ↔
    (s.returned c).isSome = true ∧ N.toNat ∣ (pushed (l ++ [(s, c)])).length
  /-- The done pulses so far are the frames whose last word has arrived. -/
  done_count : dones l + s.dma.dmaDone.toNat = (pushed l).length / N.toNat
  /-- Every started frame but the running one has had its done pulse. -/
  start_count : starts l = dones l + s.dma.busy.toNat
  /-- Done finds the FSM in `WAIT_END`, which it leaves at once. -/
  done_state : s.dma.dmaDone = true → s.dma.state = .waitEnd ∧
    ∀ c, (s.step N c).dma.state = .idle ∧ (s.step N c).dma.dmaDone = false

/-- A number of words short of a whole frame is no multiple of it. -/
theorem dvd_of_frame {n k r w : Nat} (hw : w + n = n * k + r) (hr : r ≤ n) (hpos : 0 < r) :
    n ∣ w ↔ r = n := by
  have hk : n ∣ n * k := Nat.dvd_mul_right n k
  constructor
  · intro h
    have hsum : n ∣ n * k + r := by
      rw [← hw]
      exact (Nat.dvd_add_right h).2 (Nat.dvd_refl n)
    have hr' : n ∣ r := (Nat.dvd_add_right hk).1 hsum
    exact Nat.le_antisymm hr (Nat.le_of_dvd hpos hr')
  · intro h
    have hwk : w = n * k := by omega
    rw [hwk]
    exact hk

theorem Counted.protocol (hpos : 0 < N.toNat) (h : Counted N s l) :
    Protocol N s l := by
  rcases h with ⟨h, hwords, hdones⟩ | ⟨a0, k, r, h, hwords, hdones⟩
  · have hbusy := h.busy
    refine ⟨?_, ?_, ?_, ?_, ?_, ?_, ?_⟩
    · rw [hbusy]
      simp [h.state]
    · intro c _ ht
      exact ⟨by rw [h.triggers c, ht], (h.step_trigger hpos c ht).busy⟩
    · intro c hb
      exact absurd (hbusy.symm.trans hb) (by decide)
    · intro c
      rw [h.returned c]
      have hdone : (s.step N c).dma.dmaDone = false := by
        change s.dma.donePulse N (s.inputs c) = false
        simp [VideoDmaMaster.donePulse, inputs, h.returned c]
      simp [hdone]
    · rw [h.done, hwords, Nat.mul_div_cancel_left _ hpos, hdones]
      rfl
    · rw [hbusy, hdones]
      rfl
    · intro hd
      exact absurd (h.done.symm.trans hd) (by decide)
  · have hbusy := h.busy
    have hk := h.k_le
    have hrk := h.r_le
    refine ⟨?_, ?_, ?_, ?_, ?_, ?_, ?_⟩
    · rw [hbusy]
      simp [h.state_ne_idle]
    · intro c hb
      exact absurd (hbusy.symm.trans hb) (by decide)
    · intro c _
      exact ⟨h.triggers c, fun d hd => (step_congr h.state_ne_idle hd).symm⟩
    · intro c
      rw [length_pushed_snoc]
      by_cases hr : r < N.toNat
      · rw [h.step_done hr c, decide_eq_true_eq]
        cases hret : (s.returned c).isSome with
        | false =>
            simp
            omega
        | true =>
            have hiff := dvd_of_frame (n := N.toNat) (k := starts l) (r := r + 1)
              (w := (pushed l).length + 1) (by omega) (by omega) (by omega)
            simp only [Bool.toNat_true, true_and]
            exact hiff.symm
      · obtain ⟨hidle, _, hret⟩ := h.step_last (by omega) c
        rw [hidle.done, hret]
        simp
    · rw [h.done]
      by_cases hr : r = N.toNat
      · have hall : (pushed l).length = N.toNat * starts l := by omega
        rw [hall, Nat.mul_div_cancel_left _ hpos, hr]
        simp
        omega
      · have hpart : (pushed l).length = N.toNat * dones l + r := by
          rw [← hdones, Nat.mul_add] at hwords
          omega
        rw [hpart, Nat.mul_add_div hpos, Nat.div_eq_of_lt (by omega)]
        simp [hr]
    · rw [hbusy, ← hdones]
      rfl
    · intro hd
      rw [h.done, decide_eq_true_eq] at hd
      refine ⟨h.waitEnd_of_all hd, fun c => ?_⟩
      have hidle := (h.step_last hd c).1
      exact ⟨hidle.state, hidle.done⟩

end DmaBus

/-- The control registers of `hdmi_sync_gen` and the DMA master. -/
structure CsrDma where
  csr : HdmiCsr
  bus : DmaBus

namespace CsrDma

/-- What the environment does in one `clk_50` cycle. -/
structure Cycle where
  avsAddress : BitVec 3
  avsRead : Bool
  avsWrite : Bool
  avsWritedata : BitVec 32
  vsWire : Bool
  vsyncEdge : Bool
  fifoUsed : BitVec 9
  mWaitrequest : Bool
  ret : Option (BitVec 32)

/-- After reset. -/
def init (csr0 : HdmiCsr) : CsrDma where
  csr := csr0.reset
  bus := DmaBus.init

/-- The ports of the control registers. -/
def csrInputs (s : CsrDma) (c : Cycle) : HdmiCsr.Inputs where
  avsAddress := c.avsAddress
  avsRead := c.avsRead
  avsWrite := c.avsWrite
  avsWritedata := c.avsWritedata
  dmaBusy := s.bus.dma.busy
  dmaDoneIn := s.bus.dma.dmaDone
  vsWire := c.vsWire

/-- The cycle of the DMA master: it reads from the shadow pointer. -/
def dmaCycle (s : CsrDma) (c : Cycle) : DmaBus.Cycle where
  startAddr := s.csr.shadowPtr
  dmaStart := s.csr.dmaStartPulse
  dmaContEn := s.csr.dmaContEn
  vsyncEdge := c.vsyncEdge
  fifoUsed := c.fifoUsed
  mWaitrequest := c.mWaitrequest
  ret := c.ret

/-- One `clk_50` cycle. -/
def step (N : BitVec 32) (s : CsrDma) (c : Cycle) : CsrDma where
  csr := s.csr.step (s.csrInputs c)
  bus := s.bus.step N (s.dmaCycle c)

/-- A frame is started in this cycle. -/
def starts (s : CsrDma) (c : Cycle) : Bool := s.bus.triggers (s.dmaCycle c)

/-- Software reads Done = 1 in this cycle. -/
def readsDone (s : CsrDma) (c : Cycle) : Bool :=
  c.avsRead && c.avsAddress == 1 && (s.csr.readDataMux (s.csrInputs c)).getLsbD 30

/-- Software writes a Start command in this cycle. -/
def writesStart (s : CsrDma) (c : Cycle) : Bool := (s.csrInputs c).start

variable {N : BitVec 32}

theorem run_bus (s : CsrDma) (cs : List Cycle) :
    (run (step N) s cs).bus =
      run (DmaBus.step N) s.bus ((log (step N) s cs).map fun p => p.1.dmaCycle p.2) :=
  run_project_map (π := CsrDma.bus) (fun _ _ => rfl) s cs

/-- Bit 30 of the DMA control register is the sticky flag. -/
theorem readsDone_sticky {s : CsrDma} {c : Cycle} (h : s.readsDone c = true) :
    s.csr.dmaDoneSticky = true := by
  simp only [readsDone, Bool.and_eq_true, beq_iff_eq] at h
  obtain ⟨⟨_, haddr⟩, hbit⟩ := h
  exact (s.csr.readDataMux_done haddr).symm.trans hbit

/-- The sticky flag reports a completion of the past. -/
theorem done_of_sticky (csr0 : HdmiCsr) (cs : List Cycle)
    (h : (run (step N) (init csr0) cs).csr.dmaDoneSticky = true) :
    ∃ a b, cs = a ++ b ∧ (run (step N) (init csr0) a).bus.dma.dmaDone = true := by
  induction cs using List.reverseRecOn with
  | nil => exact absurd h (by simp [init, HdmiCsr.reset])
  | append_singleton cs c ih =>
      rw [run_snoc] at h
      rcases HdmiCsr.step_dmaDoneSticky h with hold | hdone
      · obtain ⟨a, b, hab, ha⟩ := ih hold
        exact ⟨a, b ++ [c], by rw [hab, List.append_assoc], ha⟩
      · exact ⟨cs, [c], rfl, hdone⟩

/-- Without a start the DMA master stays idle. -/
theorem idle_run {s : CsrDma} (h : DmaBus.Idle s.bus) (cs : List Cycle)
    (hno : ∀ p ∈ log (step N) s cs, p.1.starts p.2 = false) :
    DmaBus.Idle (run (step N) s cs).bus := by
  induction cs generalizing s with
  | nil => exact h
  | cons c cs ih =>
      have htrig : (s.bus.inputs (s.dmaCycle c)).trigger = false := by
        rw [← h.triggers]
        exact hno (s, c) (by simp)
      exact ih (h.step_none _ htrig) fun p hp => hno p (List.mem_cons_of_mem _ hp)

/-- A done pulse is the last cycle of its frame. -/
theorem idle_of_done (hpos : 0 < N.toNat) (hdvd : 64 ∣ N.toNat) (csr0 : HdmiCsr)
    (a : List Cycle) (h : (run (step N) (init csr0) a).bus.dma.dmaDone = true)
    (c : Cycle) : DmaBus.Idle ((run (step N) (init csr0) a).step N c).bus := by
  have hset : DmaBus.Settled N (run (step N) (init csr0) a).bus := by
    rw [run_bus]
    exact DmaBus.settled_run hpos hdvd _
  rcases hset with hidle | ⟨a0, k, r, hframe⟩
  · exact absurd (hidle.done.symm.trans h) (by decide)
  · have hr : r = N.toNat := by
      rw [hframe.done, decide_eq_true_eq] at h
      exact h
    exact (hframe.step_last hr _).1

/-- The busy, done and start protocol of the video DMA.  A Start written after a
completion is accepted as long as no frame has been started since. -/
theorem dma_protocol (hpos : 0 < N.toNat) (hdvd : burstLen.toNat ∣ N.toNat) :
    (∀ cs : List DmaBus.Cycle,
      DmaBus.Protocol N (run (DmaBus.step N) DmaBus.init cs)
        (log (DmaBus.step N) DmaBus.init cs)) ∧
    (∀ (csr0 : HdmiCsr) (cs : List Cycle) (r : Cycle),
      (run (step N) (init csr0) cs).readsDone r = true →
      ∃ a b, cs = a ++ b ∧ (run (step N) (init csr0) a).bus.dma.dmaDone = true) ∧
    (∀ (csr0 : HdmiCsr) (a b : List Cycle) (x : Cycle),
      (run (step N) (init csr0) a).bus.dma.dmaDone = true →
      (run (step N) (init csr0) (a ++ b)).writesStart x = true →
      (∀ p ∈ log (step N) (run (step N) (init csr0) a) (b ++ [x]),
        p.1.starts p.2 = false) →
      ∀ w : Cycle, (run (step N) (init csr0) (a ++ b ++ [x])).starts w = true) := by
  have hburst : burstLen.toNat = 64 := rfl
  rw [hburst] at hdvd
  refine ⟨?_, ?_, ?_⟩
  · intro cs
    exact (DmaBus.framed_run hpos hdvd cs).counted.protocol hpos
  · intro csr0 cs r hr
    exact done_of_sticky csr0 cs (readsDone_sticky hr)
  · intro csr0 a b x hdone hwrite hno w
    have hidle : DmaBus.Idle (run (step N) (init csr0) (a ++ b ++ [x])).bus := by
      rw [List.append_assoc, run_append]
      cases hbx : b ++ [x] with
      | nil => simp at hbx
      | cons c cs =>
          rw [hbx] at hno
          exact idle_run (idle_of_done hpos hdvd csr0 a hdone c) cs
            fun p hp => hno p (List.mem_cons_of_mem _ hp)
    have hpulse : (run (step N) (init csr0) (a ++ b ++ [x])).csr.dmaStartPulse = true := by
      rw [run_snoc]
      exact (HdmiCsr.step_dmaStartPulse _ _).trans hwrite
    rw [starts, hidle.triggers, VideoDmaMaster.Inputs.trigger]
    simp only [dmaCycle, DmaBus.inputs, hpulse, Bool.true_or]

/-- A cycle in which software does nothing and the slave has a word ready. -/
def quietCycle : Cycle where
  avsAddress := 0
  avsRead := false
  avsWrite := false
  avsWritedata := 0
  vsWire := false
  vsyncEdge := false
  fifoUsed := 0
  mWaitrequest := false
  ret := some 7

/-- Software writes a Start command. -/
def startCycle : Cycle :=
  { quietCycle with avsAddress := 1, avsWrite := true, avsWritedata := 4 }

/-- Software reads the DMA control register. -/
def readCycle : Cycle :=
  { quietCycle with avsAddress := 1, avsRead := true }

/-- One burst a frame: a Start after the completion of the first frame is
accepted. -/
theorem dma_protocol_one_burst :
    (run (step 64) (init HdmiCsr.blank)
      (startCycle :: List.replicate 67 quietCycle ++ [quietCycle] ++ [startCycle])).starts
        quietCycle = true := by
  have h := (dma_protocol (N := 64) (by decide) (by decide)).2.2 HdmiCsr.blank
    (startCycle :: List.replicate 67 quietCycle) [quietCycle] startCycle
  exact h (by decide +kernel) (by decide +kernel) (by decide +kernel) quietCycle

/-- Done = 1 may be the flag of the frame before the running one: the flag is set
by the first frame and never cleared, so it is read as one just after the second
Start, and the third Start meets a busy master. -/
theorem start_swallowed :
    ¬ ∀ (csr0 : HdmiCsr) (a : List Cycle) (r : Cycle) (b : List Cycle) (x w : Cycle),
      (run (step 64) (init csr0) a).readsDone r = true →
      (run (step 64) (init csr0) (a ++ r :: b)).writesStart x = true →
      (∀ p ∈ log (step 64) (run (step 64) (init csr0) a) (r :: b ++ [x]),
        p.1.starts p.2 = true → p.1.csr.dmaStartPulse = true) →
      (run (step 64) (init csr0) (a ++ r :: b ++ [x])).starts w = true := by
  intro h
  have hw := h HdmiCsr.blank
    (startCycle :: List.replicate 68 quietCycle ++ [startCycle, quietCycle, quietCycle])
    readCycle [] startCycle quietCycle (by decide +kernel) (by decide +kernel)
    (by decide +kernel)
  exact absurd hw (by decide +kernel)

end CsrDma
end VideoProcessing
