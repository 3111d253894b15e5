import VideoProcessing.Video.StillRun

/-!
# Tear-free hand-over of the frame pointer

`HandedOver` counts the VSyncs, the loads of `shadow_ptr` and the pulses of a
run and names the loaded pointer.  A frame that a pulse triggers reads from it to
its end (`DmaBus.Reading`), whatever software writes in between.
-/

namespace VideoProcessing

open Lib

namespace DmaBus

variable {N : BitVec 32} {s : DmaBus} {a0 : BitVec 32} {k : Nat}

/-- The master reads the frame at `a0` and has had `k` bursts of it accepted,
whatever the slave returns. -/
structure Reading (s : DmaBus) (a0 : BitVec 32) (k : Nat) : Prop where
  busy : s.dma.state ≠ .idle
  addr : s.dma.currentReadAddr = a0 + 4 * BitVec.ofNat 32 (64 * k)
  read_iff : s.dma.mRead = true ↔ s.dma.state = .issueRead
  mAddress : s.dma.state = .issueRead → s.dma.mAddress = s.dma.currentReadAddr

/-- A trigger opens the frame at `start_addr`. -/
theorem reading_of_trigger (hs : s.dma.state = .idle) (c : Cycle)
    (ht : (s.inputs c).trigger = true) :
    (s.step N c).dma.state = .checkFifo ∧ Reading (s.step N c) c.startAddr 0 := by
  rcases VideoDmaMaster.control_idle (N := N) (i := s.inputs c) hs with
    ⟨_, cont, hctl⟩ | ⟨hno, _⟩
  · have hstate : (s.step N c).dma.state = .checkFifo := congrArg VideoDmaMaster.state hctl
    have hread : (s.step N c).dma.mRead = false := congrArg VideoDmaMaster.mRead hctl
    refine ⟨hstate, by rw [hstate]; decide, ?_, by rw [hstate, hread]; decide, ?_⟩
    · exact (congrArg VideoDmaMaster.currentReadAddr hctl).trans (by simp [inputs])
    · intro hi
      exact absurd (hstate.symm.trans hi) (by decide)
  · exact absurd (hno.symm.trans ht) (by decide)

/-- The next command of a frame. -/
theorem Reading.accepted (h : Reading s a0 k) (c : Cycle) :
    s.accepted c =
      if s.dma.state = .issueRead ∧ c.mWaitrequest = false then
        some (a0 + 4 * BitVec.ofNat 32 (64 * k))
      else none := by
  rw [DmaBus.accepted]
  by_cases hs : s.dma.state = .issueRead
  · rw [h.read_iff.2 hs, h.mAddress hs, h.addr]
    cases c.mWaitrequest <;> simp [hs]
  · have hread : s.dma.mRead = false := by
      rw [Bool.eq_false_iff]
      exact fun hr => hs (h.read_iff.1 hr)
    rw [hread, if_neg (by simp), if_neg (fun hc => hs hc.1)]

/-- One cycle goes on reading the frame or, when enough words are received, ends
it. -/
theorem Reading.step (h : Reading s a0 k) (c : Cycle) :
    ((s.step N c).dma.state = .idle ∧ N ≤ s.dma.wordsReceived) ∨
      Reading (s.step N c) a0 (k + (s.accepted c).isSome.toNat) := by
  have hacc := h.accepted c
  have hctl : (s.step N c).dma =
      { s.dma.control N (s.inputs c) with
        wordsReceived := (s.step N c).dma.wordsReceived
        dmaDone := (s.step N c).dma.dmaDone } := rfl
  cases hs : s.dma.state with
  | idle => exact absurd hs h.busy
  | checkFifo =>
      right
      have hnone : s.accepted c = none := by rw [hacc]; simp [hs]
      rw [hnone]
      rcases VideoDmaMaster.control_checkFifo (N := N) (i := s.inputs c) hs with
        ⟨_, he⟩ | ⟨_, _, he⟩ | ⟨_, _, he⟩ <;> rw [he] at hctl <;>
        refine ⟨?_, ?_, ?_, ?_⟩ <;> rw [hctl] <;> simp [h.addr, hs]
  | issueRead =>
      right
      rcases VideoDmaMaster.control_issueRead (N := N) (i := s.inputs c) hs with
        ⟨hw, he⟩ | ⟨hw, he⟩ <;> rw [he] at hctl
      · have hw' : c.mWaitrequest = false := hw
        have hsome : (s.accepted c).isSome.toNat = 1 := by rw [hacc]; simp [hs, hw']
        rw [hsome]
        refine ⟨?_, ?_, ?_, ?_⟩ <;> rw [hctl]
        · simp
        · change s.dma.currentReadAddr + 256 = _
          rw [h.addr, show 64 * (k + 1) = 64 * k + 64 by omega, ← addr_add]
          rfl
        · simp
        · simp
      · have hw' : c.mWaitrequest = true := hw
        have hnone : s.accepted c = none := by rw [hacc]; simp [hw']
        rw [hnone]
        refine ⟨?_, ?_, ?_, ?_⟩ <;> rw [hctl]
        · exact h.busy
        · exact h.addr
        · exact h.read_iff
        · exact h.mAddress
  | waitEnd =>
      have hnone : s.accepted c = none := by rw [hacc]; simp [hs]
      rw [hnone]
      rcases VideoDmaMaster.control_waitEnd (N := N) (i := s.inputs c) hs with
        ⟨hall, he⟩ | ⟨_, he⟩ <;> rw [he] at hctl
      · left
        exact ⟨by rw [hctl], hall⟩
      · right
        refine ⟨?_, ?_, ?_, ?_⟩ <;> rw [hctl] <;> simp [h.addr, hs]

/-- A frame accepts its bursts in order, from the address of its start. -/
theorem Reading.commands_next (h : Reading s a0 k) (c : Cycle) :
    burstAddrs a0 k ++ (s.accepted c).toList =
      burstAddrs a0 (k + (s.accepted c).isSome.toNat) := by
  rw [h.accepted c]
  split
  · simp [burstAddrs_succ]
  · simp

end DmaBus

namespace VideoPipeline

variable {s : VideoPipeline} {e : Event} {l : List (VideoPipeline × Event)}

/-- The counts of a run and the loaded pointer. -/
structure HandedOver (s : VideoPipeline) (l : List (VideoPipeline × Event)) : Prop where
  synced : Synced s (seenAfter l)
  loads : (captured l).length + s.owesLoad.toNat = rises l
  pulses : pulses l + s.owesPulse.toNat = rises l
  ptr : s.csr.shadowPtr = (captured l).getLast?.getD 0x30000000

theorem handedOver_reset (s0 : VideoPipeline) : HandedOver s0.reset [] where
  synced := synced_reset s0
  loads := rfl
  pulses := by
    have hf : s0.reset.pixel.flips params = false := by
      change HdmiPixel.reset.flips params = false
      decide
    have hfl : s0.reset.inFlight = false := by
      change ((0#3).getLsbD 2 ^^ HdmiPixel.reset.vsToggle) = false
      decide
    simp [owesPulse, hf, hfl, VideoPipeline.pulses, rises]
  ptr := rfl

/-- `shadow_ptr` changes at a load only. -/
theorem step_shadowPtr (s : VideoPipeline) (e : Event) :
    (s.step e).csr.shadowPtr =
      if s.shadowLoad e then s.csr.regFramePtr else s.csr.shadowPtr := by
  cases e <;> simp [step, HdmiCsr.step, shadowLoad, Event.ticks50, Event.clkIn]

theorem HandedOver.step (h : HandedOver s l) (hcov : Covered l s e) :
    HandedOver (s.step e) (l ++ [(s, e)]) where
  synced := by
    rw [seenAfter_snoc]
    exact h.synced.step hcov
  loads := by
    have hstep := h.synced.owesLoad_step e
    have hl := h.loads
    rw [captured_snoc, rises_snoc, List.length_append]
    cases hload : s.shadowLoad e <;> rw [hload] at hstep <;> simp at hstep ⊢ <;> omega
  pulses := by
    have hstep := h.synced.owesPulse_step e
    have hp := h.pulses
    rw [pulses_snoc, rises_snoc]
    omega
  ptr := by
    rw [step_shadowPtr, captured_snoc]
    cases hload : s.shadowLoad e
    · simpa using h.ptr
    · simp

theorem handedOver_run (s0 : VideoPipeline) {es : List Event}
    (hcov : coveredRun true es = true) :
    HandedOver (run step s0.reset es) (log step s0.reset es) :=
  log_invariant_of (G := Covered) (P := HandedOver) (handedOver_reset s0)
    (fun _ _ _ h hc => h.step hc) es (guarded_covered hcov)

/-- Four pixel clocks after its rise a VSync owes nothing. -/
theorem HandedOver.pulses_settled (h : HandedOver s l)
    (hpos : s.pixel.vsWire params = false ∨ 4 ≤ s.pixel.hCnt.toNat) :
    VideoPipeline.pulses l = rises l := by
  have hno : s.owesPulse = false := by
    rw [Bool.eq_false_iff, owesPulse]
    intro hc
    rw [Bool.or_eq_true] at hc
    rcases hc with hf | hf
    · obtain ⟨hz, hv, _⟩ := h.synced.flip hf
      rcases hpos with hw | hw
      · rw [vsWire_of_vsStart hv] at hw
        exact absurd hw (by decide)
      · omega
    · rcases hpos with hw | hw
      · rw [vsWire_of_vsStart (h.synced.place hf)] at hw
        exact absurd hw (by decide)
      · have := (h.synced.inFlight_hCnt hf).2
        omega
  have hp := h.pulses
  rw [hno] at hp
  exact hp

/-- The loads lie between the pulses and the rises. -/
theorem HandedOver.order (h : HandedOver s l) :
    VideoPipeline.pulses l ≤ (captured l).length ∧ (captured l).length ≤ rises l ∧
      rises l ≤ VideoPipeline.pulses l + 1 := by
  have hl := h.loads
  have hp := h.pulses
  have hle := Bool.toNat_le s.owesPulse
  have himp := h.synced.owesPulse_of_owesLoad
  cases hload : s.owesLoad with
  | false =>
      rw [hload] at hl
      simp at hl
      omega
  | true =>
      rw [hload] at hl
      rw [himp hload] at hp
      simp at hl hp
      omega

/-- A load serves the last VSync. -/
theorem HandedOver.of_load (h : HandedOver s l) (hl : s.csr.vsRise = true) :
    rises l = (captured l).length + 1 ∧ VideoPipeline.pulses l = (captured l).length := by
  have howes := h.synced.of_load hl
  have hloads := h.loads
  have hord := h.order
  rw [howes] at hloads
  simp only [Bool.toNat_true] at hloads
  omega

/-- A pulse serves the last VSync, whose pointer is loaded. -/
theorem HandedOver.of_pulse (h : HandedOver s l) (hp : s.vsyncEdgeSync = true) :
    rises l = VideoPipeline.pulses l + 1 ∧
      (captured l).length = VideoPipeline.pulses l + 1 ∧
      (captured l)[VideoPipeline.pulses l]? = some s.csr.shadowPtr := by
  obtain ⟨hpulse, hload, _⟩ := h.synced.of_pulse hp
  have hl := h.loads
  have hpl := h.pulses
  rw [hload] at hl
  rw [hpulse] at hpl
  simp only [Bool.toNat_false, Bool.toNat_true, Nat.add_zero] at hl hpl
  have hlen : (captured l).length = VideoPipeline.pulses l + 1 := by omega
  refine ⟨by omega, hlen, ?_⟩
  have hptr := h.ptr
  rw [List.getLast?_eq_getElem?, hlen, Nat.add_sub_cancel] at hptr
  have hlt : VideoPipeline.pulses l < (captured l).length := by omega
  rw [List.getElem?_eq_getElem hlt] at hptr ⊢
  rw [hptr]
  rfl

/-- A frame that is being read keeps its start address, whatever the events do. -/
theorem frame_commands {a0 : BitVec 32} (h0 : DmaBus.Reading s.dmaFifo.bus a0 0)
    (es : List Event) (hbusy : ∀ p ∈ log step s es, p.1.dmaFifo.bus.dma.state ≠ .idle) :
    ∃ k, DmaBus.commands (busLog (log step s es)) = DmaBus.burstAddrs a0 k := by
  have hinv : ∃ k, DmaBus.commands (busLog (log step s es)) = DmaBus.burstAddrs a0 k ∧
      ((run step s es).dmaFifo.bus.dma.state = .idle ∨
        DmaBus.Reading (run step s es).dmaFifo.bus a0 k) := by
    refine log_invariant_of
      (P := fun s l => ∃ k, DmaBus.commands (busLog l) = DmaBus.burstAddrs a0 k ∧
        (s.dmaFifo.bus.dma.state = .idle ∨ DmaBus.Reading s.dmaFifo.bus a0 k))
      ⟨0, rfl, Or.inr h0⟩ ?_ es
      (guarded_of_log (G := fun s _ => s.dmaFifo.bus.dma.state ≠ .idle) hbusy)
    rintro s l e ⟨k, hcmd, hcase⟩ hne
    have h : DmaBus.Reading s.dmaFifo.bus a0 k := hcase.resolve_left hne
    rw [step_bus, busLog_snoc]
    cases he : e.clkIn with
    | none => exact ⟨k, by simpa using hcmd, Or.inr h⟩
    | some c =>
        refine ⟨_, ?_, (h.step (s.busCycle c)).imp And.left id⟩
        rw [Option.map_some, Option.toList_some, DmaBus.commands_snoc, hcmd,
          h.commands_next]
  obtain ⟨k, hcmd, _⟩ := hinv
  exact ⟨k, hcmd⟩

/-- The hand-over of the frame pointer from `clk_hdmi` to `clk_50`.  In a run from reset
whose `clk_hdmi` periods all contain a `clk_50` edge: every VSync is followed by one
load of `shadow_ptr` and then by one pulse of one cycle, both before the next VSync;
`shadow_ptr` changes at no other time; the pulse of a VSync finds the pointer loaded for
this VSync; with Cont and an idle DMA it starts a frame at this pointer, and the frame
reads from there to its end. -/
theorem frame_pointer_handed_over (s0 : VideoPipeline) (es : List Event)
    (hcov : coveredRun true es = true) :
    let s := run step s0.reset es
    let l := log step s0.reset es
    (pulses l ≤ (captured l).length ∧ (captured l).length ≤ rises l ∧
      rises l ≤ pulses l + 1) ∧
    (s.pixel.vsWire params = false ∨ 4 ≤ s.pixel.hCnt.toNat → pulses l = rises l) ∧
    (∀ e, (s.step e).csr.shadowPtr =
      if s.shadowLoad e then s.csr.regFramePtr else s.csr.shadowPtr) ∧
    (∀ e, s.shadowLoad e = true →
      rises l = (captured l).length + 1 ∧ pulses l = (captured l).length) ∧
    (∀ e, s.vsyncPulse e = true →
      rises l = pulses l + 1 ∧ (captured l).length = pulses l + 1 ∧
        (captured l)[pulses l]? = some s.csr.shadowPtr ∧
        (s.step e).vsyncEdgeSync = false) ∧
    (∀ e, s.vsyncPulse e = true → s.csr.dmaContEn = true →
      s.dmaFifo.bus.dma.state = .idle →
      ∃ ptr, (captured l)[pulses l]? = some ptr ∧ s.triggers e = true ∧
        (s.step e).dmaFifo.bus.dma.state = .checkFifo ∧
        (s.step e).dmaFifo.bus.dma.currentReadAddr = ptr ∧
        ∀ es', (∀ p ∈ log step (s.step e) es', p.1.dmaFifo.bus.dma.state ≠ .idle) →
          ∃ k, DmaBus.commands (busLog (log step (s.step e) es')) =
            DmaBus.burstAddrs ptr k) := by
  intro s l
  have h : HandedOver s l := handedOver_run s0 hcov
  refine ⟨h.order, h.pulses_settled, step_shadowPtr s, ?_, ?_, ?_⟩
  · intro e he
    rw [shadowLoad, Bool.and_eq_true] at he
    exact h.of_load he.2
  · intro e he
    have hp := he
    rw [vsyncPulse, Bool.and_eq_true] at hp
    obtain ⟨hrises, hlen, hptr⟩ := h.of_pulse hp.2
    exact ⟨hrises, hlen, hptr, h.synced.pulse_ends he⟩
  · intro e he hcont hidle
    rw [vsyncPulse, Bool.and_eq_true] at he
    obtain ⟨c, hc⟩ := Option.isSome_iff_exists.1 he.1
    have hptr := (h.of_pulse he.2).2.2
    have htrig : (s.dmaFifo.bus.inputs (s.busCycle c)).trigger = true := by
      change (s.csr.dmaStartPulse || (s.csr.dmaContEn && s.vsyncEdgeSync)) = true
      rw [hcont, he.2, Bool.and_self, Bool.or_true]
    have hfetch : s.triggers e = true := by
      rw [triggers, hc]
      change s.dmaFifo.bus.triggers (s.busCycle c) = true
      rw [DmaBus.triggers, hidle, htrig]
      rfl
    have hopen : (s.step e).dmaFifo.bus.dma.state = .checkFifo ∧
        DmaBus.Reading (s.step e).dmaFifo.bus s.csr.shadowPtr 0 := by
      rw [step_bus, hc]
      exact DmaBus.reading_of_trigger hidle (s.busCycle c) htrig
    have haddr := hopen.2.addr
    rw [Nat.mul_zero, BitVec.ofNat_eq_ofNat, BitVec.mul_zero, BitVec.add_zero] at haddr
    exact ⟨s.csr.shadowPtr, hptr, hfetch, hopen.1, haddr, frame_commands hopen.2⟩

/-- The pulse of the first VSync finds its pointer, and the frame reads from there; one
burst of it is accepted. -/
theorem frame_pointer_handed_over_first_frame :
    let s0 := fresh false
    let l := log step s0.reset toTrigger
    let s := run step s0.reset toTrigger
    rises l = pulses l + 1 ∧ (captured l)[pulses l]? = some 0x30000000 ∧
      s.triggers (.clk50 stallIn) = true ∧
      DmaBus.commands (busLog (log step (s.step (.clk50 stallIn)) fetchFrame)) =
        DmaBus.burstAddrs 0x30000000 1 := by
  have hrun : run step (fresh false).reset toTrigger = atPulse false := run_toTrigger false
  have hfacts : ∀ left : Bool, (atPulse left).vsyncPulse (.clk50 stallIn) = true ∧
      (atPulse left).csr.dmaContEn = true ∧ (atPulse left).dmaFifo.bus.dma.state = .idle ∧
      (∀ p ∈ log step ((atPulse left).step (.clk50 stallIn)) fetchFrame,
        p.1.dmaFifo.bus.dma.state ≠ .idle) ∧
      ((atPulse left).step (.clk50 stallIn)).dmaFifo.bus.dma.currentReadAddr = 0x30000000 ∧
      (DmaBus.commands (busLog
        (log step ((atPulse left).step (.clk50 stallIn)) fetchFrame))).length = 1 := by
    decide +kernel
  obtain ⟨hpulse, hcont, hidle, hbusy, haddr, hcount⟩ := hfacts false
  have h := frame_pointer_handed_over (fresh false) toTrigger (covered_firstFrame.1 true)
  rw [hrun] at h
  obtain ⟨_, _, _, _, hpulses, hframe⟩ := h
  obtain ⟨ptr, hptr, htrig, -, hopen, hreads⟩ := hframe _ hpulse hcont hidle
  obtain rfl := haddr.symm.trans hopen
  obtain ⟨k, hk⟩ := hreads fetchFrame hbusy
  have hone : k = 1 := by
    rw [hk, DmaBus.burstAddrs, List.length_map, List.length_range] at hcount
    exact hcount
  rw [hone] at hk
  intro s0 l s
  have hs : s = atPulse false := hrun
  rw [hs]
  exact ⟨(hpulses _ hpulse).1, hptr, htrig, hk⟩

end VideoPipeline
end VideoProcessing
