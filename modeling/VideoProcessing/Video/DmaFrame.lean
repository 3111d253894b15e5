import VideoProcessing.Video.DmaMaster
import VideoProcessing.Lib.Counter

/-!
# One frame of the video DMA

Between a trigger and the return to `IDLE` the DMA master is in a *frame*: it
has commanded `k` bursts of the frame at `a0` and received `r` of its words, and
the slave owes exactly the words in between.  `InFrame.step` says what one cycle
can do to a frame; `frame_exact` collects a whole one.
-/

namespace VideoProcessing
namespace DmaBus

open Lib

section BurstAddrs

/-- The start addresses of the first `k` bursts of the frame at `a`. -/
def burstAddrs (a : BitVec 32) (k : Nat) : List (BitVec 32) :=
  (List.range k).map fun j => a + 4 * BitVec.ofNat 32 (burstLen.toNat * j)

theorem burstAddrs_succ (a : BitVec 32) (k : Nat) :
    burstAddrs a (k + 1) = burstAddrs a k ++ [a + 4 * BitVec.ofNat 32 (64 * k)] := by
  simp [burstAddrs, List.range_succ, burstLen]

end BurstAddrs

variable {N : BitVec 32} {s : DmaBus} {a0 : BitVec 32} {k r : Nat}

/-- Between frames: the FSM is idle and nothing is owed. -/
structure Idle (s : DmaBus) : Prop where
  state : s.dma.state = .idle
  active : s.dma.frameActive = false
  read : s.dma.mRead = false
  done : s.dma.dmaDone = false
  owed : s.owed = []

/-- What each busy state of the FSM knows when `k` bursts are commanded and `r`
words received. -/
def Phase (N : BitVec 32) (m : VideoDmaMaster) (k r : Nat) : Prop :=
  match m.state with
  | .idle => False
  | .checkFifo => m.mRead = false ∧ (64 * k = N.toNat → r + 64 ≤ N.toNat)
  | .issueRead =>
      m.mRead = true ∧ m.mAddress = m.currentReadAddr ∧ 64 * k < N.toNat
  | .waitEnd => m.mRead = false ∧ 64 * k = N.toNat

/-- In the frame at `a0`: `k` bursts are commanded, `r` words are received. -/
structure InFrame (N : BitVec 32) (s : DmaBus) (a0 : BitVec 32) (k r : Nat) : Prop where
  active : s.dma.frameActive = true
  commanded : s.dma.wordsCommanded = BitVec.ofNat 32 (64 * k)
  received : s.dma.wordsReceived = BitVec.ofNat 32 r
  addr : s.dma.currentReadAddr = a0 + 4 * BitVec.ofNat 32 (64 * k)
  owed : s.owed = (wordAddrs a0 (64 * k)).drop r
  r_le : r ≤ 64 * k
  k_le : 64 * k ≤ N.toNat
  done : s.dma.dmaDone = decide (r = N.toNat)
  phase : Phase N s.dma k r

theorem idle_init : Idle init := ⟨rfl, rfl, rfl, rfl, rfl⟩

theorem InFrame.state_ne_idle (h : InFrame N s a0 k r) : s.dma.state ≠ .idle := by
  intro hs
  have hp := h.phase
  rw [Phase, hs] at hp
  exact hp

/-- All words of a frame are received only in `WAIT_END`. -/
theorem InFrame.waitEnd_of_all (h : InFrame N s a0 k r)
    (hr : r = N.toNat) : s.dma.state = .waitEnd := by
  have hp := h.phase
  have hk := h.k_le
  have hrk := h.r_le
  cases hs : s.dma.state with
  | idle => exact absurd hs h.state_ne_idle
  | waitEnd => rfl
  | checkFifo =>
      rw [Phase, hs] at hp
      have := hp.2 (by omega)
      omega
  | issueRead =>
      rw [Phase, hs] at hp
      have := hp.2.2
      omega

theorem returned_of_owed_nil (c : Cycle) (h : s.owed = []) : s.returned c = none := by
  rw [returned, h]

/-- In a frame the slave returns the next word of the frame or nothing. -/
theorem InFrame.returned (h : InFrame N s a0 k r) (c : Cycle) :
    s.returned c = none ∨
      (r < 64 * k ∧ ∃ d, s.returned c = some (a0 + 4 * BitVec.ofNat 32 r, d)) := by
  by_cases hr : r < 64 * k
  · rw [DmaBus.returned, h.owed, drop_wordAddrs a0 hr]
    cases c.ret with
    | none => exact Or.inl rfl
    | some d => exact Or.inr ⟨hr, d, rfl⟩
  · left
    apply returned_of_owed_nil
    rw [h.owed]
    apply List.drop_eq_nil_of_le
    rw [length_wordAddrs]
    omega

/-- In a frame the slave accepts the next burst of the frame or nothing. -/
theorem InFrame.accepted (h : InFrame N s a0 k r) (c : Cycle) :
    s.accepted c =
      if s.dma.state = .issueRead ∧ c.mWaitrequest = false then
        some (a0 + 4 * BitVec.ofNat 32 (64 * k))
      else none := by
  have hp := h.phase
  rw [DmaBus.accepted]
  cases hs : s.dma.state with
  | idle => exact absurd hs h.state_ne_idle
  | checkFifo =>
      rw [Phase, hs] at hp
      simp [hp.1]
  | waitEnd =>
      rw [Phase, hs] at hp
      simp [hp.1]
  | issueRead =>
      rw [Phase, hs] at hp
      rw [hp.1, hp.2.1, h.addr]
      cases c.mWaitrequest <;> simp

theorem Idle.accepted (h : Idle s) (c : Cycle) : s.accepted c = none := by
  simp [DmaBus.accepted, h.read]

theorem Idle.returned (h : Idle s) (c : Cycle) : s.returned c = none :=
  returned_of_owed_nil c h.owed

theorem Idle.busy (h : Idle s) : s.dma.busy = false := h.active

theorem InFrame.busy (h : InFrame N s a0 k r) : s.dma.busy = true := h.active

section Step

/-- An idle cycle with a trigger opens the frame at `start_addr`. -/
theorem Idle.step_trigger (hpos : 0 < N.toNat) (h : Idle s) (c : Cycle)
    (ht : (s.inputs c).trigger = true) :
    InFrame N (s.step N c) c.startAddr 0 0 := by
  have hret := h.returned c
  have hacc := h.accepted c
  have hvalid : (s.inputs c).mReaddatavalid = false := by
    simp [inputs, hret]
  rcases VideoDmaMaster.control_idle (N := N) (i := s.inputs c) h.state with
    ⟨_, cont, hctl⟩ | ⟨hno, _⟩
  · refine ⟨?_, ?_, ?_, ?_, ?_, Nat.le_refl _, by omega, ?_, ?_⟩
    · exact congrArg VideoDmaMaster.frameActive hctl
    · exact congrArg VideoDmaMaster.wordsCommanded hctl
    · simp [step, VideoDmaMaster.step, VideoDmaMaster.receiver, hvalid, h.state, ht]
    · exact (congrArg VideoDmaMaster.currentReadAddr hctl).trans (by simp [inputs])
    · simp [step, owedNext, hret, hacc, h.owed, wordAddrs]
    · simp [step, VideoDmaMaster.step, VideoDmaMaster.donePulse, hvalid]
      omega
    · have hstate : (s.step N c).dma.state = .checkFifo :=
        congrArg VideoDmaMaster.state hctl
      rw [Phase, hstate]
      exact ⟨congrArg VideoDmaMaster.mRead hctl, fun h0 => by omega⟩
  · exact absurd (hno.symm.trans ht) (by decide)

/-- An idle cycle without a trigger stays idle. -/
theorem Idle.step_none (h : Idle s) (c : Cycle)
    (ht : (s.inputs c).trigger = false) : Idle (s.step N c) := by
  have hret := h.returned c
  have hacc := h.accepted c
  have hvalid : (s.inputs c).mReaddatavalid = false := by
    simp [inputs, hret]
  rcases VideoDmaMaster.control_idle (N := N) (i := s.inputs c) h.state with
    ⟨hyes, _⟩ | ⟨_, cont, hctl⟩
  · exact absurd (hyes.symm.trans ht) (by decide)
  · refine ⟨?_, ?_, ?_, ?_, ?_⟩
    · exact (congrArg VideoDmaMaster.state hctl).trans h.state
    · exact congrArg VideoDmaMaster.frameActive hctl
    · exact congrArg VideoDmaMaster.mRead hctl
    · simp [step, VideoDmaMaster.step, VideoDmaMaster.donePulse, hvalid]
    · simp [step, owedNext, hret, hacc, h.owed]

/-- The receiver counts the words of a frame. -/
theorem InFrame.step_received (h : InFrame N s a0 k r) (c : Cycle) :
    (s.step N c).dma.wordsReceived =
      BitVec.ofNat 32 (r + (s.returned c).isSome.toNat) := by
  have hne := h.state_ne_idle
  change s.dma.receiver (s.inputs c) = _
  cases hret : (s.returned c).isSome with
  | false => simp [VideoDmaMaster.receiver, inputs, hret, hne, h.received]
  | true =>
      simp only [VideoDmaMaster.receiver, inputs, hret, if_true, h.received,
        Bool.toNat_true]
      exact (Counter.ofNat_succ r).symm

/-- The done pulse answers the last word of a frame. -/
theorem InFrame.step_done (h : InFrame N s a0 k r) (hr : r < N.toNat) (c : Cycle) :
    (s.step N c).dma.dmaDone =
      decide (r + (s.returned c).isSome.toNat = N.toNat) := by
  have hN := N.isLt
  change s.dma.donePulse N (s.inputs c) = _
  have hlast : (s.dma.wordsReceived == N - 1) = decide (r + 1 = N.toNat) := by
    have hpred : N - 1 = BitVec.ofNat 32 (N.toNat - 1) := by
      have hsub := Counter.ofNat_sub_ofNat (w := 32) (a := 1) (b := N.toNat) (by omega)
      rw [BitVec.ofNat_toNat, BitVec.setWidth_eq] at hsub
      exact hsub
    rw [h.received, hpred, Bool.eq_iff_iff, beq_iff_eq, decide_eq_true_eq,
      Counter.ofNat_eq_iff (by omega) (by omega)]
    omega
  cases hret : (s.returned c).isSome with
  | false =>
      simp [VideoDmaMaster.donePulse, inputs, hret]
      omega
  | true =>
      simp only [VideoDmaMaster.donePulse, inputs, hret, Bool.true_and, hlast,
        Bool.toNat_true]

/-- The slave owes the words between the received and the commanded ones. -/
theorem InFrame.step_owed (h : InFrame N s a0 k r) (c : Cycle) :
    (s.step N c).owed =
      (wordAddrs a0 (64 * (k + (s.accepted c).isSome.toNat))).drop
        (r + (s.returned c).isSome.toNat) := by
  have hrk := h.r_le
  have hfront : (if (s.returned c).isSome then s.owed.tail else s.owed) =
      (wordAddrs a0 (64 * k)).drop (r + (s.returned c).isSome.toNat) := by
    rw [h.owed]
    cases (s.returned c).isSome <;> simp
  have hle : r + (s.returned c).isSome.toNat ≤ (wordAddrs a0 (64 * k)).length := by
    rw [length_wordAddrs]
    rcases h.returned c with hnone | ⟨hlt, d, hsome⟩
    · simpa [hnone] using hrk
    · simp [hsome]
      omega
  change s.owedNext c = _
  rw [owedNext, hfront, h.accepted c]
  by_cases hacc : s.dma.state = .issueRead ∧ c.mWaitrequest = false
  · have hburst : s.dma.mBurstcount.toNat = 64 := rfl
    simp only [hacc, and_self, if_true, hburst, Option.isSome_some, Bool.toNat_true]
    rw [show 64 * (k + 1) = 64 * k + 64 by omega, wordAddrs_add,
      List.drop_append_of_le_length hle]
  · simp [hacc]

/-- The received words stay within the commanded ones. -/
theorem InFrame.step_r_le (h : InFrame N s a0 k r) (c : Cycle) :
    r + (s.returned c).isSome.toNat ≤ 64 * k := by
  have hrk := h.r_le
  rcases h.returned c with hnone | ⟨hlt, d, hsome⟩
  · simpa [hnone] using hrk
  · simp [hsome]
    omega

/-- The FSM's part of one cycle; the receiver and the done pulse work beside it. -/
theorem step_dma (s : DmaBus) (c : Cycle) :
    (s.step N c).dma =
      { s.dma.control N (s.inputs c) with
        wordsReceived := (s.step N c).dma.wordsReceived
        dmaDone := (s.step N c).dma.dmaDone } := rfl

/-- A cycle of a frame in which no burst is accepted and the FSM goes to `d`. -/
theorem InFrame.step_unaccepted (h : InFrame N s a0 k r) (hr : r < N.toNat) {c : Cycle}
    (hacc : s.accepted c = none) {d : VideoDmaMaster}
    (hctl : s.dma.control N (s.inputs c) = d) (hactive : d.frameActive = s.dma.frameActive)
    (hcmd : d.wordsCommanded = s.dma.wordsCommanded)
    (haddr : d.currentReadAddr = s.dma.currentReadAddr)
    (hphase : Phase N d k (r + (s.returned c).isSome.toNat)) :
    InFrame N (s.step N c) a0 (k + (s.accepted c).isSome.toNat)
      (r + (s.returned c).isSome.toNat) := by
  have howed := h.step_owed c
  have hdma := step_dma (N := N) s c
  rw [hctl] at hdma
  rw [hacc] at howed ⊢
  simp only [Option.isSome_none, Bool.toNat_false, Nat.add_zero] at howed ⊢
  refine ⟨?_, ?_, h.step_received c, ?_, howed, h.step_r_le c, h.k_le, h.step_done hr c, ?_⟩ <;>
    rw [hdma]
  · exact hactive.trans h.active
  · exact hcmd.trans h.commanded
  · exact haddr.trans h.addr
  · exact hphase

/-- The cycle in which the slave accepts a burst of the frame. -/
theorem InFrame.step_accepted (hdvd : 64 ∣ N.toNat) (h : InFrame N s a0 k r)
    (hr : r < N.toNat) {c : Cycle} (hs : s.dma.state = .issueRead)
    (hw : c.mWaitrequest = false) :
    InFrame N (s.step N c) a0 (k + (s.accepted c).isSome.toNat)
      (r + (s.returned c).isSome.toNat) := by
  have hp := h.phase
  rw [Phase, hs] at hp
  obtain ⟨K, hK⟩ := hdvd
  have hret := h.step_r_le c
  have howed := h.step_owed c
  have hdma := step_dma (N := N) s c
  have hsome : (s.accepted c).isSome.toNat = 1 := by
    rw [h.accepted c]
    simp [hs, hw]
  rcases VideoDmaMaster.control_issueRead (N := N) (i := s.inputs c) hs with
    ⟨_, he⟩ | ⟨hw', _⟩
  · rw [he] at hdma
    rw [hsome] at howed ⊢
    refine ⟨?_, ?_, h.step_received c, ?_, howed, by omega, by omega, h.step_done hr c, ?_⟩ <;>
      rw [hdma]
    · exact h.active
    · change s.dma.wordsCommanded + 64 = _
      rw [h.commanded, show 64 * (k + 1) = 64 * k + 64 by omega, BitVec.ofNat_add]
      rfl
    · change s.dma.currentReadAddr + 256 = _
      rw [h.addr, show 64 * (k + 1) = 64 * k + 64 by omega, ← addr_add]
      rfl
    · exact ⟨rfl, fun hall' => by omega⟩
  · exact absurd (hw.symm.trans hw') (by decide)

/-- One cycle of a frame whose last word has not arrived yet. -/
theorem InFrame.step (hdvd : 64 ∣ N.toNat) (h : InFrame N s a0 k r)
    (hr : r < N.toNat) (c : Cycle) :
    InFrame N (s.step N c) a0 (k + (s.accepted c).isSome.toNat)
      (r + (s.returned c).isSome.toNat) := by
  have hN := N.isLt
  have hrk := h.r_le
  have hk := h.k_le
  have hp := h.phase
  have hacc := h.accepted c
  have hret := h.step_r_le c
  have hcmd : s.dma.wordsCommanded.toNat = 64 * k := by
    rw [h.commanded, Counter.toNat_ofNat_of_lt (by omega)]
  have hrcv : s.dma.wordsReceived.toNat = r := by
    rw [h.received, Counter.toNat_ofNat_of_lt (by omega)]
  cases hs : s.dma.state with
  | idle => exact absurd hs h.state_ne_idle
  | checkFifo =>
      rw [Phase, hs] at hp
      have hnone : s.accepted c = none := by rw [hacc]; simp [hs]
      rcases VideoDmaMaster.control_checkFifo (N := N) (i := s.inputs c) hs with
        ⟨hall, he⟩ | ⟨hall, _, he⟩ | ⟨hall, _, he⟩ <;> rw [BitVec.le_def, hcmd] at hall
      · exact h.step_unaccepted hr hnone he rfl rfl rfl ⟨rfl, by omega⟩
      · exact h.step_unaccepted hr hnone he rfl rfl rfl ⟨rfl, rfl, by omega⟩
      · refine h.step_unaccepted hr hnone he rfl rfl rfl ?_
        rw [Phase]
        simp only [hs]
        exact ⟨trivial, fun hall' => by omega⟩
  | issueRead =>
      cases hw : c.mWaitrequest with
      | false => exact h.step_accepted hdvd hr hs hw
      | true =>
          rw [Phase, hs] at hp
          have hnone : s.accepted c = none := by rw [hacc]; simp [hw]
          rcases VideoDmaMaster.control_issueRead (N := N) (i := s.inputs c) hs with
            ⟨hw', _⟩ | ⟨_, he⟩
          · exact absurd (hw.symm.trans hw') (by decide)
          · refine h.step_unaccepted hr hnone he rfl rfl rfl ?_
            rw [Phase]
            simp only [hs]
            exact hp
  | waitEnd =>
      rw [Phase, hs] at hp
      have hnone : s.accepted c = none := by rw [hacc]; simp [hs]
      rcases VideoDmaMaster.control_waitEnd (N := N) (i := s.inputs c) hs with
        ⟨hall, he⟩ | ⟨_, he⟩
      · rw [BitVec.le_def, hrcv] at hall
        omega
      · refine h.step_unaccepted hr hnone he rfl rfl rfl ?_
        rw [Phase]
        simp only [hs]
        exact ⟨trivial, hp.2⟩

/-- The cycle after the last word closes the frame. -/
theorem InFrame.step_last (h : InFrame N s a0 k r) (hr : r = N.toNat) (c : Cycle) :
    Idle (s.step N c) ∧ s.accepted c = none ∧ s.returned c = none := by
  have hN := N.isLt
  have hs := h.waitEnd_of_all hr
  have hrk := h.r_le
  have hk := h.k_le
  have hacc : s.accepted c = none := by rw [h.accepted c]; simp [hs]
  have hret : s.returned c = none := by
    rcases h.returned c with hnone | ⟨hlt, _⟩
    · exact hnone
    · omega
  have hrcv : s.dma.wordsReceived.toNat = r := by
    rw [h.received, Counter.toNat_ofNat_of_lt (by omega)]
  rcases VideoDmaMaster.control_waitEnd (N := N) (i := s.inputs c) hs with
    ⟨_, he⟩ | ⟨hall, _⟩
  · refine ⟨⟨?_, ?_, ?_, ?_, ?_⟩, hacc, hret⟩
    · simp only [DmaBus.step, VideoDmaMaster.step, he]
    · simp only [DmaBus.step, VideoDmaMaster.step, he]
    · simp only [DmaBus.step, VideoDmaMaster.step, he]
    · simp [DmaBus.step, VideoDmaMaster.step, VideoDmaMaster.donePulse, inputs, hret]
    · have hnil : s.owed = [] := by
        rw [h.owed]
        apply List.drop_eq_nil_of_le
        rw [length_wordAddrs]
        omega
      simp [DmaBus.step, owedNext, hret, hacc, hnil]
  · rw [BitVec.le_def, hrcv] at hall
    omega

end Step

section Logs

theorem commands_snoc (l : List (DmaBus × Cycle)) (s : DmaBus) (c : Cycle) :
    commands (l ++ [(s, c)]) = commands l ++ (s.accepted c).toList := by
  cases h : s.accepted c <;> simp [commands, h]

theorem pushed_append (l l' : List (DmaBus × Cycle)) :
    pushed (l ++ l') = pushed l ++ pushed l' := by
  simp [pushed]

theorem pushed_snoc (l : List (DmaBus × Cycle)) (s : DmaBus) (c : Cycle) :
    pushed (l ++ [(s, c)]) = pushed l ++ (s.returned c).toList := by
  cases h : s.returned c <;> simp [pushed, h]

/-- Every word of an accepted burst is returned or still owed. -/
theorem commands_conserved (cs : List Cycle) :
    burstLen.toNat * (commands (log (step N) init cs)).length =
      (pushed (log (step N) init cs)).length + (run (step N) init cs).owed.length := by
  refine log_invariant
    (P := fun s l => burstLen.toNat * (commands l).length =
      (pushed l).length + s.owed.length) rfl ?_ cs
  intro s l c h
  have hburst : s.dma.mBurstcount.toNat = burstLen.toNat := rfl
  have hret : (s.returned c).isSome.toNat +
      (if (s.returned c).isSome then s.owed.tail else s.owed).length = s.owed.length := by
    rw [returned]
    split
    · next howed _ => simp [howed, Nat.add_comm]
    · simp
  have howed : (s.step N c).owed = s.owedNext c := rfl
  rw [commands_snoc, pushed_snoc, howed, owedNext, List.length_append, List.length_append,
    List.length_append]
  cases hr : s.returned c <;> rw [hr] at hret <;> cases s.accepted c <;>
    simp [hburst, Nat.mul_add] at hret ⊢ <;> omega

/-- A frame accepts its bursts in order. -/
theorem InFrame.commands_next (h : InFrame N s a0 k r) (c : Cycle) :
    burstAddrs a0 k ++ (s.accepted c).toList =
      burstAddrs a0 (k + (s.accepted c).isSome.toNat) := by
  rw [h.accepted c]
  split
  · simp [burstAddrs_succ]
  · simp

/-- A frame pushes its words in order. -/
theorem InFrame.pushed_next (h : InFrame N s a0 k r) (c : Cycle) :
    wordAddrs a0 r ++ (s.returned c).toList.map Prod.fst =
      wordAddrs a0 (r + (s.returned c).isSome.toNat) := by
  rcases h.returned c with hnone | ⟨_, d, hsome⟩
  · simp [hnone]
  · simp [hsome, wordAddrs_succ]

end Logs

/-- A run that stays in the frame it starts in. -/
theorem frame_run (hdvd : 64 ∣ N.toNat) (h0 : InFrame N s a0 0 0) (cs : List Cycle)
    (hbusy : ∀ p ∈ log (step N) s cs, p.1.dma.state ≠ .idle) :
    ∃ k r, commands (log (step N) s cs) = burstAddrs a0 k ∧
      (pushed (log (step N) s cs)).map Prod.fst = wordAddrs a0 r ∧
      (InFrame N (run (step N) s cs) a0 k r ∨
        (Idle (run (step N) s cs) ∧ 64 * k = N.toNat ∧ r = N.toNat)) := by
  refine log_invariant_of
    (P := fun s l => ∃ k r, commands l = burstAddrs a0 k ∧
      (pushed l).map Prod.fst = wordAddrs a0 r ∧
      (InFrame N s a0 k r ∨ (Idle s ∧ 64 * k = N.toNat ∧ r = N.toNat)))
    ?_ ?_ cs (guarded_of_log (G := fun s _ => s.dma.state ≠ .idle) hbusy)
  · exact ⟨0, 0, rfl, rfl, Or.inl h0⟩
  · rintro s l c ⟨k, r, hcmd, hpush, hcase⟩ hne
    have h : InFrame N s a0 k r := by
      rcases hcase with h | ⟨h, _⟩
      · exact h
      · exact absurd h.state hne
    have hrk := h.r_le
    have hk := h.k_le
    refine ⟨k + (s.accepted c).isSome.toNat, r + (s.returned c).isSome.toNat, ?_, ?_, ?_⟩
    · rw [commands_snoc, hcmd, h.commands_next]
    · rw [pushed_snoc, List.map_append, hpush, h.pushed_next]
    · by_cases hr : r < N.toNat
      · exact Or.inl (h.step hdvd hr c)
      · have hr' : r = N.toNat := by omega
        obtain ⟨hidle, hacc, hret⟩ := h.step_last hr' c
        rw [hacc, hret]
        exact Or.inr ⟨hidle, by simp; omega, by simp [hr']⟩

section Reachable

/-- Every reachable state is between frames or inside one. -/
def Settled (N : BitVec 32) (s : DmaBus) : Prop :=
  Idle s ∨ ∃ a0 k r, InFrame N s a0 k r

theorem Settled.step (hpos : 0 < N.toNat) (hdvd : 64 ∣ N.toNat) (h : Settled N s)
    (c : Cycle) : Settled N (s.step N c) := by
  rcases h with h | ⟨a0, k, r, h⟩
  · cases ht : (s.inputs c).trigger with
    | false => exact Or.inl (h.step_none c ht)
    | true => exact Or.inr ⟨c.startAddr, 0, 0, h.step_trigger hpos c ht⟩
  · by_cases hr : r < N.toNat
    · exact Or.inr ⟨a0, _, _, h.step hdvd hr c⟩
    · have hrk := h.r_le
      have hk := h.k_le
      exact Or.inl (h.step_last (by omega) c).1

theorem settled_run (hpos : 0 < N.toNat) (hdvd : 64 ∣ N.toNat) (cs : List Cycle) :
    Settled N (run (DmaBus.step N) init cs) :=
  run_invariant (P := Settled N) (Or.inl idle_init)
    (fun _ c h => Settled.step hpos hdvd h c) cs

theorem Settled.idle (h : Settled N s) (hs : s.dma.state = .idle) : Idle s := by
  rcases h with h | ⟨a0, k, r, h⟩
  · exact h
  · exact absurd hs h.state_ne_idle

end Reachable

section Flow

/-- In a frame the counters of the DMA give the number of owed words. -/
theorem InFrame.pending (h : InFrame N s a0 k r) :
    (s.dma.wordsCommanded - s.dma.wordsReceived).toNat = s.owed.length ∧
      s.dma.wordsReceived.toNat ≤ s.dma.wordsCommanded.toNat := by
  have hN := N.isLt
  have hrk := h.r_le
  have hk := h.k_le
  have howed : s.owed.length = 64 * k - r := by
    rw [h.owed, List.length_drop, length_wordAddrs]
  rw [h.commanded, h.received, Counter.ofNat_sub_ofNat hrk, howed]
  repeat rw [Counter.toNat_ofNat_of_lt (by omega)]
  exact ⟨rfl, hrk⟩

/-- The words returned and owed change by one accepted burst. -/
theorem InFrame.owed_length (hdvd : 64 ∣ N.toNat) (h : InFrame N s a0 k r)
    (hr : r < N.toNat) (c : Cycle) :
    (s.returned c).isSome.toNat + (s.step N c).owed.length =
      s.owed.length + 64 * (s.accepted c).isSome.toNat := by
  have h' := h.step hdvd hr c
  have hr' := h'.r_le
  have hrk := h.r_le
  rw [h.owed, h'.owed, List.length_drop, List.length_drop, length_wordAddrs,
    length_wordAddrs]
  omega

/-- A command is raised only after the overflow check, and then only waits. -/
theorem state_issueRead (hs : (s.step N c).dma.state = .issueRead) :
    (s.dma.state = .checkFifo ∧ s.dma.room (s.inputs c) = true) ∨
      (s.dma.state = .issueRead ∧ s.accepted c = none) := by
  have hs' : (s.dma.control N (s.inputs c)).state = .issueRead := hs
  cases hst : s.dma.state with
  | idle =>
      simp only [VideoDmaMaster.control, hst] at hs'
      split at hs' <;> split at hs' <;> try split at hs'
      all_goals exact absurd hs' (by simp)
  | checkFifo =>
      rcases VideoDmaMaster.control_checkFifo (N := N) (i := s.inputs c) hst with
        ⟨_, he⟩ | ⟨_, hroom, _⟩ | ⟨_, _, he⟩
      · rw [he] at hs'
        exact absurd hs' (by simp)
      · exact Or.inl ⟨rfl, hroom⟩
      · rw [he] at hs'
        exact absurd hs' (by simp [hst])
  | issueRead =>
      rcases VideoDmaMaster.control_issueRead (N := N) (i := s.inputs c) hst with
        ⟨_, he⟩ | ⟨hw, _⟩
      · rw [he] at hs'
        exact absurd hs' (by simp)
      · have hw' : c.mWaitrequest = true := hw
        exact Or.inr ⟨rfl, by simp [accepted, hw']⟩
  | waitEnd =>
      rcases VideoDmaMaster.control_waitEnd (N := N) (i := s.inputs c) hst with
        ⟨_, he⟩ | ⟨_, he⟩
      · rw [he] at hs'
        exact absurd hs' (by simp)
      · rw [he] at hs'
        exact absurd hs' (by simp [hst])

/-- The words the FIFO must be able to take when `x` of its words are known to
be in use: a waiting command has reserved one burst. -/
def limit (m : VideoDmaMaster) : Nat :=
  if m.state = .issueRead then 446 else 510

/-- The overflow check keeps used and owed words below the limit. -/
theorem Settled.credit_step (hdvd : 64 ∣ N.toNat) (h : Settled N s) {c : Cycle} {x : Nat}
    (hused : c.fifoUsed.toNat = min x 511) (hx : x + s.owed.length ≤ limit s.dma) :
    x + (s.returned c).isSome.toNat + (s.step N c).owed.length ≤
      limit (s.step N c).dma := by
  have hcap : limit s.dma ≤ 510 := by
    rw [limit]
    split <;> omega
  have hnext : (s.step N c).dma.state ≠ .issueRead → limit (s.step N c).dma = 510 := by
    intro hne
    rw [limit, if_neg hne]
  rcases h with h | ⟨a0, k, r, h⟩
  · have hne : (s.step N c).dma.state ≠ .issueRead := by
      intro hs
      rcases state_issueRead hs with ⟨hst, _⟩ | ⟨hst, _⟩ <;>
        exact absurd (h.state.symm.trans hst) (by decide)
    have howed : (s.step N c).owed = [] := by
      simp [DmaBus.step, owedNext, h.returned c, h.accepted c, h.owed]
    rw [hnext hne, h.returned c, howed]
    change x + 0 + 0 ≤ 510
    omega
  · by_cases hr : r < N.toNat
    · have hlen := h.owed_length hdvd hr c
      by_cases hs : (s.step N c).dma.state = .issueRead
      · rw [limit, if_pos hs]
        rcases state_issueRead hs with ⟨hst, hroom⟩ | ⟨hst, hacc⟩
        · have hacc : s.accepted c = none := by rw [h.accepted c]; simp [hst]
          rw [hacc] at hlen
          simp only [Option.isSome_none, Bool.toNat_false] at hlen
          have hpend := h.pending.1
          have hroom' : (c.fifoUsed.setWidth 32 +
              (s.dma.wordsCommanded - s.dma.wordsReceived)).toNat ≤ 446 := by
            simp only [VideoDmaMaster.room, decide_eq_true_eq] at hroom
            exact hroom
          rw [BitVec.toNat_add, hpend, BitVec.toNat_setWidth, hused,
            Nat.mod_eq_of_lt (a := min x 511) (by omega),
            Nat.mod_eq_of_lt (by omega)] at hroom'
          omega
        · rw [hacc] at hlen
          rw [limit, if_pos hst] at hx
          simp only [Option.isSome_none, Bool.toNat_false] at hlen
          omega
      · rw [hnext hs]
        cases hacc : (s.accepted c).isSome with
        | false =>
            rw [hacc] at hlen
            simp only [Bool.toNat_false] at hlen
            omega
        | true =>
            have hst : s.dma.state = .issueRead := by
              rw [h.accepted c] at hacc
              by_contra hne
              simp [hne] at hacc
            rw [limit, if_pos hst] at hx
            rw [hacc] at hlen
            simp only [Bool.toNat_true] at hlen
            omega
    · have hk := h.k_le
      have hrk := h.r_le
      obtain ⟨hidle, _, hret⟩ := h.step_last (by omega) c
      have hne : (s.step N c).dma.state ≠ .issueRead := by
        rw [hidle.state]
        decide
      rw [hnext hne, hret, hidle.owed]
      change x + 0 + 0 ≤ 510
      omega

end Flow

section Stability

/-- Two environments that differ only in the control inputs. -/
def Cycle.SameBus (c d : Cycle) : Prop :=
  c.fifoUsed = d.fifoUsed ∧ c.mWaitrequest = d.mWaitrequest ∧ c.ret = d.ret

/-- Outside `IDLE` the control inputs have no effect. -/
theorem step_congr (hs : s.dma.state ≠ .idle) {c d : Cycle} (h : c.SameBus d) :
    s.step N c = s.step N d := by
  obtain ⟨hf, hw, hr⟩ := h
  have hret : s.returned c = s.returned d := by simp only [returned, hr]
  have hacc : s.accepted c = s.accepted d := by simp only [accepted, hw]
  have hctl : s.dma.control N (s.inputs c) = s.dma.control N (s.inputs d) := by
    cases hst : s.dma.state with
    | idle => exact absurd hst hs
    | checkFifo =>
        have hroom : s.dma.room (s.inputs c) = s.dma.room (s.inputs d) := by
          have hused : (s.inputs c).fifoUsed = (s.inputs d).fifoUsed := hf
          unfold VideoDmaMaster.room
          rw [hused]
        unfold VideoDmaMaster.control
        simp only [hst]
        rw [hroom]
    | issueRead =>
        have hwait : (s.inputs c).mWaitrequest = (s.inputs d).mWaitrequest := hw
        unfold VideoDmaMaster.control
        simp only [hst]
        rw [hwait]
    | waitEnd =>
        unfold VideoDmaMaster.control
        simp only [hst]
  have hrecv : s.dma.receiver (s.inputs c) = s.dma.receiver (s.inputs d) := by
    simp only [VideoDmaMaster.receiver, inputs, hret, hs, false_and]
  have hdone : s.dma.donePulse N (s.inputs c) = s.dma.donePulse N (s.inputs d) := by
    simp only [VideoDmaMaster.donePulse, inputs, hret]
  simp only [step, VideoDmaMaster.step, owedNext, hctl, hrecv, hdone, hret, hacc]

/-- A command on the bus stays until the slave takes it. -/
theorem Settled.command_stable (h : Settled N s) {c : Cycle}
    (hread : s.dma.mRead = true) (hwait : c.mWaitrequest = true) :
    (s.step N c).dma.mRead = true ∧ (s.step N c).dma.mAddress = s.dma.mAddress := by
  have hs : s.dma.state = .issueRead := by
    rcases h with h | ⟨a0, k, r, h⟩
    · rw [h.read] at hread
      exact absurd hread (by decide)
    · have hp := h.phase
      rw [Phase] at hp
      cases hst : s.dma.state <;> simp only [hst] at hp
      · rw [hp.1] at hread
        exact absurd hread (by decide)
      · rfl
      · rw [hp.1] at hread
        exact absurd hread (by decide)
  rcases VideoDmaMaster.control_issueRead (N := N) (i := s.inputs c) hs with
    ⟨hw, _⟩ | ⟨_, he⟩
  · have : c.mWaitrequest = false := hw
    rw [hwait] at this
    exact absurd this (by decide)
  · have hread' : (s.dma.control N (s.inputs c)).mRead = true := by
      rw [he]
      exact hread
    have haddr' : (s.dma.control N (s.inputs c)).mAddress = s.dma.mAddress := by
      rw [he]
    exact ⟨hread', haddr'⟩

end Stability

/-- **Frame exactness.**  Take any run from reset, a trigger accepted in `IDLE`,
and any continuation that has not been in `IDLE` since.  The commands accepted
from the trigger on are the first bursts of the frame at the triggered address,
the words pushed to the FIFO are its first words, and when the FSM is back in
`IDLE` both are complete.  A command on the bus stays until it is accepted, and
the control inputs of the cycles after the trigger have no effect. -/
theorem frame_exact (hpos : 0 < N.toNat) (hdvd : burstLen.toNat ∣ N.toNat)
    (pre : List Cycle) (c0 : Cycle) (cs : List Cycle)
    (htrig : (run (step N) init pre).triggers c0 = true)
    (hbusy : ∀ p ∈ log (step N) ((run (step N) init pre).step N c0) cs,
      p.1.dma.state ≠ .idle) :
    let s0 := run (step N) init pre
    let l := log (step N) s0 (c0 :: cs)
    (∃ k r, k ≤ N.toNat / burstLen.toNat ∧ r ≤ N.toNat ∧
      commands l = burstAddrs c0.startAddr k ∧
      (pushed l).map Prod.fst = wordAddrs c0.startAddr r ∧
      ((run (step N) s0 (c0 :: cs)).dma.state = .idle →
        k = N.toNat / burstLen.toNat ∧ r = N.toNat)) ∧
    (∀ p ∈ l, p.1.dma.mRead = true → p.2.mWaitrequest = true →
      (p.1.step N p.2).dma.mRead = true ∧
        (p.1.step N p.2).dma.mAddress = p.1.dma.mAddress) ∧
    (∀ p ∈ log (step N) (s0.step N c0) cs, ∀ d : Cycle, p.2.SameBus d →
      p.1.step N d = p.1.step N p.2) := by
  intro s0 l
  have hburst : burstLen.toNat = 64 := rfl
  rw [hburst] at hdvd ⊢
  have hsettled : Settled N s0 := settled_run hpos hdvd pre
  simp only [triggers, Bool.and_eq_true, beq_iff_eq] at htrig
  have hidle : Idle s0 := hsettled.idle htrig.1
  have h0 : InFrame N (s0.step N c0) c0.startAddr 0 0 :=
    hidle.step_trigger hpos c0 htrig.2
  obtain ⟨k, r, hcmd, hpush, hcase⟩ := frame_run hdvd h0 cs hbusy
  refine ⟨⟨k, r, ?_⟩, ?_, ?_⟩
  · have hcmd0 : commands l = burstAddrs c0.startAddr k := by
      rw [← hcmd]
      simp only [l, log_cons, commands, List.filterMap_cons]
      rw [hidle.accepted c0]
    have hpush0 : (pushed l).map Prod.fst = wordAddrs c0.startAddr r := by
      rw [← hpush]
      simp only [l, log_cons, pushed, List.filterMap_cons]
      rw [hidle.returned c0]
    rcases hcase with h | ⟨_, hk, hr⟩
    · have hk := h.k_le
      have hrk := h.r_le
      exact ⟨by omega, by omega, hcmd0, hpush0,
        fun hs => absurd hs h.state_ne_idle⟩
    · exact ⟨by omega, by omega, hcmd0, hpush0, fun _ => ⟨by omega, hr⟩⟩
  · intro p hp hread hwait
    have hp' : Settled N p.1 := by
      obtain ⟨q, _, _, hq⟩ := (mem_log_iff (step N) s0 (c0 :: cs) p).1 hp
      rw [hq, ← run_append]
      exact settled_run hpos hdvd _
    exact hp'.command_stable hread hwait
  · intro p hp d hd
    exact (step_congr (hbusy p hp) hd).symm

/-- The cycle of a slave that never stalls and always has a word ready. -/
def readyCycle (start : Bool) : Cycle where
  startAddr := 0x30000000
  dmaStart := start
  dmaContEn := false
  vsyncEdge := false
  fifoUsed := 0
  mWaitrequest := false
  ret := some 7

/-- The slave stalls and has no word. -/
def stalledCycle : Cycle := { readyCycle false with mWaitrequest := true, ret := none }

/-- The slave stalls the first command of a frame of two bursts, and later keeps a word
back. -/
def twoBursts : List Cycle :=
  [readyCycle false, stalledCycle, readyCycle false, readyCycle false, stalledCycle] ++
    List.replicate 128 (readyCycle false)

/-- A frame of two bursts. -/
theorem frame_exact_two_bursts :
    let l := log (step 128) init (readyCycle true :: twoBursts)
    commands l = burstAddrs 0x30000000 2 ∧
      (pushed l).map Prod.fst = wordAddrs 0x30000000 128 := by
  obtain ⟨⟨k, r, _, _, hcmd, hpush, hend⟩, _⟩ :=
    frame_exact (N := 128) (by decide) (by decide) [] (readyCycle true) twoBursts (by decide)
      (by decide +kernel)
  obtain ⟨rfl, rfl⟩ := hend (by decide +kernel)
  exact ⟨hcmd, hpush⟩

end DmaBus
end VideoProcessing
