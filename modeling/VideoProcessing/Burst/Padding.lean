import VideoProcessing.Burst.Control
import VideoProcessing.Lib.RoundUp

/-!
# Padding of the transfer length

Both engines store a written length rounded up by the mask `ctrl_rd_burst*4 - 1`,
so that the read master, which takes `4 * ctrl_rd_burst` off per command, ends at
zero.  `padded_iff` says for which burst counts and lengths this works: the
least multiple has to fit in 32 bits and the mask has to round (`MaskRounds`),
which every power of two does.
-/

namespace VideoProcessing

open Lib

namespace BurstCsr

variable {s : BurstCsr} {done : Bool} {len : BitVec 32}

/-- What a write to the length register stores. -/
theorem step_write_len (s : BurstCsr) (done : Bool) (len : BitVec 32) :
    (s.step done (AvsIn.write 4 len)).ctrlLen = padLen s.ctrlRdBurst len := rfl

/-- `ctrl_rd_burst*4` as a word. -/
theorem rdBurst_mul_four (rb : BitVec 9) :
    rb.setWidth 32 * 4 = BitVec.ofNat 32 (4 * rb.toNat) := by
  have hlt := rb.isLt
  apply BitVec.eq_of_toNat_eq
  have h4 : (4 : BitVec 32).toNat = 4 := rfl
  rw [BitVec.toNat_mul, BitVec.toNat_setWidth, BitVec.toNat_ofNat, h4,
    Nat.mod_eq_of_lt (a := rb.toNat) (by omega), Nat.mul_comm]

theorem padLen_eq (rb : BitVec 9) (len : BitVec 32) :
    padLen rb len =
      (BitVec.ofNat 32 len.toNat + (BitVec.ofNat 32 (4 * rb.toNat) - 1)) &&&
        ~~~(BitVec.ofNat 32 (4 * rb.toNat) - 1) := by
  rw [padLen, rdBurst_mul_four, BitVec.ofNat_toNat, BitVec.setWidth_eq]

/-- A length whose least multiple fits is padded to it exactly when the mask
rounds. -/
theorem padLen_eq_roundUp_iff {rb : BitVec 9} (hrb : 0 < rb.toNat)
    (hfit : roundUp (4 * rb.toNat) len.toNat < 2 ^ 32) :
    (padLen rb len).toNat = roundUp (4 * rb.toNat) len.toNat ↔
      MaskRounds (4 * rb.toNat) len.toNat := by
  have hlt := rb.isLt
  rw [padLen_eq]
  exact mask_eq_roundUp_iff (by omega) (by omega) hfit

/-- A length whose least multiple does not fit is padded to less than it is. -/
theorem padLen_lt_of_overflow {rb : BitVec 9} (hrb : 0 < rb.toNat)
    (hover : 2 ^ 32 ≤ roundUp (4 * rb.toNat) len.toNat) :
    (padLen rb len).toNat < len.toNat := by
  have hlt := rb.isLt
  have hlen := len.isLt
  have hle := roundUp_le_add (m := 4 * rb.toNat) (n := len.toNat)
  have hmask : (BitVec.ofNat 32 (4 * rb.toNat) - 1).toNat = 4 * rb.toNat - 1 := by
    rw [BitVec.toNat_sub_of_le] <;> simp [BitVec.le_def] <;> omega
  have hsum : (BitVec.ofNat 32 len.toNat + (BitVec.ofNat 32 (4 * rb.toNat) - 1)).toNat =
      len.toNat + (4 * rb.toNat - 1) - 2 ^ 32 := by
    rw [BitVec.toNat_add, hmask, BitVec.toNat_ofNat]
    omega
  have hand : (padLen rb len).toNat ≤ len.toNat + (4 * rb.toNat - 1) - 2 ^ 32 := by
    rw [padLen_eq, BitVec.toNat_and, ← hsum]
    exact Nat.and_le_left
  omega

end BurstCsr

namespace ReadMaster

/-- The FSM takes its command as accepted: `rm_state == READ && !rm_waitrequest`. -/
def accepts (m : ReadMaster) (i : Inputs) : Bool :=
  m.rmState == .read && !i.rmWaitrequest

/-- The number of commands the FSM takes as accepted over a log. -/
def commands (l : List (ReadMaster × Inputs)) : Nat :=
  l.countP fun p => p.1.accepts p.2

theorem commands_snoc (l : List (ReadMaster × Inputs)) (m : ReadMaster) (i : Inputs) :
    commands (l ++ [(m, i)]) = commands l + (m.accepts i).toNat := by
  rw [commands, List.countP_append]
  cases h : m.accepts i <;> simp [commands, h]

/-- While `RD_BURST` stays as it is, the remaining length of a read master with
the step `next` goes down from `len` to exactly zero without an underflow. -/
def Drains (next : ReadMaster → Inputs → ReadMaster) (rb : BitVec 9) (len : BitVec 32) :
    Prop :=
  ∀ (m : ReadMaster) (is : List Inputs), m.rmState = .waitFifo → m.readRemainingLen = len →
    (∀ i ∈ is, i.csr.ctrlRdBurst = rb ∧ i.internalDonePulse = false) →
      4 * rb.toNat * commands (log next m is) ≤ len.toNat ∧
        (run next m is).readRemainingLen.toNat =
          len.toNat - 4 * rb.toNat * commands (log next m is) ∧
        ((run next m is).readRemainingLen = 0 ↔
          commands (log next m is) = len.toNat / (4 * rb.toNat))

/-- What is left after the commands so far. -/
structure Draining (rb : BitVec 9) (len : BitVec 32) (m : ReadMaster) (n : Nat) : Prop where
  state_ne_idle : m.rmState ≠ .idle
  left : m.readRemainingLen.toNat + 4 * rb.toNat * n = len.toNat
  command : m.rmState = .read → 0 < m.readRemainingLen.toNat

theorem Draining.step {P : BurstParams} {rb : BitVec 9} {len : BitVec 32} {m : ReadMaster}
    {n : Nat} {i : Inputs} (h : Draining rb len m n) (hdvd : 4 * rb.toNat ∣ len.toNat)
    (hi : i.csr.ctrlRdBurst = rb) (hd : i.internalDonePulse = false) :
    Draining rb len (m.step P i) (n + (m.accepts i).toNat) := by
  have hleft := h.left
  have hlt := rb.isLt
  rw [step_of_not_done hd]
  cases hs : m.rmState with
  | idle => exact absurd hs h.state_ne_idle
  | waitFifo =>
      have hacc : m.accepts i = false := by simp [accepts, hs]
      rw [hacc, Bool.toNat_false, Nat.add_zero]
      rcases fsm_waitFifo (P := P) (i := i) hs with ⟨hrem, _, he⟩ | ⟨_, he⟩ <;> rw [he]
      · refine ⟨by simp, hleft, fun _ => ?_⟩
        rw [gt_iff_lt, BitVec.lt_def] at hrem
        exact hrem
      · exact ⟨h.state_ne_idle, hleft, h.command⟩
  | read =>
      rcases fsm_read (P := P) (i := i) hs with ⟨hw, he⟩ | ⟨hw, he⟩ <;> rw [he]
      · have hacc : m.accepts i = true := by simp [accepts, hs, hw]
        have hpos := h.command hs
        have hmul : 4 * rb.toNat ∣ m.readRemainingLen.toNat :=
          (Nat.dvd_add_left (Nat.dvd_mul_right _ n)).1 (hleft.symm ▸ hdvd)
        have hle := Nat.le_of_dvd hpos hmul
        have hsub : (m.readRemainingLen - i.csr.ctrlRdBurst.setWidth 32 * 4).toNat =
            m.readRemainingLen.toNat - 4 * rb.toNat := by
          have hval : (BitVec.ofNat 32 (4 * rb.toNat)).toNat = 4 * rb.toNat := by
            rw [BitVec.toNat_ofNat, Nat.mod_eq_of_lt (by omega)]
          rw [hi, BurstCsr.rdBurst_mul_four,
            BitVec.toNat_sub_of_le (by rw [BitVec.le_def, hval]; exact hle), hval]
        refine ⟨by simp, ?_, fun hr => absurd hr (by simp)⟩
        change (m.readRemainingLen - i.csr.ctrlRdBurst.setWidth 32 * 4).toNat + _ = _
        rw [hsub, hacc, Bool.toNat_true, Nat.mul_add, Nat.mul_one]
        omega
      · have hacc : m.accepts i = false := by simp [accepts, hw]
        rw [hacc, Bool.toNat_false, Nat.add_zero]
        exact ⟨h.state_ne_idle, hleft, h.command⟩

/-- A length of whole bursts is drained. -/
theorem drains_of_dvd (P : BurstParams) {rb : BitVec 9} {len : BitVec 32}
    (hrb : 0 < rb.toNat) (hdvd : 4 * rb.toNat ∣ len.toNat) : Drains (step P) rb len := by
  intro m is hs hlen his
  have hrun : Draining rb len (run (step P) m is) (commands (log (step P) m is)) := by
    refine log_invariant_of
      (G := fun _ _ (i : Inputs) => i.csr.ctrlRdBurst = rb ∧ i.internalDonePulse = false)
      (P := fun m l => Draining rb len m (commands l)) ?_ ?_ is ?_
    · exact ⟨by rw [hs]; decide, by rw [hlen]; rfl, fun hr => by
        rw [hs] at hr
        exact absurd hr (by decide)⟩
    · rintro m l i h ⟨hi, hd⟩
      rw [commands_snoc]
      exact h.step hdvd hi hd
    · intro pre i post hsplit
      exact his i (by rw [hsplit]; simp)
  have hleft := hrun.left
  have hzero : (run (step P) m is).readRemainingLen = 0 ↔
      (run (step P) m is).readRemainingLen.toNat = 0 := by
    rw [← BitVec.toNat_inj]
    rfl
  refine ⟨by omega, by omega, ?_⟩
  rw [hzero]
  constructor
  · intro h0
    rw [← hleft, h0, Nat.zero_add, Nat.mul_div_cancel_left _ (by omega)]
  · intro hall
    rw [hall, Nat.mul_div_cancel' hdvd] at hleft
    omega

end ReadMaster

namespace BurstCsr

variable {s : BurstCsr} {done : Bool} {len : BitVec 32}

/-- A write of `len` stores the least multiple of the read burst, a length that
cannot be padded is not cut, and the read master of either engine drains what is
stored. -/
structure Padded (P : BurstParams) (s : BurstCsr) (done : Bool) (len : BitVec 32) : Prop where
  least : ∀ k, IsLeast {k | 4 * s.ctrlRdBurst.toNat ∣ k ∧ len.toNat ≤ k} k → k < 2 ^ 32 →
    (s.step done (AvsIn.write 4 len)).ctrlLen.toNat = k
  not_shorter : ∀ k, IsLeast {k | 4 * s.ctrlRdBurst.toNat ∣ k ∧ len.toNat ≤ k} k →
    2 ^ 32 ≤ k → len.toNat ≤ (s.step done (AvsIn.write 4 len)).ctrlLen.toNat
  drains : ReadMaster.Drains (ReadMaster.step P) s.ctrlRdBurst
    (s.step done (AvsIn.write 4 len)).ctrlLen
  drains4 : ReadMaster.Drains (ReadMaster.step4 P) s.ctrlRdBurst
    (s.step done (AvsIn.write 4 len)).ctrlLen

/-- **When a written length is padded correctly.**  For every state of the
registers with a burst count that is not zero and every written length, the
length is padded correctly if and only if its least multiple of the burst fits in
32 bits and the mask rounds it. -/
theorem padded_iff (P : BurstParams) (s : BurstCsr) (done : Bool) (len : BitVec 32)
    (hrb : 0 < s.ctrlRdBurst.toNat) :
    Padded P s done len ↔
      roundUp (4 * s.ctrlRdBurst.toNat) len.toNat < 2 ^ 32 ∧
        MaskRounds (4 * s.ctrlRdBurst.toNat) len.toNat := by
  have hleast := isLeast_roundUp (m := 4 * s.ctrlRdBurst.toNat) (n := len.toNat) (by omega)
  have hstep4 : ReadMaster.step4 P = ReadMaster.step P := by
    funext m i
    exact ReadMaster.step4_eq_step P m i
  constructor
  · intro h
    rcases Nat.lt_or_ge (roundUp (4 * s.ctrlRdBurst.toNat) len.toNat) (2 ^ 32) with
      hfit | hover
    · exact ⟨hfit, (padLen_eq_roundUp_iff hrb hfit).1 (h.least _ hleast hfit)⟩
    · have hcut := padLen_lt_of_overflow hrb hover
      exact absurd (h.not_shorter _ hleast hover) (Nat.not_le.2 hcut)
  · rintro ⟨hfit, hmask⟩
    have hpad := (padLen_eq_roundUp_iff hrb hfit).2 hmask
    have hdvd : 4 * s.ctrlRdBurst.toNat ∣
        (s.step done (AvsIn.write 4 len)).ctrlLen.toNat := by
      rw [step_write_len, hpad]
      exact dvd_roundUp
    refine ⟨?_, ?_, ReadMaster.drains_of_dvd P hrb hdvd, ?_⟩
    · intro k hk _
      rw [hk.unique hleast]
      exact hpad
    · intro k hk hover
      rw [hk.unique hleast] at hover
      exact absurd hfit (Nat.not_lt.2 hover)
    · rw [hstep4]
      exact ReadMaster.drains_of_dvd P hrb hdvd

/-- The example of the source, a burst of 256 words: 1000 bytes are padded. -/
theorem padded_iff_burst_256 :
    Padded BurstParams.standard (reset BurstParams.standard) false 1000 :=
  (padded_iff BurstParams.standard (reset BurstParams.standard) false 1000 (by decide)).2
    ⟨by decide, by decide⟩

/-- With a burst of three words 12 bytes are stored as 20. -/
theorem padding_fails :
    ¬ ∀ (P : BurstParams) (s : BurstCsr) (done : Bool) (len : BitVec 32),
        0 < s.ctrlRdBurst.toNat → Padded P s done len := by
  intro h
  have hpad := h BurstParams.standard
    ((reset BurstParams.standard).step false (AvsIn.write 5 3)) false 12 (by decide)
  have hleast := isLeast_roundUp (m := 12) (n := 12) (by decide)
  have hstored := hpad.least 12 hleast (by decide)
  exact absurd hstored (by decide)

end BurstCsr
end VideoProcessing
