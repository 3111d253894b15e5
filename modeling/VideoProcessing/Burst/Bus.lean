import VideoProcessing.Avalon.WordAddrs
import VideoProcessing.Burst.Control
import VideoProcessing.Lib.Counter

/-!
# A burst engine on the memory bus

`BurstBus` puts the control code between an in-order read slave, which owes the
words of the accepted commands and may return the oldest one in any cycle, and a
write slave, which counts the beats of a burst and addresses them from the
burst's start.  The environment chooses the stalls, the returned words and the
cycles in which they return; the FIFO levels come from the engine.

`ReadProgress` and `WriteProgress` say how far each master is in a transfer, and
`InTransfer.step` what one cycle adds: this part is the same for both engines.
-/

namespace VideoProcessing

open Lib

/-- What the environment does in one cycle: a CSR write, the stalls, and the
word the read slave would return if it owes one. -/
structure BurstCycle where
  avs : AvsIn
  rmWaitrequest : Bool
  ret : Option (BitVec 32)
  wmWaitrequest : Bool

/-- A cycle in which the slaves do not stall and the read slave returns `d` if it
owes a word. -/
def BurstCycle.ready (avs : AvsIn) (d : BitVec 32) : BurstCycle where
  avs := avs
  rmWaitrequest := false
  ret := some d
  wmWaitrequest := false

/-- The state of the two slaves. -/
structure MemoryBus where
  owed : List (BitVec 32)
  beatsLeft : Nat
  nextAddr : BitVec 32
deriving DecidableEq, Repr

/-- The control code and the slaves. -/
structure BurstBus where
  ctl : BurstControl
  mem : MemoryBus
deriving DecidableEq, Repr

namespace MemoryBus

/-- Nothing is owed and no write burst is open. -/
def init : MemoryBus where
  owed := []
  beatsLeft := 0
  nextAddr := 0

end MemoryBus

namespace BurstBus

/-- The read command accepted in this cycle: address and burst count. -/
def accepted (s : BurstBus) (c : BurstCycle) : Option (BitVec 32 × BitVec 9) :=
  if s.ctl.rm.rmRead && !c.rmWaitrequest then
    some (s.ctl.rm.rmAddress, s.ctl.rm.rmBurstcount)
  else none

/-- The words a command asks for. -/
def wordsOf (cmd : BitVec 32 × BitVec 9) : List (BitVec 32) :=
  wordAddrs cmd.1 cmd.2.toNat

/-- The words the slave can return in this cycle, oldest first: the owed ones
and those of a command accepted right now. -/
def available (s : BurstBus) (c : BurstCycle) : List (BitVec 32) :=
  s.mem.owed ++ (s.accepted c).toList.flatMap wordsOf

/-- The word returned in this cycle, with the address it was read from. -/
def returned (s : BurstBus) (c : BurstCycle) : Option (BitVec 32 × BitVec 32) :=
  match s.available c, c.ret with
  | a :: _, some d => some (a, d)
  | _, _ => none

/-- The write slave takes a beat in this cycle. -/
def takesBeat (s : BurstBus) (c : BurstCycle) : Bool :=
  s.ctl.wm.wmWrite && !c.wmWaitrequest

/-- The address of the beat on the bus: the first beat of a burst carries the
burst's address. -/
def beatAddr (s : BurstBus) : BitVec 32 :=
  if s.mem.beatsLeft = 0 then s.ctl.wm.wmAddress else s.mem.nextAddr

/-- The slaves after this cycle. -/
def memNext (s : BurstBus) (c : BurstCycle) : MemoryBus where
  owed := (s.available c).drop (s.returned c).isSome.toNat
  beatsLeft :=
    if s.takesBeat c then
      (if s.mem.beatsLeft = 0 then s.ctl.wm.wmBurstcount.toNat else s.mem.beatsLeft) - 1
    else s.mem.beatsLeft
  nextAddr := if s.takesBeat c then s.beatAddr + 4 else s.mem.nextAddr

/-- The inputs of the control code, given the FIFO levels. -/
def inputs (s : BurstBus) (c : BurstCycle) (rdUsed wrUsed : BitVec 32) :
    BurstControl.Inputs where
  avs := c.avs
  rmWaitrequest := c.rmWaitrequest
  rmReaddatavalid := (s.returned c).isSome
  wmWaitrequest := c.wmWaitrequest
  rdUsed := rdUsed
  wrUsed := wrUsed

/-- One cycle of the control code and the slaves. -/
def step (P : BurstParams) (s : BurstBus) (c : BurstCycle) (rdUsed wrUsed : BitVec 32) :
    BurstBus where
  ctl := s.ctl.step P (s.inputs c rdUsed wrUsed)
  mem := s.memNext c

end BurstBus

/-- Done rises between two states. -/
def BurstControl.DoneRises (s s' : BurstControl) : Prop :=
  s.csr.ctrlDoneReg = false ∧ s'.csr.ctrlDoneReg = true

instance (s s' : BurstControl) : Decidable (s.DoneRises s') := by
  unfold BurstControl.DoneRises
  infer_instance

namespace BurstBus

/-- The engine is idle: no start pulse, no completion pulse, both masters in
their idle states. -/
def Quiescent (ctl : BurstControl) : Prop :=
  ctl.csr.ctrlStart = false ∧ ctl.rm.rmState = .idle ∧ ctl.wm.wmFsm = .wIdle ∧
    ctl.wm.internalDonePulse = false

/-- A transfer that the engine may be started with: the bursts are not empty and
divide the length. -/
def Programmed (csr : BurstCsr) : Prop :=
  0 < csr.ctrlRdBurst.toNat ∧ 0 < csr.ctrlWrBurst.toNat ∧
    4 * csr.ctrlRdBurst.toNat ∣ csr.ctrlLen.toNat ∧
      4 * csr.ctrlWrBurst.toNat ∣ csr.ctrlLen.toNat

/-- The discipline of the software: only the status register is written while
the engine is not idle, and only a programmed transfer is started. -/
def Disciplined (ctl : BurstControl) (avs : AvsIn) : Prop :=
  (avs.avsWrite = true → avs.avsAddress = 1 ∨ Quiescent ctl) ∧
    (avs.start = true → Programmed ctl.csr)

instance (ctl : BurstControl) : Decidable (Quiescent ctl) := by
  unfold Quiescent
  infer_instance

instance (csr : BurstCsr) : Decidable (Programmed csr) := by
  unfold Programmed
  infer_instance

instance (ctl : BurstControl) (avs : AvsIn) : Decidable (Disciplined ctl avs) := by
  unfold Disciplined
  infer_instance

end BurstBus

section Logs

variable {σ : Type}

/-- The addresses covered by the read commands accepted over a log, in order. -/
def BurstBus.covered (bus : σ → BurstBus) (l : List (σ × BurstCycle)) : List (BitVec 32) :=
  l.flatMap fun p => ((bus p.1).accepted p.2).toList.flatMap BurstBus.wordsOf

/-- The words returned over a log with their addresses, in order. -/
def BurstBus.returns (bus : σ → BurstBus) (l : List (σ × BurstCycle)) :
    List (BitVec 32 × BitVec 32) :=
  l.flatMap fun p => ((bus p.1).returned p.2).toList

/-- The write beats taken over a log, in order: address and data. -/
def BurstBus.beats (bus : σ → BurstBus) (wmWritedata : σ → BitVec 32)
    (l : List (σ × BurstCycle)) : List (BitVec 32 × BitVec 32) :=
  l.flatMap fun p =>
    if (bus p.1).takesBeat p.2 then [((bus p.1).beatAddr, wmWritedata p.1)] else []

variable {bus : σ → BurstBus} {l : List (σ × BurstCycle)} {s : σ} {c : BurstCycle}

theorem BurstBus.covered_snoc :
    BurstBus.covered bus (l ++ [(s, c)]) =
      BurstBus.covered bus l ++ ((bus s).accepted c).toList.flatMap BurstBus.wordsOf := by
  simp [BurstBus.covered]

theorem BurstBus.returns_snoc :
    BurstBus.returns bus (l ++ [(s, c)]) =
      BurstBus.returns bus l ++ ((bus s).returned c).toList := by
  simp [BurstBus.returns]

theorem BurstBus.beats_snoc {wmWritedata : σ → BitVec 32} :
    BurstBus.beats bus wmWritedata (l ++ [(s, c)]) =
      BurstBus.beats bus wmWritedata l ++
        if (bus s).takesBeat c then [((bus s).beatAddr, wmWritedata s)] else [] := by
  simp [BurstBus.beats]

end Logs

/-- One transfer: its addresses, its length in bytes and its burst counts. -/
structure Transfer where
  src : BitVec 32
  dst : BitVec 32
  len : BitVec 32
  rb : BitVec 9
  wb : BitVec 9
  rb_pos : 0 < rb.toNat
  wb_pos : 0 < wb.toNat
  rb_dvd : 4 * rb.toNat ∣ len.toNat
  wb_dvd : 4 * wb.toNat ∣ len.toNat

attribute [ext] Transfer

namespace Transfer

/-- The transfer that the registers describe. -/
def ofCsr (csr : BurstCsr) (h : BurstBus.Programmed csr) : Transfer where
  src := csr.ctrlSrcAddr
  dst := csr.ctrlDstAddr
  len := csr.ctrlLen
  rb := csr.ctrlRdBurst
  wb := csr.ctrlWrBurst
  rb_pos := h.1
  wb_pos := h.2.1
  rb_dvd := h.2.2.1
  wb_dvd := h.2.2.2

/-- The length in words. -/
def words (T : Transfer) : Nat := T.len.toNat / 4

theorem four_mul_words (T : Transfer) : 4 * T.words = T.len.toNat := by
  have h4 : 4 ∣ T.len.toNat := Nat.dvd_trans (Nat.dvd_mul_right 4 _) T.rb_dvd
  exact Nat.mul_div_cancel' h4

theorem words_lt (T : Transfer) : T.words < 2 ^ 30 := by
  have := T.len.isLt
  have := T.four_mul_words
  omega

/-- A burst count that divides the length still fits when anything is left. -/
theorem next_le (T : Transfer) {b q : Nat} (hb : 4 * b ∣ T.len.toNat) (hq : b ∣ q)
    (hlt : q < T.words) : q + b ≤ T.words := by
  have hw := T.four_mul_words
  obtain ⟨x, rfl⟩ := hq
  obtain ⟨y, hy⟩ := hb
  have hwords : T.words = b * y := by
    rw [Nat.mul_assoc] at hy
    omega
  rw [hwords] at hlt ⊢
  have hxy : x < y := Nat.lt_of_mul_lt_mul_left hlt
  have hle : b * (x + 1) ≤ b * y := Nat.mul_le_mul_left b hxy
  rw [Nat.mul_add, Nat.mul_one] at hle
  exact hle

/-- The registers hold this transfer. -/
structure Configured (T : Transfer) (csr : BurstCsr) : Prop where
  src : csr.ctrlSrcAddr = T.src
  dst : csr.ctrlDstAddr = T.dst
  len : csr.ctrlLen = T.len
  rb : csr.ctrlRdBurst = T.rb
  wb : csr.ctrlWrBurst = T.wb

end Transfer

section Reader

/-- What the read master is doing when `q` words are commanded. -/
inductive ReadPhase (T : Transfer) (rm : ReadMaster) (q : Nat) : Prop
  | wait (state : rm.rmState = .waitFifo) (read : rm.rmRead = false)
  | command (state : rm.rmState = .read) (read : rm.rmRead = true)
      (addr : rm.rmAddress = rm.currentSrcAddr) (burst : rm.rmBurstcount = T.rb)
      (lt : q < T.words)

/-- The read master has commanded `q` words of the transfer and `n` of them have
come back. -/
structure ReadProgress (T : Transfer) (rm : ReadMaster) (owed : List (BitVec 32))
    (q n : Nat) : Prop where
  addr : rm.currentSrcAddr = T.src + 4 * BitVec.ofNat 32 q
  remaining : rm.readRemainingLen = BitVec.ofNat 32 (4 * (T.words - q))
  pending : rm.pendingReads = BitVec.ofNat 32 (q - n)
  owed : owed = (wordAddrs T.src q).drop n
  n_le : n ≤ q
  q_le : q ≤ T.words
  q_dvd : T.rb.toNat ∣ q
  phase : ReadPhase T rm q

variable {P : BurstParams} {s : BurstBus} {T : Transfer} {q n : Nat}

/-- The number of words commanded in this cycle. -/
def BurstBus.commandedWords (s : BurstBus) (c : BurstCycle) : Nat :=
  ((s.accepted c).toList.flatMap BurstBus.wordsOf).length

namespace ReadProgress

theorem state_ne_idle (h : ReadProgress T s.ctl.rm s.mem.owed q n) :
    s.ctl.rm.rmState ≠ .idle := by
  cases h.phase with
  | wait hs _ =>
      rw [hs]
      decide
  | command hs _ _ _ _ =>
      rw [hs]
      decide

/-- The slave accepts the next burst of the transfer or nothing. -/
theorem accepted (h : ReadProgress T s.ctl.rm s.mem.owed q n) (c : BurstCycle) :
    (s.accepted c = none ∧ s.commandedWords c = 0 ∧
      (s.ctl.rm.rmState = .read → c.rmWaitrequest = true)) ∨
    (s.accepted c = some (T.src + 4 * BitVec.ofNat 32 q, T.rb) ∧
      s.commandedWords c = T.rb.toNat ∧ s.ctl.rm.rmState = .read ∧
      c.rmWaitrequest = false) := by
  cases h.phase with
  | wait hs hread =>
      left
      have hacc : s.accepted c = none := by simp [BurstBus.accepted, hread]
      exact ⟨hacc, by simp [BurstBus.commandedWords, hacc], fun h0 => by
        rw [hs] at h0
        exact absurd h0 (by decide)⟩
  | command hs hread haddr hburst _ =>
      cases hw : c.rmWaitrequest with
      | true =>
          left
          have hacc : s.accepted c = none := by simp [BurstBus.accepted, hw]
          exact ⟨hacc, by simp [BurstBus.commandedWords, hacc], fun _ => rfl⟩
      | false =>
          right
          have hacc : s.accepted c = some (T.src + 4 * BitVec.ofNat 32 q, T.rb) := by
            simp [BurstBus.accepted, hread, hw, haddr, h.addr, hburst]
          refine ⟨hacc, ?_, hs, rfl⟩
          simp [BurstBus.commandedWords, hacc, BurstBus.wordsOf]

/-- The words the slave can return are those of the transfer, in order. -/
theorem available (h : ReadProgress T s.ctl.rm s.mem.owed q n) (c : BurstCycle) :
    s.available c = (wordAddrs T.src (q + s.commandedWords c)).drop n := by
  have hn := h.n_le
  rw [BurstBus.available, h.owed]
  rcases h.accepted c with ⟨hacc, hnum, _⟩ | ⟨hacc, hnum, _, _⟩
  · simp [hacc, hnum]
  · rw [hacc, hnum, wordAddrs_add, List.drop_append_of_le_length (by simpa using hn)]
    simp [BurstBus.wordsOf]

/-- The commands cover the transfer in order. -/
theorem covered_next (h : ReadProgress T s.ctl.rm s.mem.owed q n) (c : BurstCycle) :
    wordAddrs T.src q ++ (s.accepted c).toList.flatMap BurstBus.wordsOf =
      wordAddrs T.src (q + s.commandedWords c) := by
  rcases h.accepted c with ⟨hacc, hnum, _⟩ | ⟨hacc, hnum, _, _⟩
  · simp [hacc, hnum]
  · rw [hacc, hnum, wordAddrs_add]
    simp [BurstBus.wordsOf]

/-- The slave returns the next word of the transfer or nothing. -/
theorem returned (h : ReadProgress T s.ctl.rm s.mem.owed q n) (c : BurstCycle) :
    s.returned c = none ∨
      (n < q + s.commandedWords c ∧
        ∃ d, s.returned c = some (T.src + 4 * BitVec.ofNat 32 n, d)) := by
  rw [BurstBus.returned, h.available c]
  by_cases hn : n < q + s.commandedWords c
  · rw [drop_wordAddrs T.src hn]
    cases c.ret with
    | none => exact Or.inl rfl
    | some d => exact Or.inr ⟨hn, d, rfl⟩
  · left
    rw [List.drop_eq_nil_of_le (by rw [length_wordAddrs]; omega)]

/-- The words come back in order. -/
theorem returned_next (h : ReadProgress T s.ctl.rm s.mem.owed q n) (c : BurstCycle) :
    wordAddrs T.src n ++ (s.returned c).toList.map Prod.fst =
      wordAddrs T.src (n + (s.returned c).isSome.toNat) := by
  rcases h.returned c with hnone | ⟨_, d, hsome⟩
  · simp [hnone]
  · simp [hsome, wordAddrs_succ]

theorem returned_le (h : ReadProgress T s.ctl.rm s.mem.owed q n) (c : BurstCycle) :
    n + (s.returned c).isSome.toNat ≤ q + s.commandedWords c := by
  have hn := h.n_le
  rcases h.returned c with hnone | ⟨hlt, d, hsome⟩
  · rw [hnone]
    simp
    omega
  · rw [hsome]
    simp
    omega

/-- `pending_reads` counts the owed words. -/
theorem pendingNext (h : ReadProgress T s.ctl.rm s.mem.owed q n) (c : BurstCycle)
    (rdUsed wrUsed : BitVec 32) :
    s.ctl.rm.pendingNext (s.ctl.rmInputs (s.inputs c rdUsed wrUsed)) =
      BitVec.ofNat 32
        (q + s.commandedWords c - (n + (s.returned c).isSome.toNat)) := by
  have hn := h.n_le
  have hq := h.q_le
  have hwords := T.words_lt
  have hret := h.returned_le c
  have hvalid : (s.ctl.rmInputs (s.inputs c rdUsed wrUsed)).rmReaddatavalid =
      (s.returned c).isSome := rfl
  have hwait : (s.ctl.rmInputs (s.inputs c rdUsed wrUsed)).rmWaitrequest =
      c.rmWaitrequest := rfl
  rw [ReadMaster.pendingNext, hvalid, hwait, h.pending]
  rcases h.accepted c with ⟨_, hnum, hst⟩ | ⟨_, hnum, hst, hw⟩
  · have hno : (s.ctl.rm.rmState == .read && !c.rmWaitrequest) = false := by
      cases hs : s.ctl.rm.rmState
      · rfl
      · simp [hst hs]
      · rfl
    rw [hno, hnum, if_neg (by decide)]
    rw [hnum] at hret
    cases hv : (s.returned c).isSome with
    | false => simp
    | true =>
        rw [hv] at hret
        simp only [Bool.toNat_true] at hret
        have hpos : BitVec.ofNat 32 (q - n) > 0 := by
          rw [gt_iff_lt, BitVec.lt_def, Counter.toNat_ofNat_of_lt (by omega)]
          change 0 < q - n
          omega
        rw [if_pos rfl, if_pos hpos]
        rw [Counter.ofNat_sub_one (by omega), Bool.toNat_true, Nat.add_zero, Nat.sub_sub]
  · have hburst : s.ctl.rm.rmBurstcount = T.rb := by
      cases h.phase with
      | wait hs _ =>
          rw [hs] at hst
          exact absurd hst (by decide)
      | command _ _ _ hb _ => exact hb
    have hyes : (s.ctl.rm.rmState == .read && !c.rmWaitrequest) = true := by
      simp [hst, hw]
    rw [hnum] at hret
    rw [hyes, if_pos rfl, hnum, hburst, ← BitVec.ofNat_toNat, ← BitVec.ofNat_add]
    cases hv : (s.returned c).isSome with
    | false =>
        simp
        congr 1
        omega
    | true =>
        rw [hv] at hret
        simp only [Bool.toNat_true] at hret
        rw [if_pos rfl]
        rw [Counter.ofNat_sub_one (by omega)]
        congr 1
        simp
        omega

/-- One cycle of the read master in a transfer; of the registers only the read
burst matters. -/
theorem step_of_rb (h : ReadProgress T s.ctl.rm s.mem.owed q n)
    (hburst : s.ctl.csr.ctrlRdBurst = T.rb) (hd : s.ctl.wm.internalDonePulse = false)
    (c : BurstCycle) (rdUsed wrUsed : BitVec 32) :
    ReadProgress T (s.step P c rdUsed wrUsed).ctl.rm (s.step P c rdUsed wrUsed).mem.owed
      (q + s.commandedWords c) (n + (s.returned c).isSome.toNat) := by
  have hret := h.returned_le c
  have hpend := h.pendingNext c rdUsed wrUsed
  have hwords := T.words_lt
  have howed : (s.step P c rdUsed wrUsed).mem.owed =
      (wordAddrs T.src (q + s.commandedWords c)).drop
        (n + (s.returned c).isSome.toNat) := by
    change (s.available c).drop _ = _
    rw [h.available c, List.drop_drop]
  have hrm : (s.step P c rdUsed wrUsed).ctl.rm =
      { s.ctl.rm.fsm P (s.ctl.rmInputs (s.inputs c rdUsed wrUsed)) with
        pendingReads := BitVec.ofNat 32
          (q + s.commandedWords c - (n + (s.returned c).isSome.toNat)) } := by
    rw [← hpend]
    exact ReadMaster.step_of_not_done (i := s.ctl.rmInputs (s.inputs c rdUsed wrUsed)) hd
  have hrb : (s.ctl.rmInputs (s.inputs c rdUsed wrUsed)).csr.ctrlRdBurst = T.rb := hburst
  rcases h.accepted c with ⟨_, hnum, hst⟩ | ⟨_, hnum, hst, hw⟩
  · rw [hnum, Nat.add_zero] at hrm howed hret ⊢
    cases h.phase with
    | wait hs hread =>
        rcases ReadMaster.fsm_waitFifo (P := P)
            (i := s.ctl.rmInputs (s.inputs c rdUsed wrUsed)) hs with
          ⟨hrem, _, he⟩ | ⟨_, he⟩ <;> rw [he] at hrm
        · have hlt : q < T.words := by
            rw [h.remaining, gt_iff_lt, BitVec.lt_def,
              Counter.toNat_ofNat_of_lt (by omega)] at hrem
            have hrem' : 0 < 4 * (T.words - q) := hrem
            omega
          refine ⟨?_, ?_, ?_, howed, hret, h.q_le, h.q_dvd, .command ?_ ?_ ?_ ?_ hlt⟩ <;>
            rw [hrm]
          · exact h.addr
          · exact h.remaining
          · exact hrb
        · refine ⟨?_, ?_, ?_, howed, hret, h.q_le, h.q_dvd, .wait ?_ ?_⟩ <;> rw [hrm]
          · exact h.addr
          · exact h.remaining
          · exact hs
          · exact hread
    | command hs hread haddr hburst hlt =>
        rcases ReadMaster.fsm_read (P := P)
            (i := s.ctl.rmInputs (s.inputs c rdUsed wrUsed)) hs with
          ⟨hw, _⟩ | ⟨_, he⟩
        · have hw' : c.rmWaitrequest = false := hw
          rw [hst hs] at hw'
          exact absurd hw' (by decide)
        · rw [he] at hrm
          refine ⟨?_, ?_, ?_, howed, hret, h.q_le, h.q_dvd, .command ?_ ?_ ?_ ?_ hlt⟩ <;>
            rw [hrm]
          · exact h.addr
          · exact h.remaining
          · exact hs
          · exact hread
          · exact haddr
          · exact hburst
  · rw [hnum] at hrm howed hret ⊢
    have hlt : q < T.words := by
      cases h.phase with
      | wait hs _ =>
          rw [hs] at hst
          exact absurd hst (by decide)
      | command _ _ _ _ hlt => exact hlt
    have hle := T.next_le T.rb_dvd h.q_dvd hlt
    rcases ReadMaster.fsm_read (P := P)
        (i := s.ctl.rmInputs (s.inputs c rdUsed wrUsed)) hst with
      ⟨_, he⟩ | ⟨hw', _⟩
    · rw [he, hrb] at hrm
      have hbytes : T.rb.setWidth 32 * 4 = BitVec.ofNat 32 (4 * T.rb.toNat) := by
        rw [← BitVec.ofNat_toNat, Nat.mul_comm, BitVec.ofNat_mul]
        rfl
      refine ⟨?_, ?_, ?_, howed, hret, hle, (Nat.dvd_add_right h.q_dvd).2 (Nat.dvd_refl _),
        .wait ?_ ?_⟩ <;> rw [hrm]
      · change s.ctl.rm.currentSrcAddr + _ = _
        rw [h.addr, ← addr_add, ← BitVec.ofNat_toNat,
          BitVec.mul_comm (BitVec.ofNat 32 T.rb.toNat) 4]
      · change s.ctl.rm.readRemainingLen - _ = _
        rw [h.remaining, hbytes, Counter.ofNat_sub_ofNat (by omega)]
        congr 1
        omega
    · have hw'' : c.rmWaitrequest = true := hw'
      rw [hw] at hw''
      exact absurd hw'' (by decide)

theorem step (h : ReadProgress T s.ctl.rm s.mem.owed q n) (hconf : T.Configured s.ctl.csr)
    (hd : s.ctl.wm.internalDonePulse = false) (c : BurstCycle)
    (rdUsed wrUsed : BitVec 32) :
    ReadProgress T (s.step P c rdUsed wrUsed).ctl.rm (s.step P c rdUsed wrUsed).mem.owed
      (q + s.commandedWords c) (n + (s.returned c).isSome.toNat) :=
  h.step_of_rb hconf.rb hd c rdUsed wrUsed

end ReadProgress
end Reader

section Writer

/-- What the write master is doing when `m` beats are taken, `p` of them in
complete bursts. -/
inductive WritePhase (T : Transfer) (wm : WriteMaster) (mem : MemoryBus) (p m : Nat) : Prop
  | wait (state : wm.wmFsm = .wWaitData) (write : wm.wmWrite = false)
      (done : wm.internalDonePulse = false) (beats : m = p) (left : mem.beatsLeft = 0)
  | burst (state : wm.wmFsm = .wBurst) (write : wm.wmWrite = true)
      (done : wm.internalDonePulse = false) (count : wm.wmBurstcount = T.wb)
      (addr : wm.wmAddress = wm.currentDstAddr) (beats : m = p + wm.wmWordCnt.toNat)
      (lt : wm.wmWordCnt.toNat < T.wb.toNat) (room : p + T.wb.toNat ≤ T.words)
      (left : mem.beatsLeft =
        if wm.wmWordCnt.toNat = 0 then 0 else T.wb.toNat - wm.wmWordCnt.toNat)
      (next : 0 < wm.wmWordCnt.toNat → mem.nextAddr = T.dst + 4 * BitVec.ofNat 32 m)
  | complete (state : wm.wmFsm = .wIdle) (write : wm.wmWrite = false)
      (done : wm.internalDonePulse = true) (beats : m = T.words) (left : mem.beatsLeft = 0)

/-- The write slave has taken `m` beats of the transfer. -/
structure WriteProgress (T : Transfer) (wm : WriteMaster) (mem : MemoryBus)
    (p m : Nat) : Prop where
  addr : wm.currentDstAddr = T.dst + 4 * BitVec.ofNat 32 p
  remaining : wm.remainingLen = BitVec.ofNat 32 (4 * (T.words - p))
  p_le : p ≤ T.words
  p_dvd : T.wb.toNat ∣ p
  phase : WritePhase T wm mem p m

variable {P : BurstParams} {s : BurstBus} {T : Transfer} {p m : Nat}

/-- The last beat of a burst, in natural numbers. -/
theorem WriteMaster.lastBeat_iff {wm : WriteMaster} {n : Nat}
    (hn : wm.wmBurstcount.toNat = n) (hlt : wm.wmWordCnt.toNat < n) :
    wm.lastBeat = true ↔ wm.wmWordCnt.toNat + 1 = n := by
  have h9 := wm.wmBurstcount.isLt
  have hlast : (wm.wmBurstcount.setWidth 32 - 1).toNat = n - 1 := by
    rw [← BitVec.ofNat_toNat, hn, Counter.ofNat_sub_one (by omega),
      Counter.toNat_ofNat_of_lt (by omega)]
  rw [WriteMaster.lastBeat, beq_iff_eq, ← BitVec.toNat_inj, hlast, BitVec.toNat_setWidth,
    Nat.mod_eq_of_lt (by omega)]
  omega

/-- A burst of `wb` words is on the bus, `wm_word_cnt` of them taken. -/
structure OnBurst (wb : BitVec 9) (wm : WriteMaster) (mem : MemoryBus) : Prop where
  state : wm.wmFsm = .wBurst
  write : wm.wmWrite = true
  count : wm.wmBurstcount = wb
  addr : wm.wmAddress = wm.currentDstAddr
  lt : wm.wmWordCnt.toNat < wb.toNat
  left : mem.beatsLeft =
    if wm.wmWordCnt.toNat = 0 then 0 else wb.toNat - wm.wmWordCnt.toNat
  next : 0 < wm.wmWordCnt.toNat →
    mem.nextAddr = wm.currentDstAddr + 4 * BitVec.ofNat 32 wm.wmWordCnt.toNat

namespace OnBurst

variable {wb : BitVec 9}

/-- `fifo_rd_en` takes a word from the FIFO exactly when the slave takes a beat. -/
theorem fifoRdEn (h : OnBurst wb s.ctl.wm s.mem) (c : BurstCycle) :
    s.ctl.wm.fifoRdEn c.wmWaitrequest = s.takesBeat c := by
  have hcmp : s.ctl.wm.wmWordCnt < s.ctl.wm.wmBurstcount := by
    rw [BitVec.lt_def, h.count]
    exact h.lt
  simp [WriteMaster.fifoRdEn, BurstBus.takesBeat, h.state, h.write, hcmp]

/-- The beat on the bus carries the address of the next word. -/
theorem beatAddr (h : OnBurst wb s.ctl.wm s.mem) :
    s.beatAddr = s.ctl.wm.currentDstAddr + 4 * BitVec.ofNat 32 s.ctl.wm.wmWordCnt.toNat := by
  have hlt := h.lt
  rw [BurstBus.beatAddr, h.left]
  by_cases hcnt : s.ctl.wm.wmWordCnt.toNat = 0
  · rw [if_pos hcnt, if_pos rfl, h.addr, hcnt]
    simp
  · rw [if_neg hcnt, if_neg (by omega)]
    exact h.next (by omega)

/-- A beat in the middle of the burst. -/
theorem next_word (h : OnBurst wb s.ctl.wm s.mem) {c : BurstCycle}
    (hbeat : s.takesBeat c = true) (hmore : s.ctl.wm.wmWordCnt.toNat + 1 < wb.toNat) :
    (s.ctl.wm.wmWordCnt + 1).toNat = s.ctl.wm.wmWordCnt.toNat + 1 ∧
      OnBurst wb
        { s.ctl.wm with internalDonePulse := false, wmWordCnt := s.ctl.wm.wmWordCnt + 1 }
        (s.memNext c) := by
  have h9 := wb.isLt
  have hcnt : (s.ctl.wm.wmWordCnt + 1).toNat = s.ctl.wm.wmWordCnt.toNat + 1 :=
    BitVec.toNat_add_of_lt (y := 1#9)
      (by change s.ctl.wm.wmWordCnt.toNat + 1 < 2 ^ 9; omega)
  refine ⟨hcnt, h.state, h.write, h.count, h.addr, ?_, ?_, ?_⟩
  · change (s.ctl.wm.wmWordCnt + 1).toNat < wb.toNat
    omega
  · change (s.memNext c).beatsLeft = if (s.ctl.wm.wmWordCnt + 1).toNat = 0 then 0 else
      wb.toNat - (s.ctl.wm.wmWordCnt + 1).toNat
    simp only [BurstBus.memNext, hbeat, if_true, h.left, h.count, hcnt]
    by_cases hzero : s.ctl.wm.wmWordCnt.toNat = 0
    · simp [hzero]
    · rw [if_neg hzero, if_neg (by omega), if_neg (by omega)]
      omega
  · intro _
    change (s.memNext c).nextAddr = _ + 4 * BitVec.ofNat 32 (s.ctl.wm.wmWordCnt + 1).toNat
    simp only [BurstBus.memNext, hbeat, if_true, h.beatAddr, hcnt]
    rw [← addr_add]
    rfl

/-- What a cycle can do to a burst. -/
theorem step_cases (h : OnBurst wb s.ctl.wm s.mem) (c : BurstCycle)
    (rdUsed wrUsed : BitVec 32) :
    let wm := s.ctl.wm
    let wm' := (s.step P c rdUsed wrUsed).ctl.wm
    (s.takesBeat c = true ∧ wm.wmWordCnt.toNat + 1 = wb.toNat ∧ (s.memNext c).beatsLeft = 0 ∧
      wm' = { wm with
        internalDonePulse := false
        wmWrite := false
        currentDstAddr := wm.currentDstAddr + 4 * BitVec.ofNat 32 wb.toNat
        remainingLen := wm.remainingLen - 4 * BitVec.ofNat 32 wb.toNat
        wmFsm := .wWaitData }) ∨
    (s.takesBeat c = true ∧ wm'.wmWordCnt.toNat = wm.wmWordCnt.toNat + 1 ∧
      wm' = { wm with internalDonePulse := false, wmWordCnt := wm.wmWordCnt + 1 } ∧
      OnBurst wb wm' (s.memNext c)) ∨
    (s.takesBeat c = false ∧ wm' = { wm with internalDonePulse := false } ∧
      OnBurst wb wm' (s.memNext c)) := by
  intro wm wm'
  have hlt := h.lt
  have hwm : wm' = s.ctl.wm.step (s.ctl.wmInputs (s.inputs c rdUsed wrUsed)) := rfl
  have hburst : s.ctl.wm.wmBurstcount.toNat = wb.toNat := by rw [h.count]
  rcases WriteMaster.step_wBurst (i := s.ctl.wmInputs (s.inputs c rdUsed wrUsed)) h.state with
    ⟨hwait, hl, he⟩ | ⟨hwait, hl, he⟩ | ⟨hwait, he⟩ <;> rw [he] at hwm
  · have hwait' : c.wmWaitrequest = false := hwait
    have hbeat : s.takesBeat c = true := by simp [BurstBus.takesBeat, h.write, hwait']
    rw [WriteMaster.lastBeat_iff hburst hlt] at hl
    have hbytes : s.ctl.wm.wmBurstcount.setWidth 32 * 4 =
        4 * BitVec.ofNat 32 wb.toNat := by
      rw [← BitVec.ofNat_toNat, hburst, BitVec.mul_comm]
    refine Or.inl ⟨hbeat, hl, ?_, ?_⟩
    · simp only [BurstBus.memNext, hbeat, if_true, h.left, hburst]
      split <;> split <;> omega
    · rw [hwm, hbytes]
  · have hwait' : c.wmWaitrequest = false := hwait
    have hbeat : s.takesBeat c = true := by simp [BurstBus.takesBeat, h.write, hwait']
    have hmore : s.ctl.wm.wmWordCnt.toNat + 1 < wb.toNat := by
      have hne : ¬ s.ctl.wm.wmWordCnt.toNat + 1 = wb.toNat := by
        rw [← WriteMaster.lastBeat_iff hburst hlt, hl]
        decide
      omega
    obtain ⟨hcnt, hon⟩ := h.next_word hbeat hmore
    rw [hwm]
    exact Or.inr (Or.inl ⟨hbeat, hcnt, rfl, hon⟩)
  · have hwait' : c.wmWaitrequest = true := hwait
    have hbeat : s.takesBeat c = false := by simp [BurstBus.takesBeat, hwait']
    rw [hwm]
    refine Or.inr (Or.inr ⟨hbeat, rfl, h.state, h.write, h.count, h.addr, h.lt, ?_, ?_⟩)
    · simpa [BurstBus.memNext, hbeat] using h.left
    · simpa [BurstBus.memNext, hbeat] using h.next

end OnBurst

namespace WriteProgress

/-- The burst of a transfer, as it is on the bus. -/
theorem onBurst (h : WriteProgress T s.ctl.wm s.mem p m) (hs : s.ctl.wm.wmFsm = .wBurst) :
    OnBurst T.wb s.ctl.wm s.mem ∧ m = p + s.ctl.wm.wmWordCnt.toNat ∧
      p + T.wb.toNat ≤ T.words := by
  cases h.phase with
  | wait hs' _ _ _ _ => simp [hs'] at hs
  | complete hs' _ _ _ _ => simp [hs'] at hs
  | burst _ hw _ hcount haddr hbeats hlt hroom hleft hnext =>
      refine ⟨⟨hs, hw, hcount, haddr, hlt, hleft, ?_⟩, hbeats, hroom⟩
      intro hpos
      rw [h.addr, addr_add, ← hbeats]
      exact hnext hpos

/-- `fifo_rd_en` takes a word from the FIFO exactly when the slave takes a beat. -/
theorem fifoRdEn (h : WriteProgress T s.ctl.wm s.mem p m) (c : BurstCycle) :
    s.ctl.wm.fifoRdEn c.wmWaitrequest = s.takesBeat c := by
  cases h.phase with
  | wait hs hw _ _ _ => simp [WriteMaster.fifoRdEn, BurstBus.takesBeat, hs, hw]
  | complete hs hw _ _ _ => simp [WriteMaster.fifoRdEn, BurstBus.takesBeat, hs, hw]
  | burst hs _ _ _ _ _ _ _ _ _ => exact (h.onBurst hs).1.fifoRdEn c

/-- The beat on the bus carries the next address of the transfer. -/
theorem beatAddr (h : WriteProgress T s.ctl.wm s.mem p m) {c : BurstCycle}
    (hbeat : s.takesBeat c = true) :
    s.beatAddr = T.dst + 4 * BitVec.ofNat 32 m ∧ m < T.words := by
  cases h.phase with
  | wait _ hw _ _ _ => simp [BurstBus.takesBeat, hw] at hbeat
  | complete _ hw _ _ _ => simp [BurstBus.takesBeat, hw] at hbeat
  | burst hs _ _ _ _ hbeats hlt hroom _ _ =>
      refine ⟨?_, by omega⟩
      rw [(h.onBurst hs).1.beatAddr, h.addr, addr_add, ← hbeats]

/-- The completion pulse ends the transfer. -/
theorem complete (h : WriteProgress T s.ctl.wm s.mem p m)
    (hd : s.ctl.wm.internalDonePulse = true) :
    s.ctl.wm.wmFsm = .wIdle ∧ s.ctl.wm.wmWrite = false ∧ m = T.words ∧
      s.mem.beatsLeft = 0 := by
  cases h.phase with
  | wait _ _ hd' _ _ => exact absurd (hd.symm.trans hd') (by decide)
  | burst _ _ hd' _ _ _ _ _ _ _ => exact absurd (hd.symm.trans hd') (by decide)
  | complete hs hw _ hbeats hleft => exact ⟨hs, hw, hbeats, hleft⟩

/-- A burst of the transfer on the bus, after `p` beats in complete bursts. -/
theorem of_onBurst {wm : WriteMaster} {mem : MemoryBus} (hon : OnBurst T.wb wm mem)
    (haddr : wm.currentDstAddr = T.dst + 4 * BitVec.ofNat 32 p)
    (hrem : wm.remainingLen = BitVec.ofNat 32 (4 * (T.words - p)))
    (hdone : wm.internalDonePulse = false) (hdvd : T.wb.toNat ∣ p)
    (hbeats : m = p + wm.wmWordCnt.toNat) (hroom : p + T.wb.toNat ≤ T.words) :
    WriteProgress T wm mem p m := by
  refine ⟨haddr, hrem, by omega, hdvd, .burst hon.state hon.write hdone hon.count hon.addr hbeats
    hon.lt hroom hon.left ?_⟩
  intro hpos
  rw [hon.next hpos, haddr, hbeats, addr_add]

/-- A cycle in which the write master waits for words: the transfer is complete, a
burst begins, or the master goes on waiting. -/
theorem step_wait (h : WriteProgress T s.ctl.wm s.mem p m) (hconf : T.Configured s.ctl.csr)
    (hs : s.ctl.wm.wmFsm = .wWaitData) (hw : s.ctl.wm.wmWrite = false) (hbeats : m = p)
    (hleft : s.mem.beatsLeft = 0) (c : BurstCycle) (rdUsed wrUsed : BitVec 32) :
    WriteProgress T (s.step P c rdUsed wrUsed).ctl.wm (s.step P c rdUsed wrUsed).mem
      p (m + (s.takesBeat c).toNat) := by
  have hwords := T.words_lt
  have hle := h.p_le
  have hwm : (s.step P c rdUsed wrUsed).ctl.wm =
      s.ctl.wm.step (s.ctl.wmInputs (s.inputs c rdUsed wrUsed)) := rfl
  have hwb : (s.ctl.wmInputs (s.inputs c rdUsed wrUsed)).csr.ctrlWrBurst = T.wb := hconf.wb
  have hbeat : s.takesBeat c = false := by simp [BurstBus.takesBeat, hw]
  have hleft' : (s.step P c rdUsed wrUsed).mem.beatsLeft = 0 := by
    change (s.memNext c).beatsLeft = 0
    simp [BurstBus.memNext, hbeat, hleft]
  rw [hbeat, Bool.toNat_false, Nat.add_zero]
  rcases WriteMaster.step_wWaitData (i := s.ctl.wmInputs (s.inputs c rdUsed wrUsed)) hs with
    ⟨hrem, he⟩ | ⟨hrem, _, he⟩ | ⟨_, _, he⟩ <;> rw [he] at hwm
  · have hall : p = T.words := by
      rw [h.remaining] at hrem
      have hzero := congrArg BitVec.toNat hrem
      rw [Counter.toNat_ofNat_of_lt (by omega)] at hzero
      have hzero' : 4 * (T.words - p) = 0 := hzero
      omega
    refine ⟨?_, ?_, hle, h.p_dvd, .complete ?_ ?_ ?_ (by omega) hleft'⟩ <;> rw [hwm]
    · exact h.addr
    · exact h.remaining
  · have hlt : p < T.words := by
      rcases Nat.lt_or_eq_of_le hle with hlt | heq
      · exact hlt
      · rw [h.remaining, heq, Nat.sub_self] at hrem
        exact absurd rfl hrem
    have hroom := T.next_le T.wb_dvd h.p_dvd hlt
    refine ⟨?_, ?_, hle, h.p_dvd, .burst ?_ ?_ ?_ ?_ ?_ ?_ ?_ hroom ?_ ?_⟩ <;> rw [hwm]
    · exact h.addr
    · exact h.remaining
    · exact hwb
    · exact hbeats
    · exact T.wb_pos
    · exact hleft'
    · intro hpos
      have hpos' : 0 < (0 : BitVec 9).toNat := hpos
      exact absurd hpos' (by decide)
  · refine ⟨?_, ?_, hle, h.p_dvd, .wait ?_ ?_ ?_ hbeats hleft'⟩ <;> rw [hwm]
    · exact h.addr
    · exact h.remaining
    · exact hs

/-- A cycle with a burst on the bus. -/
theorem step_burst (h : WriteProgress T s.ctl.wm s.mem p m) (hs : s.ctl.wm.wmFsm = .wBurst)
    (c : BurstCycle) (rdUsed wrUsed : BitVec 32) :
    ∃ p', WriteProgress T (s.step P c rdUsed wrUsed).ctl.wm (s.step P c rdUsed wrUsed).mem
      p' (m + (s.takesBeat c).toNat) := by
  have hwords := T.words_lt
  have hmem : (s.step P c rdUsed wrUsed).mem = s.memNext c := rfl
  obtain ⟨hon, hbeats, hroom⟩ := h.onBurst hs
  rw [hmem]
  rcases hon.step_cases (P := P) c rdUsed wrUsed with
    ⟨hbeat, hl, hleft, he⟩ | ⟨hbeat, hcnt, he, hon'⟩ | ⟨hbeat, he, hon'⟩
  · rw [hbeat, Bool.toNat_true, he]
    refine ⟨p + T.wb.toNat, ?_, ?_, hroom, (Nat.dvd_add_right h.p_dvd).2 (Nat.dvd_refl _),
      .wait rfl rfl rfl (by omega) hleft⟩
    · change s.ctl.wm.currentDstAddr + _ = _
      rw [h.addr, ← addr_add]
    · change s.ctl.wm.remainingLen - _ = _
      have hbytes : 4 * BitVec.ofNat 32 T.wb.toNat = BitVec.ofNat 32 (4 * T.wb.toNat) :=
        (BitVec.ofNat_mul _ _).symm
      rw [h.remaining, hbytes, Counter.ofNat_sub_ofNat (by omega)]
      congr 1
      omega
  · rw [hbeat, Bool.toNat_true]
    exact ⟨p, of_onBurst hon' (by rw [he]; exact h.addr) (by rw [he]; exact h.remaining)
      (by rw [he]) h.p_dvd (by omega) hroom⟩
  · rw [hbeat, Bool.toNat_false, Nat.add_zero]
    exact ⟨p, of_onBurst hon' (by rw [he]; exact h.addr) (by rw [he]; exact h.remaining)
      (by rw [he]) h.p_dvd (by rw [he]; exact hbeats) hroom⟩

/-- One cycle of the write master in a transfer. -/
theorem step (h : WriteProgress T s.ctl.wm s.mem p m) (hconf : T.Configured s.ctl.csr)
    (hd : s.ctl.wm.internalDonePulse = false) (c : BurstCycle)
    (rdUsed wrUsed : BitVec 32) :
    ∃ p', WriteProgress T (s.step P c rdUsed wrUsed).ctl.wm (s.step P c rdUsed wrUsed).mem
      p' (m + (s.takesBeat c).toNat) := by
  cases h.phase with
  | complete _ _ hd' _ _ => exact absurd (hd'.symm.trans hd) (by decide)
  | wait hs hw _ hbeats hleft =>
      exact ⟨p, h.step_wait hconf hs hw hbeats hleft c rdUsed wrUsed⟩
  | burst hs _ _ _ _ _ _ _ _ _ => exact h.step_burst hs c rdUsed wrUsed

end WriteProgress
end Writer
end VideoProcessing
