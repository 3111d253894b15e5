import VideoProcessing.Burst.BurstMaster
import VideoProcessing.Burst.BurstMaster4
import VideoProcessing.Burst.Bus

/-!
# Write bursts under any software behaviour

`WriteSide` is the write master of either engine with the FIFO that feeds it.
Everything else is input: the control registers may hold anything in any cycle,
the slave may stall as it likes, and words arrive at any time.

The invariant `Sound` is that a burst with a latched count other than 0 still has
its missing words in the FIFO.  It is established by the level test one cycle
before the burst and kept because nothing else reads the FIFO.
-/

namespace VideoProcessing

open Lib

/-- The write master and its FIFO. -/
structure WriteSide (d : Nat) where
  wm : WriteMaster
  fifo : SimpleFifo 32 d

/-- One cycle on the write port. -/
structure WriteCycle (d : Nat) where
  wm : WriteMaster
  fifo : SimpleFifo 32 d
  wmWaitrequest : Bool

namespace WriteCycle

variable {d : Nat}

/-- A beat is accepted. -/
def accepted (x : WriteCycle d) : Bool := x.wm.wmWrite && !x.wmWaitrequest

/-- `wm_writedata`. -/
def wmWritedata (x : WriteCycle d) : BitVec 32 := x.fifo.rdData

/-- `fifo_rd_en`. -/
def fifoRdEn (x : WriteCycle d) : Bool := x.wm.fifoRdEn x.wmWaitrequest

/-- A word is popped from the FIFO. -/
def pops (x : WriteCycle d) : Bool := x.fifoRdEn && !x.fifo.empty

end WriteCycle

/-- The write bursts in the cycles `l` of a run are atomic, stable and never
underrun. -/
structure AtomicBursts {d : Nat} (l : List (WriteCycle d)) : Prop where
  /-- From the cycle after one with `wm_write` low, `wm_write` stays high with the
  same address and count until as many beats as the count are accepted, and falls
  then. -/
  atomic : ∀ l₁ a x b l₂, l = l₁ ++ a :: x :: b ++ l₂ → a.wm.wmWrite = false →
    (∀ y ∈ x :: b, y.wm.wmWrite = true) → x.wm.wmBurstcount ≠ 0 →
    (∀ y ∈ x :: b, y.wm.wmAddress = x.wm.wmAddress ∧
      y.wm.wmBurstcount = x.wm.wmBurstcount) ∧
    (x :: b).countP WriteCycle.accepted ≤ x.wm.wmBurstcount.toNat ∧
    ∀ z l₃, l₂ = z :: l₃ → (z.wm.wmWrite = false ↔
      (x :: b).countP WriteCycle.accepted = x.wm.wmBurstcount.toNat)
  /-- A stalled beat keeps its word. -/
  stall : ∀ l₁ x y l₂, l = l₁ ++ x :: y :: l₂ → x.wm.wmWrite = true →
    x.wm.wmBurstcount ≠ 0 → x.wmWaitrequest = true → y.wmWritedata = x.wmWritedata
  /-- An accepted beat carries the oldest word of the FIFO and pops it. -/
  beat : ∀ x ∈ l, x.accepted = true → x.wm.wmBurstcount ≠ 0 →
    ∃ w ws, x.fifo.Holds (w :: ws) ∧ x.wmWritedata = w ∧ x.pops = true
  /-- No other cycle pops a word. -/
  quiet : ∀ x ∈ l, x.wm.wmWrite = false → x.pops = false
  /-- A burst with the latched count 0 pops nothing either. -/
  zero : ∀ x ∈ l, x.wm.wmBurstcount = 0 → x.pops = false

namespace WriteSide

variable {d : Nat}

/-- What the write side samples at one `clk` edge. -/
structure Inputs where
  csr : BurstCsr
  wmWaitrequest : Bool
  wrEn : Bool
  wrData : BitVec 32

/-- What the write master samples. -/
def wmInputs (s : WriteSide d) (i : Inputs) : WriteMaster.Inputs where
  csr := i.csr
  fifoUsed := s.fifo.usedW.setWidth 32
  wmWaitrequest := i.wmWaitrequest

/-- One `clk` edge. -/
def step (s : WriteSide d) (i : Inputs) : WriteSide d where
  wm := s.wm.step (s.wmInputs i)
  fifo := s.fifo.step i.wrEn i.wrData (s.wm.fifoRdEn i.wmWaitrequest)

/-- The cycle on the write port. -/
def cycle (e : WriteSide d × Inputs) : WriteCycle d :=
  ⟨e.1.wm, e.1.fifo, e.2.wmWaitrequest⟩

/-- In a burst with a count other than 0 the words that are still missing are in
the FIFO. -/
structure Sound (s : WriteSide d) (l : List (BitVec 32)) : Prop where
  write : s.wm.wmWrite = true ↔ s.wm.wmFsm = .wBurst
  holds : s.fifo.Holds l
  supply : s.wm.wmFsm = .wBurst → s.wm.wmBurstcount ≠ 0 →
    s.wm.wmWordCnt.toNat < s.wm.wmBurstcount.toNat ∧
      s.wm.wmBurstcount.toNat ≤ s.wm.wmWordCnt.toNat + l.length

variable {s : WriteSide d} {l : List (BitVec 32)}

/-- Outside bursts the FIFO is not read. -/
theorem fifoRdEn_of_ne (h : s.wm.wmFsm ≠ .wBurst) (wait : Bool) :
    s.wm.fifoRdEn wait = false := by
  rw [WriteMaster.fifoRdEn, beq_eq_false_iff_ne.2 h, Bool.false_and, Bool.false_and]

/-- In a burst the FIFO is read exactly when a beat is accepted. -/
theorem Sound.fifoRdEn (h : Sound s l) (hs : s.wm.wmFsm = .wBurst)
    (hn : s.wm.wmBurstcount ≠ 0) (wait : Bool) : s.wm.fifoRdEn wait = !wait := by
  have hlt : decide (s.wm.wmWordCnt < s.wm.wmBurstcount) = true :=
    decide_eq_true (h.supply hs hn).1
  rw [WriteMaster.fifoRdEn, hs, hlt, Bool.and_true, beq_self_eq_true, Bool.true_and]

/-- The level test of `W_WAIT_DATA` on the stored words. -/
theorem Sound.level (h : Sound s l) (hd : d < 2 ^ 31) {n : BitVec 9}
    (hle : n.setWidth 32 ≤ s.fifo.usedW.setWidth 32) : n.toNat ≤ l.length := by
  have hlen := h.holds.length_le
  have h9 := n.isLt
  rw [h.holds.usedW_setWidth, BitVec.le_def, BitVec.toNat_setWidth, BitVec.toNat_ofNat,
    Nat.mod_eq_of_lt (by omega), Nat.mod_eq_of_lt (by omega)] at hle
  exact hle

/-- What a cycle does to a burst with a count other than 0: it goes on, with one beat
more if the slave takes one, or it ends with its last beat. -/
theorem Sound.step_burst (h : Sound s l) (hs : s.wm.wmFsm = .wBurst)
    (hn : s.wm.wmBurstcount ≠ 0) (i : Inputs) :
    ((s.step i).wm.wmFsm = .wBurst ∧ (s.step i).wm.wmWrite = true ∧
      (s.step i).wm.wmAddress = s.wm.wmAddress ∧
      (s.step i).wm.wmBurstcount = s.wm.wmBurstcount ∧
      (s.step i).wm.wmWordCnt.toNat = s.wm.wmWordCnt.toNat + (!i.wmWaitrequest).toNat ∧
      (s.step i).wm.wmWordCnt.toNat < s.wm.wmBurstcount.toNat) ∨
    (i.wmWaitrequest = false ∧ s.wm.wmWordCnt.toNat + 1 = s.wm.wmBurstcount.toNat ∧
      (s.step i).wm.wmWrite = false ∧ (s.step i).wm.wmFsm = .wWaitData) := by
  have h9 := s.wm.wmBurstcount.isLt
  have hwrite := h.write.2 hs
  obtain ⟨hlt, _⟩ := h.supply hs hn
  have hlast : s.wm.lastBeat = true ↔ s.wm.wmWordCnt.toNat + 1 = s.wm.wmBurstcount.toNat :=
    WriteMaster.lastBeat_iff rfl hlt
  rcases WriteMaster.step_wBurst (i := s.wmInputs i) hs with
    ⟨hw, hl, he⟩ | ⟨hw, hl, he⟩ | ⟨hw, he⟩
  · right
    refine ⟨hw, hlast.1 hl, ?_, ?_⟩ <;> rw [step, he]
  · left
    change i.wmWaitrequest = false at hw
    have hmore : s.wm.wmWordCnt.toNat + 1 ≠ s.wm.wmBurstcount.toNat := by
      rw [ne_eq, ← hlast, hl]
      decide
    have hcnt : (s.wm.wmWordCnt + 1).toNat = s.wm.wmWordCnt.toNat + 1 :=
      BitVec.toNat_add_of_lt (y := 1#9)
        (by change s.wm.wmWordCnt.toNat + 1 < 2 ^ 9; omega)
    have hbound : (s.wm.wmWordCnt + 1).toNat < s.wm.wmBurstcount.toNat := by omega
    rw [step, he, hw]
    exact ⟨hs, hwrite, rfl, rfl, hcnt, hbound⟩
  · left
    change i.wmWaitrequest = true at hw
    rw [step, he, hw]
    exact ⟨hs, hwrite, rfl, rfl, rfl, hlt⟩

/-- `wm_write` follows the state. -/
theorem Sound.write_next (h : Sound s l) (i : Inputs) :
    (s.step i).wm.wmWrite = true ↔ (s.step i).wm.wmFsm = .wBurst := by
  cases hs : s.wm.wmFsm with
  | wIdle =>
      rcases WriteMaster.step_wIdle (i := s.wmInputs i) hs with ⟨_, he⟩ | ⟨_, he⟩ <;>
        simp [WriteSide.step, he, hs]
  | wWaitData =>
      rcases WriteMaster.step_wWaitData (i := s.wmInputs i) hs with
        ⟨_, he⟩ | ⟨_, _, he⟩ | ⟨_, _, he⟩ <;> simp [WriteSide.step, he, hs]
  | wBurst =>
      rcases WriteMaster.step_wBurst (i := s.wmInputs i) hs with
        ⟨_, _, he⟩ | ⟨_, _, he⟩ | ⟨_, he⟩ <;> simp [WriteSide.step, he, hs, h.write]

/-- When a burst begins, the words that were counted are in the FIFO. -/
theorem Sound.begins (h : Sound s l) (hd : d < 2 ^ 31) (hs : s.wm.wmFsm ≠ .wBurst)
    {i : Inputs} (hs' : (s.step i).wm.wmFsm = .wBurst) :
    (s.step i).wm.wmWordCnt = 0 ∧ (s.step i).wm.wmBurstcount.toNat ≤ l.length := by
  cases hfsm : s.wm.wmFsm with
  | wIdle =>
      rcases WriteMaster.step_wIdle (i := s.wmInputs i) hfsm with ⟨_, he⟩ | ⟨_, he⟩ <;>
        simp [WriteSide.step, he, hfsm] at hs'
  | wWaitData =>
      rcases WriteMaster.step_wWaitData (i := s.wmInputs i) hfsm with
        ⟨_, he⟩ | ⟨_, hlevel, he⟩ | ⟨_, _, he⟩
      · simp [WriteSide.step, he] at hs'
      · have hle : i.csr.ctrlWrBurst.toNat ≤ l.length := h.level hd hlevel
        rw [step, he]
        exact ⟨rfl, hle⟩
      · simp [WriteSide.step, he, hfsm] at hs'
  | wBurst => exact absurd hfsm hs

theorem Sound.next (h : Sound s l) (hd : d < 2 ^ 31) (i : Inputs) :
    ∃ l', Sound (s.step i) l' := by
  have hholds := h.holds.step i.wrEn i.wrData (s.wm.fifoRdEn i.wmWaitrequest)
  have hlen := Ring.length_next d l (if i.wrEn then some i.wrData else none)
    (s.wm.fifoRdEn i.wmWaitrequest)
  refine ⟨_, h.write_next i, hholds, ?_⟩
  intro hs' hn'
  by_cases hs : s.wm.wmFsm = .wBurst
  · have hcount : (s.step i).wm.wmBurstcount = s.wm.wmBurstcount := by
      rcases WriteMaster.step_wBurst (i := s.wmInputs i) hs with
        ⟨_, _, he⟩ | ⟨_, _, he⟩ | ⟨_, he⟩ <;> rw [WriteSide.step, he]
    rw [hcount] at hn' ⊢
    obtain ⟨hlt, hsup⟩ := h.supply hs hn'
    have hrd := h.fifoRdEn hs hn' i.wmWaitrequest
    rcases h.step_burst hs hn' i with ⟨_, _, _, _, hcnt, hbound⟩ | ⟨_, _, _, hend⟩
    · rw [hlen, hrd]
      exact ⟨hbound, by omega⟩
    · rw [hend] at hs'
      exact absurd hs' (by decide)
  · obtain ⟨hzero, hle⟩ := h.begins hd hs hs'
    have hpos : 0 < (s.step i).wm.wmBurstcount.toNat :=
      Nat.pos_of_ne_zero fun h0 => hn' (BitVec.eq_of_toNat_eq h0)
    rw [hlen, fifoRdEn_of_ne hs, hzero, Bool.toNat_false]
    refine ⟨hpos, ?_⟩
    change _ ≤ 0 + _
    omega

/-- A stalled beat keeps its word: nothing is read and the write goes behind the
stored words. -/
theorem Sound.writedata_step (h : Sound s l) (hw : s.wm.wmWrite = true)
    (hn : s.wm.wmBurstcount ≠ 0) {i : Inputs} (hwait : i.wmWaitrequest = true) :
    (s.step i).fifo.rdData = s.fifo.rdData := by
  have hs := h.write.1 hw
  obtain ⟨hlt, hsup⟩ := h.supply hs hn
  have hl : l ≠ [] := by
    intro hnil
    rw [hnil, List.length_nil] at hsup
    omega
  have hholds := h.holds.step i.wrEn i.wrData (s.wm.fifoRdEn i.wmWaitrequest)
  rw [h.fifoRdEn hs hn, hwait, Bool.not_true, Ring.next, if_neg (by decide),
    h.holds.rdData hl, List.cons_append] at hholds
  have hhead := hholds.rdData (List.cons_ne_nil _ _)
  have hrd : s.wm.fifoRdEn i.wmWaitrequest = false := by
    rw [h.fifoRdEn hs hn, hwait]
    rfl
  rw [step, hrd]
  exact (List.cons.inj hhead).1.symm

/-- A stretch of cycles with `wm_write` high, from a cycle of a burst on: it ends at the
last beat. -/
theorem Sound.stretch (h : Sound s l) (hd : d < 2 ^ 31) (hn : s.wm.wmBurstcount ≠ 0)
    (is : List Inputs)
    (hw : s.wm.wmWrite = true) (hwrite : ∀ e ∈ log step s is, e.1.wm.wmWrite = true) :
    (∀ e ∈ log step s is, e.1.wm.wmAddress = s.wm.wmAddress ∧
      e.1.wm.wmBurstcount = s.wm.wmBurstcount) ∧
    s.wm.wmWordCnt.toNat + ((log step s is).map cycle).countP WriteCycle.accepted ≤
      s.wm.wmBurstcount.toNat ∧
    ((run step s is).wm.wmWrite = false ↔
      s.wm.wmWordCnt.toNat + ((log step s is).map cycle).countP WriteCycle.accepted =
        s.wm.wmBurstcount.toNat) := by
  induction is generalizing s l with
  | nil =>
      have hlt := (h.supply (h.write.1 hw) hn).1
      refine ⟨fun e he => absurd he (by simp), ?_, ?_⟩
      · simp only [log_nil, List.map_nil, List.countP_nil]
        omega
      · simp only [run_nil, log_nil, List.map_nil, List.countP_nil, hw]
        constructor
        · intro hf
          exact absurd hf (by decide)
        · intro heq
          omega
  | cons i is ih =>
      rw [log_cons] at hwrite
      have hrest : ∀ e ∈ log step (s.step i) is, e.1.wm.wmWrite = true :=
        fun e he => hwrite e (List.mem_cons_of_mem _ he)
      have hburst := h.write.1 hw
      obtain ⟨l', h'⟩ := h.next hd i
      have hacc : (cycle (s, i)).accepted = !i.wmWaitrequest := by
        rw [WriteCycle.accepted]
        change (s.wm.wmWrite && _) = _
        rw [hw, Bool.true_and]
        rfl
      rcases h.step_burst hburst hn i with
        ⟨_, hw', haddr, hcount, hcnt, _⟩ | ⟨hwait, hlast, hlow, _⟩
      · obtain ⟨hsame, hle, hfall⟩ := ih h' (by rw [hcount]; exact hn) hw' hrest
        rw [haddr, hcount] at hsame
        rw [hcount, hcnt] at hle hfall
        have hbeat : ∀ k, k + (if (!i.wmWaitrequest) = true then 1 else 0) =
            (!i.wmWaitrequest).toNat + k := by
          intro k
          cases i.wmWaitrequest <;> simp [Nat.add_comm]
        simp only [log_cons, run_cons, List.map_cons, List.countP_cons, hacc, hbeat,
          ← Nat.add_assoc]
        refine ⟨fun e hmem => ?_, hle, hfall⟩
        rcases List.mem_cons.1 hmem with rfl | hmem
        · exact ⟨rfl, rfl⟩
        · exact hsame e hmem
      · have hnil : is = [] := by
          cases is with
          | nil => rfl
          | cons j is =>
              have hhigh := hrest (s.step i, j) List.mem_cons_self
              rw [hlow] at hhigh
              exact absurd hhigh (by decide)
        subst hnil
        simp only [log_cons, log_nil, run_cons, run_nil, List.map_cons, List.map_nil,
          List.countP_cons, List.countP_nil, hacc, hwait, Bool.not_false, if_true, hlow]
        refine ⟨fun e hmem => ?_, by omega, by simp; omega⟩
        rw [List.mem_singleton] at hmem
        rw [hmem]
        exact ⟨rfl, rfl⟩

/-- The first cycle of a burst has taken no beat yet. -/
theorem Sound.first_beat (h : Sound s l) (hd : d < 2 ^ 31) (hlow : s.wm.wmWrite = false)
    {i : Inputs} (hhigh : (s.step i).wm.wmWrite = true) : (s.step i).wm.wmWordCnt = 0 := by
  have hs : s.wm.wmFsm ≠ .wBurst := by
    rw [ne_eq, ← h.write, hlow]
    decide
  exact (h.begins hd hs ((h.write_next i).1 hhigh)).1

/-- A stretch of cycles from the one behind a cycle with `wm_write` low. -/
theorem Sound.whole_burst (h : Sound s l) (hd : d < 2 ^ 31) {is : List Inputs}
    {a x : WriteCycle d} {b l₂ : List (WriteCycle d)}
    (hl : (log WriteSide.step s is).map cycle = a :: x :: b ++ l₂)
    (hlow : a.wm.wmWrite = false) (hhigh : ∀ y ∈ x :: b, y.wm.wmWrite = true)
    (hn : x.wm.wmBurstcount ≠ 0) :
    (∀ y ∈ x :: b, y.wm.wmAddress = x.wm.wmAddress ∧
      y.wm.wmBurstcount = x.wm.wmBurstcount) ∧
    (x :: b).countP WriteCycle.accepted ≤ x.wm.wmBurstcount.toNat ∧
    ∀ z l₃, l₂ = z :: l₃ → (z.wm.wmWrite = false ↔
      (x :: b).countP WriteCycle.accepted = x.wm.wmBurstcount.toNat) := by
  obtain ⟨i, is, rfl, rfl, htail⟩ := map_log_eq_cons WriteSide.step s hl
  rw [List.append_eq] at htail
  obtain ⟨js, ks, rfl, hb, hl₂⟩ := map_log_eq_append WriteSide.step _ htail
  obtain ⟨j, js, rfl, rfl, _⟩ := map_log_eq_cons WriteSide.step _ hb
  obtain ⟨l', h'⟩ := h.next hd i
  have hfirst : (s.step i).wm.wmWrite = true := hhigh _ List.mem_cons_self
  have hzero : (s.step i).wm.wmWordCnt.toNat = 0 := by
    rw [h.first_beat hd hlow hfirst]
    rfl
  have hwrite : ∀ e ∈ log WriteSide.step (s.step i) (j :: js), e.1.wm.wmWrite = true := by
    intro e he
    exact hhigh (cycle e) (by rw [← hb]; exact List.mem_map_of_mem he)
  obtain ⟨hsame, hle, hfall⟩ := h'.stretch hd hn (j :: js) hfirst hwrite
  rw [hzero, Nat.zero_add, hb] at hle hfall
  refine ⟨fun y hy => ?_, hle, fun z l₃ hz => ?_⟩
  · rw [← hb] at hy
    obtain ⟨e, he, rfl⟩ := List.mem_map.1 hy
    exact hsame e he
  · rw [hz] at hl₂
    obtain ⟨k, ks, rfl, rfl, _⟩ := map_log_eq_cons WriteSide.step _ hl₂
    exact hfall

/-- An accepted beat meets a word. -/
theorem Sound.beat (h : Sound s l) {i : Inputs} (hacc : (cycle (s, i)).accepted = true)
    (hn : s.wm.wmBurstcount ≠ 0) :
    s.fifo.Holds (s.fifo.rdData :: l.tail) ∧ (cycle (s, i)).pops = true := by
  rw [WriteCycle.accepted, Bool.and_eq_true] at hacc
  have hs := h.write.1 hacc.1
  obtain ⟨hlt, hsup⟩ := h.supply hs hn
  have hl : l ≠ [] := by
    intro hnil
    rw [hnil, List.length_nil] at hsup
    omega
  have hne : s.fifo.empty = false := by
    rw [← Bool.not_eq_true, h.holds.empty_iff, List.length_eq_zero_iff]
    exact hl
  refine ⟨by rw [← h.holds.rdData hl]; exact h.holds, ?_⟩
  change (s.wm.fifoRdEn i.wmWaitrequest && !s.fifo.empty) = true
  rw [h.fifoRdEn hs hn, hne, Bool.not_false, Bool.and_true]
  exact hacc.2

/-- Outside bursts nothing is popped. -/
theorem Sound.quiet (h : Sound s l) {i : Inputs} (hlow : s.wm.wmWrite = false) :
    (cycle (s, i)).pops = false := by
  have hs : s.wm.wmFsm ≠ .wBurst := by
    rw [ne_eq, ← h.write, hlow]
    decide
  change (s.wm.fifoRdEn i.wmWaitrequest && !s.fifo.empty) = false
  rw [fifoRdEn_of_ne hs, Bool.false_and]

/-- A burst with the count 0 pops nothing. -/
theorem pops_zero {i : Inputs} (hn : s.wm.wmBurstcount = 0) :
    (cycle (s, i)).pops = false := by
  have hlt : decide (s.wm.wmWordCnt < s.wm.wmBurstcount) = false := by
    rw [hn]
    exact decide_eq_false (by simp)
  change (s.wm.fifoRdEn i.wmWaitrequest && !s.fifo.empty) = false
  rw [WriteMaster.fifoRdEn, hlt, Bool.and_false, Bool.false_and]

/-- The cycles of a run from a sound state. -/
theorem Sound.atomicBursts (h : Sound s l) (hd : d < 2 ^ 31) (is : List Inputs) :
    AtomicBursts ((log WriteSide.step s is).map cycle) := by
  have hreach : ∀ js, ∃ l', Sound (run WriteSide.step s js) l' := fun js =>
    run_invariant (P := fun t => ∃ l', Sound t l') ⟨l, h⟩
      (fun _ i ht => ht.elim fun _ ht => ht.next hd i) js
  have hmem : ∀ x ∈ (log WriteSide.step s is).map cycle,
      ∃ t i l', x = cycle (t, i) ∧ Sound t l' := by
    intro x hx
    obtain ⟨⟨t, i⟩, he, rfl⟩ := List.mem_map.1 hx
    obtain ⟨pre, post, _, ht⟩ := (mem_log_iff WriteSide.step s is _).1 he
    obtain ⟨l', hl'⟩ := hreach pre
    exact ⟨t, i, l', rfl, by rw [show t = run WriteSide.step s pre from ht]; exact hl'⟩
  refine ⟨?_, ?_, ?_, ?_, ?_⟩
  · intro l₁ a x b l₂ hl hlow hhigh hn
    obtain ⟨is, js, rfl, _, hcut⟩ := map_log_eq_append WriteSide.step s
      (hl.trans (List.append_assoc l₁ (a :: x :: b) l₂))
    obtain ⟨l', hl'⟩ := hreach is
    exact hl'.whole_burst hd hcut hlow hhigh hn
  · intro l₁ x y l₂ hl hw hn hwait
    obtain ⟨is, js, rfl, _, hcut⟩ := map_log_eq_append WriteSide.step s hl
    obtain ⟨i, js, rfl, rfl, hcut'⟩ := map_log_eq_cons WriteSide.step _ hcut
    obtain ⟨j, js, rfl, rfl, _⟩ := map_log_eq_cons WriteSide.step _ hcut'
    obtain ⟨l', hl'⟩ := hreach is
    exact hl'.writedata_step hw hn hwait
  · intro x hx hacc hn
    obtain ⟨t, i, l', rfl, ht⟩ := hmem x hx
    obtain ⟨hholds, hpops⟩ := ht.beat hacc hn
    exact ⟨_, _, hholds, rfl, hpops⟩
  · intro x hx hlow
    obtain ⟨t, i, l', rfl, ht⟩ := hmem x hx
    exact ht.quiet hlow
  · intro x hx hn
    obtain ⟨t, i, l', rfl, ht⟩ := hmem x hx
    exact pops_zero hn

theorem sound_reset (P : BurstParams) (mem0 : BitVec (clog2 P.fifoDepth) → BitVec 32) :
    Sound ⟨WriteMaster.reset P, SimpleFifo.reset mem0⟩ [] where
  write := by
    change false = true ↔ WmFsm.wIdle = .wBurst
    decide
  holds := SimpleFifo.holds_reset (Nat.lt_of_lt_of_le (by decide) P.fifoDepth_ge) mem0
  supply := fun hs => by cases hs

end WriteSide

namespace BurstMaster

variable {P : BurstParams}

/-- The write side of `burst_master`. -/
def writeSide (s : BurstMaster P) : WriteSide P.fifoDepth := ⟨s.ctl.wm, s.fifo⟩

/-- The cycle on the write port. -/
def writeCycle (e : BurstMaster P × Inputs) : WriteCycle P.fifoDepth :=
  ⟨e.1.ctl.wm, e.1.fifo, e.2.wmWaitrequest⟩

/-- What the engine does to its write side. -/
def writeInputs (s : BurstMaster P) (i : Inputs) : WriteSide.Inputs where
  csr := s.ctl.csr
  wmWaitrequest := i.wmWaitrequest
  wrEn := i.rmReaddatavalid
  wrData := i.rmReaddata

theorem writeSide_step (s : BurstMaster P) (i : Inputs) :
    (s.step i).writeSide = s.writeSide.step (s.writeInputs i) := rfl

end BurstMaster

namespace BurstMaster4

variable {P : BurstParams4}

/-- The write side of `burst_master_4`, with the output FIFO. -/
def writeSide (s : BurstMaster4 P) : WriteSide P.fifoDepth := ⟨s.ctl.wm, s.fifoOut⟩

/-- The cycle on the write port. -/
def writeCycle (e : BurstMaster4 P × Inputs) : WriteCycle P.fifoDepth :=
  ⟨e.1.ctl.wm, e.1.fifoOut, e.2.wmWaitrequest⟩

/-- What the engine does to its write side: the pipeline fills the FIFO. -/
def writeInputs (s : BurstMaster4 P) (i : Inputs) : WriteSide.Inputs where
  csr := s.ctl.csr
  wmWaitrequest := i.wmWaitrequest
  wrEn := s.pipe.fifoOutWrEn P.pipeLatency s.fifoOut.full
  wrData := s.pipe.fifoOutWrData P.pipeLatency

theorem writeSide_step (s : BurstMaster4 P) (i : Inputs) :
    (s.step i).writeSide = s.writeSide.step (s.writeInputs i) := rfl

end BurstMaster4

/-- **Write bursts are atomic, stable and never underrun.**  In every run of
either engine from reset, with any CSR writes in any cycle, any stalls of the
slave and any words arriving. -/
theorem write_bursts_atomic :
    (∀ (P : BurstParams) (mem0 : BitVec (clog2 P.fifoDepth) → BitVec 32)
      (is : List BurstMaster.Inputs), AtomicBursts
        ((log BurstMaster.step (BurstMaster.reset (P := P) mem0) is).map
          BurstMaster.writeCycle)) ∧
    (∀ (P : BurstParams4) (memIn memOut : BitVec (clog2 P.fifoDepth) → BitVec 32)
      (is : List BurstMaster4.Inputs), AtomicBursts
        ((log BurstMaster4.step (BurstMaster4.reset (P := P) memIn memOut) is).map
          BurstMaster4.writeCycle)) := by
  refine ⟨fun P mem0 is => ?_, fun P memIn memOut is => ?_⟩
  · have h := (WriteSide.sound_reset P mem0).atomicBursts P.fifoDepth_lt
      ((log BurstMaster.step (BurstMaster.reset (P := P) mem0) is).map
        fun e => e.1.writeInputs e.2)
    have hlog :=
      log_project_map BurstMaster.writeSide_step (BurstMaster.reset (P := P) mem0) is
    change AtomicBursts ((log WriteSide.step (BurstMaster.reset mem0).writeSide _).map _) at h
    rw [hlog, List.map_map] at h
    exact h
  · have h := (WriteSide.sound_reset P.toBurstParams memOut).atomicBursts P.fifoDepth_lt
      ((log BurstMaster4.step (BurstMaster4.reset (P := P) memIn memOut) is).map
        fun e => e.1.writeInputs e.2)
    have hlog := log_project_map BurstMaster4.writeSide_step
      (BurstMaster4.reset (P := P) memIn memOut) is
    change AtomicBursts ((log WriteSide.step (BurstMaster4.reset memIn memOut).writeSide _).map _)
      at h
    rw [hlog, List.map_map] at h
    exact h

end VideoProcessing
