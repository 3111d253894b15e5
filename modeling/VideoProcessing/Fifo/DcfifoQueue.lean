import VideoProcessing.Fifo.SimpleDcfifo
import VideoProcessing.Lib.Counter

/-!
# `simple_dcfifo` is a lossless queue

The invariant `Synced` ties the six pointers of the FIFO to the true numbers of
accepted writes and reads: on each side the synchronised copy of the other
pointer is an older count, and the counts stay in one window of `2 ^ aw`:

`r2 ≤ r1 ≤ reads ≤ w2 ≤ w1 ≤ writes ≤ r2 + 2 ^ aw`.

Every event preserves it, whatever the two clocks do, so the words read are a
prefix of the words written.
-/

namespace VideoProcessing
namespace SimpleDcfifo

open Lib

variable {dw aw : Nat}

section Gray

theorem bin2gray_eq_encode {n : Nat} (b : BitVec n) : bin2gray b = Gray.encode b := rfl

theorem bin2gray_inj {n : Nat} (b c : BitVec n) : bin2gray b = bin2gray c ↔ b = c :=
  Gray.encode_inj b c

theorem getLsbD_ofBool_shiftLeft {n : Nat} (c : Bool) {i : Nat} (hi : i < n) (k : Nat) :
    ((BitVec.ofBool c).setWidth n <<< i).getLsbD k = (c && decide (k = i)) := by
  rw [BitVec.getLsbD_shiftLeft, BitVec.getLsbD_setWidth, BitVec.getLsbD_ofBool]
  by_cases hk : k = i
  · subst hk
    simp [hi, show 0 < n by omega]
  · by_cases hlt : k < i
    · simp [hk, hlt]
    · simp [hk, hlt, show k - i ≠ 0 by omega]

/-- The loop from `i` down leaves the bits from `i` up alone and makes every
lower bit the parity of the next one and the code bit. -/
theorem gray2binLoop_spec {n : Nat} (gray : BitVec n) :
    ∀ (i : Nat) (acc : BitVec n), i < n → (∀ k < i, acc.getLsbD k = false) →
      (∀ k, i ≤ k → (gray2binLoop gray i acc).getLsbD k = acc.getLsbD k) ∧
      (∀ k < i, (gray2binLoop gray i acc).getLsbD k =
        ((gray2binLoop gray i acc).getLsbD (k + 1) ^^ gray.getLsbD k))
  | 0, acc, _, _ => ⟨fun _ _ => rfl, fun _ hk => absurd hk (by omega)⟩
  | i + 1, acc, hi, hacc => by
      let c := acc.getLsbD (i + 1) ^^ gray.getLsbD i
      let acc' := acc ||| ((BitVec.ofBool c).setWidth n <<< i)
      have hbit : ∀ k, acc'.getLsbD k = (acc.getLsbD k || (c && decide (k = i))) := by
        intro k
        rw [BitVec.getLsbD_or, getLsbD_ofBool_shiftLeft c (by omega) k]
      have hlow : ∀ k < i, acc'.getLsbD k = false := by
        intro k hk
        rw [hbit k, hacc k (by omega)]
        simp [show k ≠ i by omega]
      obtain ⟨hup, hdown⟩ := gray2binLoop_spec gray i acc' (by omega) hlow
      have hloop : gray2binLoop gray (i + 1) acc = gray2binLoop gray i acc' := rfl
      have hkeep : ∀ k, i + 1 ≤ k →
          (gray2binLoop gray i acc').getLsbD k = acc.getLsbD k := by
        intro k hk
        rw [hup k (by omega), hbit k]
        simp [show k ≠ i by omega]
      rw [hloop]
      refine ⟨hkeep, fun k hk => ?_⟩
      by_cases hki : k = i
      · subst hki
        rw [hup k le_rfl, hbit k, hacc k (by omega), hkeep (k + 1) le_rfl]
        simp [c]
      · exact hdown k (by omega)

/-- The bits that `gray2bin` computes are the suffix parities of the code. -/
theorem getLsbD_gray2bin (gray : BitVec (aw + 1)) {i : Nat} (hi : i < aw + 1) :
    (gray2bin gray).getLsbD i = ((gray2bin gray).getLsbD (i + 1) ^^ gray.getLsbD i) := by
  let top := (BitVec.ofBool (gray.getLsbD aw)).setWidth (aw + 1) <<< aw
  have htop : ∀ k, top.getLsbD k = (gray.getLsbD aw && decide (k = aw)) :=
    fun k => getLsbD_ofBool_shiftLeft _ (by omega) k
  obtain ⟨hup, hdown⟩ := gray2binLoop_spec gray aw top (by omega)
    (fun k hk => by rw [htop k]; simp [show k ≠ aw by omega])
  by_cases hia : i < aw
  · exact hdown i hia
  · have hieq : i = aw := by omega
    subst hieq
    have h1 : (gray2bin gray).getLsbD i = gray.getLsbD i := by
      rw [gray2bin, hup i le_rfl, htop i]
      simp
    rw [h1, BitVec.getLsbD_of_ge _ (i + 1) le_rfl, Bool.false_xor]

theorem bin2gray_gray2bin (g : BitVec (aw + 1)) : bin2gray (gray2bin g) = g :=
  Gray.encode_of_suffix fun _ hi => getLsbD_gray2bin g hi

theorem gray2bin_bin2gray (b : BitVec (aw + 1)) : gray2bin (bin2gray b) = b :=
  Gray.encode_injective (bin2gray_gray2bin (bin2gray b))

/-- A pointer sampled while it advances from `a` to at most `a + 1` shows one
of the counts in between. -/
theorem resolve_bin2gray {a b : Nat} (hab : a ≤ b) (hb : b ≤ a + 1)
    (mask : BitVec (aw + 1)) :
    ∃ c, a ≤ c ∧ c ≤ b ∧
      Gray.resolve (bin2gray (BitVec.ofNat (aw + 1) a))
        (bin2gray (BitVec.ofNat (aw + 1) b)) mask =
          bin2gray (BitVec.ofNat (aw + 1) c) := by
  rcases Nat.eq_or_lt_of_le hab with heq | hlt
  · subst heq
    exact ⟨a, le_rfl, le_rfl, Gray.resolve_self _ _⟩
  · have hb' : b = a + 1 := by omega
    subst hb'
    rw [Counter.ofNat_succ a]
    rcases Gray.resolve_encode (BitVec.ofNat (aw + 1) a) mask with h | h
    · exact ⟨a, le_rfl, by omega, h⟩
    · exact ⟨a + 1, by omega, le_rfl, by rw [Counter.ofNat_succ a]; exact h⟩

/-- The concatenation that `wrfull` compares with inverts the two top bits. -/
theorem full_pattern (haw : 1 ≤ aw) (g : BitVec (aw + 1)) :
    (~~~ (g.extractLsb' (aw - 1) 2) ++ g.extractLsb' 0 (aw - 1)).setWidth (aw + 1) =
      g ^^^ (BitVec.twoPow (aw + 1) aw ^^^ BitVec.twoPow (aw + 1) (aw - 1)) := by
  apply BitVec.eq_of_getLsbD_eq
  intro i hi
  rw [BitVec.getLsbD_setWidth, BitVec.getLsbD_append, BitVec.getLsbD_xor,
    BitVec.getLsbD_xor, BitVec.getLsbD_twoPow, BitVec.getLsbD_twoPow,
    BitVec.getLsbD_extractLsb', BitVec.getLsbD_not, BitVec.getLsbD_extractLsb']
  by_cases hlow : i < aw - 1
  · simp [hi, hlow, show aw ≠ i by omega, show aw - 1 ≠ i by omega]
  · have hidx : aw - 1 + (i - (aw - 1)) = i := by omega
    have htwo : i - (aw - 1) < 2 := by omega
    rcases (show i = aw - 1 ∨ i = aw by omega) with h | h
    · subst h
      simp [hi, show aw ≠ aw - 1 by omega]
    · subst h
      simp [hidx, htwo, show i - 1 ≠ i by omega, show ¬ i < i - 1 by omega]

end Gray

section Views

/-- The write side holds `n` accepted writes and has seen `r1`, then `r2`
accepted reads through its synchroniser. -/
structure WrView (s : WrSide dw aw) (n r1 r2 : Nat) : Prop where
  bin : s.wrPtrBin = BitVec.ofNat (aw + 1) n
  gray : s.wrPtrGray = bin2gray (BitVec.ofNat (aw + 1) n)
  sync1 : s.rdPtrGraySync1 = bin2gray (BitVec.ofNat (aw + 1) r1)
  sync2 : s.rdPtrGraySync2 = bin2gray (BitVec.ofNat (aw + 1) r2)

/-- The read side holds `n` accepted reads and has seen `w1`, then `w2`
accepted writes through its synchroniser. -/
structure RdView (s : RdSide dw aw) (n w1 w2 : Nat) : Prop where
  bin : s.rdPtrBin = BitVec.ofNat (aw + 1) n
  gray : s.rdPtrGray = bin2gray (BitVec.ofNat (aw + 1) n)
  sync1 : s.wrPtrGraySync1 = bin2gray (BitVec.ofNat (aw + 1) w1)
  sync2 : s.wrPtrGraySync2 = bin2gray (BitVec.ofNat (aw + 1) w2)

variable {s : WrSide dw aw} {t : RdSide dw aw} {n r1 r2 w1 w2 : Nat}

/-- `wrfull` holds when the write side believes that `2 ^ aw` words are stored. -/
theorem WrView.wrfull_iff (haw : 1 ≤ aw) (h : WrView s n r1 r2) (hle : r2 ≤ n)
    (hcap : n ≤ r2 + 2 ^ aw) :
    s.wrfull = true ↔ n = r2 + 2 ^ aw := by
  obtain ⟨m, rfl⟩ : ∃ m, aw = m + 1 := ⟨aw - 1, by omega⟩
  have hpow : 2 ^ (m + 1 + 1) = 2 * 2 ^ (m + 1) := by rw [Nat.pow_succ, Nat.mul_comm]
  have hpos : 0 < 2 ^ (m + 1) := Nat.two_pow_pos _
  have htwo : BitVec.twoPow (m + 1 + 1) (m + 1) =
      BitVec.ofNat (m + 1 + 1) (2 ^ (m + 1)) := by
    apply BitVec.eq_of_toNat_eq
    rw [BitVec.toNat_twoPow, BitVec.toNat_ofNat]
  have hgray : s.wrfull = true ↔
      BitVec.ofNat (m + 1 + 1) n = BitVec.ofNat (m + 1 + 1) (r2 + 2 ^ (m + 1)) := by
    rw [WrSide.wrfull, beq_iff_eq, full_pattern haw, h.gray, h.sync2, BitVec.ofNat_add,
      ← htwo, show m + 1 - 1 = m by omega, bin2gray_eq_encode, bin2gray_eq_encode,
      ← Gray.encode_add_half, Gray.encode_inj]
  rw [hgray]
  exact Counter.ofNat_eq_iff hcap (by omega)

/-- `used_diff` is the number of words the write side believes to be stored. -/
theorem WrView.usedDiff_eq (h : WrView s n r1 r2) (hle : r2 ≤ n) :
    s.usedDiff = BitVec.ofNat (aw + 1) (n - r2) := by
  rw [WrSide.usedDiff, h.bin, h.sync2, gray2bin_bin2gray, Counter.ofNat_sub_ofNat hle]

/-- `wrusedw` is that number, saturated below `2 ^ aw`. -/
theorem WrView.wrusedw_toNat (h : WrView s n r1 r2) (hle : r2 ≤ n)
    (hcap : n ≤ r2 + 2 ^ aw) :
    s.wrusedw.toNat = min (n - r2) (2 ^ aw - 1) := by
  have hpos : 0 < 2 ^ aw := Nat.two_pow_pos aw
  have hpow : 2 ^ (aw + 1) = 2 * 2 ^ aw := by rw [Nat.pow_succ, Nat.mul_comm]
  have hdiff := h.usedDiff_eq hle
  have hnat : s.usedDiff.toNat = n - r2 := by
    rw [hdiff, Counter.toNat_ofNat_of_lt (by omega)]
  have htop : s.usedDiff.getLsbD aw = decide (n - r2 = 2 ^ aw) := by
    rw [← BitVec.testBit_toNat, hnat]
    by_cases heq : n - r2 = 2 ^ aw
    · rw [heq, Nat.testBit_two_pow_self, decide_eq_true rfl]
    · rw [Nat.testBit_lt_two_pow (by omega), decide_eq_false heq]
  rw [WrSide.wrusedw, htop]
  by_cases heq : n - r2 = 2 ^ aw
  · rw [if_pos (by simpa using heq), BitVec.toNat_allOnes]
    omega
  · rw [if_neg (by simpa using heq), BitVec.toNat_setWidth, hnat,
      Nat.mod_eq_of_lt (by omega)]
    omega

/-- `rdempty` holds when the read side believes that nothing is stored. -/
theorem RdView.rdempty_iff (h : RdView t n w1 w2) (hle : n ≤ w2)
    (hcap : w2 ≤ n + 2 ^ aw) :
    t.rdempty = true ↔ n = w2 := by
  have hpow : 2 ^ (aw + 1) = 2 * 2 ^ aw := by rw [Nat.pow_succ, Nat.mul_comm]
  have hpos : 0 < 2 ^ aw := Nat.two_pow_pos aw
  rw [RdSide.rdempty, beq_iff_eq, h.gray, h.sync2, bin2gray_inj]
  exact Counter.ofNat_eq_iff hle (by omega)

/-- A `wrclk` edge that samples the count `r0`. -/
theorem WrView.edge (h : WrView s n r1 r2) (wrreq : Bool) (data : BitVec dw) (r0 : Nat) :
    WrView (s.edge (bin2gray (BitVec.ofNat (aw + 1) r0)) wrreq data)
      (n + (s.accepts wrreq).toNat) r0 r1 := by
  unfold WrSide.edge
  cases s.accepts wrreq with
  | false => exact ⟨h.bin, h.gray, rfl, h.sync1⟩
  | true =>
      refine ⟨?_, ?_, rfl, h.sync1⟩
      · change s.wrPtrBin + 1 = _
        rw [h.bin]
        exact (Counter.ofNat_succ n).symm
      · change bin2gray (s.wrPtrBin + 1) = _
        rw [h.bin]
        exact congrArg bin2gray (Counter.ofNat_succ n).symm

/-- A `rdclk` edge that samples the count `w0`. -/
theorem RdView.edge (h : RdView t n w1 w2) (mem : BitVec aw → BitVec dw) (rdreq : Bool)
    (w0 : Nat) :
    RdView (t.edge (bin2gray (BitVec.ofNat (aw + 1) w0)) mem rdreq)
      (n + (t.accepts rdreq).toNat) w0 w1 := by
  unfold RdSide.edge
  cases t.accepts rdreq with
  | false => exact ⟨h.bin, h.gray, rfl, h.sync1⟩
  | true =>
      refine ⟨?_, ?_, rfl, h.sync1⟩
      · change t.rdPtrBin + 1 = _
        rw [h.bin]
        exact (Counter.ofNat_succ n).symm
      · change bin2gray (t.rdPtrBin + 1) = _
        rw [h.bin]
        exact congrArg bin2gray (Counter.ofNat_succ n).symm

theorem RdSide.edge_q (t : RdSide dw aw) (g : BitVec (aw + 1))
    (mem : BitVec aw → BitVec dw) (rdreq : Bool) :
    (t.edge g mem rdreq).q =
      if t.accepts rdreq then mem (t.rdPtrBin.setWidth aw) else t.q := by
  unfold RdSide.edge
  cases t.accepts rdreq <;> rfl

end Views

section Queue

/-- The words stored at the places of the writes `ws` that are not yet read. -/
def Stores (mem : BitVec aw → BitVec dw) (ws : List (BitVec dw)) (n : Nat) : Prop :=
  ∀ i, n ≤ i → i < ws.length → ws[i]? = some (mem (BitVec.ofNat aw i))

/-- The invariant: `ws` are the accepted writes, `rs` the accepted reads. -/
structure Synced (f : SimpleDcfifo dw aw) (ws rs : List (BitVec dw))
    (r2 r1 w2 w1 : Nat) : Prop where
  wr : WrView f.wr ws.length r1 r2
  rd : RdView f.rd rs.length w1 w2
  r2_le : r2 ≤ r1
  r1_le : r1 ≤ rs.length
  reads_le : rs.length ≤ w2
  w2_le : w2 ≤ w1
  w1_le : w1 ≤ ws.length
  cap : ws.length ≤ r2 + 2 ^ aw
  stores : Stores f.wr.mem ws rs.length
  reads : rs = ws.take rs.length

/-- When `rdempty` is low the read side knows of a word that is not read yet. -/
theorem Synced.lt_of_not_empty {f : SimpleDcfifo dw aw} {ws rs : List (BitVec dw)}
    {r2 r1 w2 w1 : Nat} (h : Synced f ws rs r2 r1 w2 w1) (hne : f.rd.rdempty = false) :
    rs.length < w2 := by
  have hr2 := h.r2_le
  have hr1 := h.r1_le
  have hrw := h.reads_le
  have hw2 := h.w2_le
  have hw1 := h.w1_le
  have hcap := h.cap
  have hneq : ¬ rs.length = w2 := by
    intro heq
    have hempty := (h.rd.rdempty_iff hrw (by omega)).2 heq
    rw [hne] at hempty
    exact absurd hempty (by decide)
  omega

/-- The invariant with the synchronised counts left open. -/
def Tracks (f : SimpleDcfifo dw aw) (ws rs : List (BitVec dw)) : Prop :=
  ∃ r2 r1 w2 w1, Synced f ws rs r2 r1 w2 w1

/-- When `rdempty` is low a written word is not read yet. -/
theorem Tracks.lt_of_not_empty {f : SimpleDcfifo dw aw} {ws rs : List (BitVec dw)}
    (h : Tracks f ws rs) (hne : f.rd.rdempty = false) : rs.length < ws.length := by
  obtain ⟨r2, r1, w2, w1, h⟩ := h
  have hlt := h.lt_of_not_empty hne
  have hw2 := h.w2_le
  have hw1 := h.w1_le
  omega

/-- The words read are the first ones written. -/
theorem Tracks.reads_prefix {f : SimpleDcfifo dw aw} {ws rs : List (BitVec dw)}
    (h : Tracks f ws rs) : rs <+: ws := by
  obtain ⟨r2, r1, w2, w1, h⟩ := h
  rw [h.reads]
  exact List.take_prefix _ _

theorem tracks_init (mem0 : BitVec aw → BitVec dw) :
    Tracks (init mem0) [] [] := by
  have hzero : (0 : BitVec (aw + 1)) = bin2gray (BitVec.ofNat (aw + 1) 0) := by
    simp [bin2gray]
  refine ⟨0, 0, 0, 0, ⟨?_, ?_, le_rfl, le_rfl, le_rfl, le_rfl, le_rfl, ?_, ?_, rfl⟩⟩
  · exact ⟨rfl, hzero, hzero, hzero⟩
  · exact ⟨rfl, hzero, hzero, hzero⟩
  · simp
  · intro i _ hi
    exact absurd hi (by simp)

/-- What a `wrclk` edge does to the stored words. -/
theorem Synced.wr_edge (haw : 1 ≤ aw) {f : SimpleDcfifo dw aw} {ws rs : List (BitVec dw)}
    {r2 r1 w2 w1 : Nat} (h : Synced f ws rs r2 r1 w2 w1) (wrreq : Bool)
    (data : BitVec dw) (g : BitVec (aw + 1)) :
    let acc := if f.wr.accepts wrreq then [data] else []
    (ws ++ acc).length ≤ r1 + 2 ^ aw ∧
      Stores (f.wr.edge g wrreq data).mem (ws ++ acc) rs.length := by
  have hr2 := h.r2_le
  have hr1 := h.r1_le
  have hrw := h.reads_le
  have hw2 := h.w2_le
  have hw1 := h.w1_le
  have hcap := h.cap
  cases hacc : f.wr.accepts wrreq with
  | false =>
      have hmem : (f.wr.edge g wrreq data).mem = f.wr.mem := by
        simp [WrSide.edge, hacc]
      simp only [Bool.false_eq_true, if_false, List.append_nil]
      rw [hmem]
      exact ⟨by omega, h.stores⟩
  | true =>
      have hroom : ws.length < r2 + 2 ^ aw := by
        have hnf : f.wr.wrfull = false := by
          simp only [WrSide.accepts, Bool.and_eq_true, Bool.not_eq_true'] at hacc
          exact hacc.2
        have hne : ¬ ws.length = r2 + 2 ^ aw := by
          intro heq
          have := (h.wr.wrfull_iff haw (by omega) hcap).2 heq
          rw [hnf] at this
          exact absurd this (by decide)
        omega
      have hmem : (f.wr.edge g wrreq data).mem = fun a =>
          if a = BitVec.ofNat aw ws.length then data else f.wr.mem a := by
        have hidx : f.wr.wrPtrBin.setWidth aw = BitVec.ofNat aw ws.length := by
          rw [h.wr.bin, Counter.setWidth_ofNat (by omega)]
        simp [WrSide.edge, hacc, hidx]
      simp only [if_true]
      refine ⟨by rw [List.length_append, List.length_singleton]; omega, ?_⟩
      intro i hni hi
      rw [List.length_append, List.length_singleton] at hi
      rw [hmem]
      by_cases heq : i = ws.length
      · subst heq
        simp
      · have hlt : i < ws.length := by omega
        have hdiff : ¬ BitVec.ofNat aw i = BitVec.ofNat aw ws.length := by
          rw [Counter.ofNat_eq_iff (by omega) (by omega)]
          exact heq
        rw [List.getElem?_append_left hlt, h.stores i hni hlt]
        simp [hdiff]

/-- What a `rdclk` edge does to the words read. -/
theorem Synced.rd_edge {f : SimpleDcfifo dw aw} {ws rs : List (BitVec dw)}
    {r2 r1 w2 w1 : Nat} (h : Synced f ws rs r2 r1 w2 w1) (rdreq : Bool)
    (g : BitVec (aw + 1)) :
    let acc := if f.rd.accepts rdreq then [(f.rd.edge g f.wr.mem rdreq).q] else []
    (rs ++ acc).length ≤ w2 ∧ rs ++ acc = ws.take (rs ++ acc).length := by
  have hr2 := h.r2_le
  have hr1 := h.r1_le
  have hrw := h.reads_le
  have hw2 := h.w2_le
  have hw1 := h.w1_le
  have hcap := h.cap
  cases hacc : f.rd.accepts rdreq with
  | false =>
      simp only [Bool.false_eq_true, if_false, List.append_nil]
      exact ⟨hrw, h.reads⟩
  | true =>
      have hvis : rs.length < w2 := by
        simp only [RdSide.accepts, Bool.and_eq_true, Bool.not_eq_true'] at hacc
        exact h.lt_of_not_empty hacc.2
      have hlt : rs.length < ws.length := by omega
      have hq : (f.rd.edge g f.wr.mem rdreq).q = f.wr.mem (BitVec.ofNat aw rs.length) := by
        rw [RdSide.edge_q, hacc, if_pos rfl, h.rd.bin, Counter.setWidth_ofNat (by omega)]
      simp only [if_true]
      refine ⟨by rw [List.length_append, List.length_singleton]; omega, ?_⟩
      rw [hq, List.length_append, List.length_singleton, List.take_add_one,
        h.stores _ le_rfl hlt, ← h.reads]
      rfl

/-- Reading on drops words from the stored ones. -/
theorem Stores.mono {mem : BitVec aw → BitVec dw} {ws : List (BitVec dw)} {n m : Nat}
    (h : Stores mem ws n) (hnm : n ≤ m) : Stores mem ws m :=
  fun i hi hlt => h i (by omega) hlt

theorem length_ite_singleton {α : Type*} (b : Bool) (a : α) (l : List α) :
    (l ++ if b then [a] else []).length = l.length + b.toNat := by
  cases b <;> simp

theorem toList_ite (b : Bool) (a : BitVec dw) :
    (if b then some a else none).toList = if b then [a] else [] := by
  cases b <;> rfl

/-- An edge of `wrclk` alone: the write side samples the read pointer. -/
theorem Synced.step_wrclk (haw : 1 ≤ aw) {f : SimpleDcfifo dw aw}
    {ws rs : List (BitVec dw)} {r2 r1 w2 w1 : Nat} (h : Synced f ws rs r2 r1 w2 w1)
    (wrreq : Bool) (data : BitVec dw) :
    Synced (f.step (.wrclk wrreq data)) (ws ++ (acceptedWrite f (.wrclk wrreq data)).toList)
      (rs ++ (acceptedRead f (.wrclk wrreq data)).toList) r1 rs.length w2 w1 := by
  have hr1 := h.r1_le
  have hrw := h.reads_le
  have hw2 := h.w2_le
  have hw1 := h.w1_le
  have hview := h.wr.edge wrreq data rs.length
  obtain ⟨hcap', hstores⟩ := h.wr_edge haw wrreq data f.rd.rdPtrGray
  simp only [acceptedWrite, acceptedRead, toList_ite, Option.toList_none, List.append_nil]
  rw [h.rd.gray] at hstores
  refine ⟨?_, h.rd, hr1, le_rfl, hrw, hw2, ?_, hcap', ?_, ?_⟩
  · rw [length_ite_singleton]
    change WrView (f.wr.edge f.rd.rdPtrGray wrreq data) _ _ _
    rw [h.rd.gray]
    exact hview
  · rw [length_ite_singleton]
    omega
  · change Stores (f.wr.edge f.rd.rdPtrGray wrreq data).mem _ _
    rw [h.rd.gray]
    exact hstores
  · rw [List.take_append_of_le_length (by omega)]
    exact h.reads

/-- An edge of `rdclk` alone: the read side samples the write pointer. -/
theorem Synced.step_rdclk {f : SimpleDcfifo dw aw} {ws rs : List (BitVec dw)}
    {r2 r1 w2 w1 : Nat} (h : Synced f ws rs r2 r1 w2 w1) (rdreq : Bool) :
    Synced (f.step (.rdclk rdreq)) (ws ++ (acceptedWrite f (.rdclk rdreq)).toList)
      (rs ++ (acceptedRead f (.rdclk rdreq)).toList) r2 r1 w1 ws.length := by
  have hr2 := h.r2_le
  have hr1 := h.r1_le
  have hw2 := h.w2_le
  have hw1 := h.w1_le
  have hview := h.rd.edge f.wr.mem rdreq ws.length
  obtain ⟨hle, hpre⟩ := h.rd_edge rdreq f.wr.wrPtrGray
  simp only [acceptedWrite, acceptedRead, toList_ite, Option.toList_none, List.append_nil]
  have hq : (f.step (.rdclk rdreq)).rd.q = (f.rd.edge f.wr.wrPtrGray f.wr.mem rdreq).q :=
    rfl
  rw [hq]
  refine ⟨h.wr, ?_, hr2, ?_, ?_, hw1, le_rfl, h.cap, ?_, hpre⟩
  · rw [length_ite_singleton]
    change RdView (f.rd.edge f.wr.wrPtrGray f.wr.mem rdreq) _ _ _
    rw [h.wr.gray]
    exact hview
  · rw [length_ite_singleton]
    omega
  · omega
  · exact h.stores.mono (by rw [length_ite_singleton]; omega)

/-- Edges of both clocks: each side samples the other pointer while it makes at most
one step. -/
theorem Synced.step_edges (haw : 1 ≤ aw) {f : SimpleDcfifo dw aw}
    {ws rs : List (BitVec dw)} {r2 r1 w2 w1 : Nat} (h : Synced f ws rs r2 r1 w2 w1)
    (wrreq : Bool) (data : BitVec dw) (rdreq : Bool) (rdMask wrMask : BitVec (aw + 1)) :
    ∃ r0 w0, rs.length ≤ r0 ∧ ws.length ≤ w0 ∧
      Synced (f.step (.both wrreq data rdreq rdMask wrMask))
        (ws ++ (acceptedWrite f (.both wrreq data rdreq rdMask wrMask)).toList)
        (rs ++ (acceptedRead f (.both wrreq data rdreq rdMask wrMask)).toList) r1 r0 w1 w0 := by
  have hr1 := h.r1_le
  have hrw := h.reads_le
  have hw2 := h.w2_le
  have hw1 := h.w1_le
  have hcap := h.cap
  simp only [acceptedWrite, acceptedRead, toList_ite]
  obtain ⟨r0, hr0, hr0', hrs⟩ := resolve_bin2gray
    (a := rs.length) (b := rs.length + (f.rd.accepts rdreq).toNat)
    (by omega) (by cases f.rd.accepts rdreq <;> simp) rdMask
  obtain ⟨w0, hw0, hw0', hws⟩ := resolve_bin2gray
    (a := ws.length) (b := ws.length + (f.wr.accepts wrreq).toNat)
    (by omega) (by cases f.wr.accepts wrreq <;> simp) wrMask
  have hrdNew := (h.rd.edge f.wr.mem rdreq ws.length).gray
  rw [← h.wr.gray] at hrdNew
  have hwrNew := (h.wr.edge wrreq data rs.length).gray
  rw [← h.rd.gray] at hwrNew
  rw [← h.rd.gray, ← hrdNew] at hrs
  rw [← h.wr.gray, ← hwrNew] at hws
  have hwr : (f.step (.both wrreq data rdreq rdMask wrMask)).wr =
      f.wr.edge (bin2gray (BitVec.ofNat (aw + 1) r0)) wrreq data := by
    rw [← hrs]
    rfl
  have hrd : (f.step (.both wrreq data rdreq rdMask wrMask)).rd =
      f.rd.edge (bin2gray (BitVec.ofNat (aw + 1) w0)) f.wr.mem rdreq := by
    rw [← hws]
    rfl
  obtain ⟨hcap', hstores⟩ := h.wr_edge haw wrreq data (bin2gray (BitVec.ofNat (aw + 1) r0))
  obtain ⟨hle, hpre⟩ := h.rd_edge rdreq (bin2gray (BitVec.ofNat (aw + 1) w0))
  rw [hrd]
  refine ⟨r0, w0, hr0, hw0, ?_, ?_, by omega, ?_, by omega, by omega, ?_, hcap', ?_, ?_⟩
  · rw [length_ite_singleton, hwr]
    exact h.wr.edge wrreq data r0
  · rw [length_ite_singleton, hrd]
    exact h.rd.edge f.wr.mem rdreq w0
  · rw [length_ite_singleton]
    exact hr0'
  · rw [length_ite_singleton]
    exact hw0'
  · rw [hwr]
    exact hstores.mono (by rw [length_ite_singleton]; omega)
  · rw [List.take_append_of_le_length (by omega)]
    exact hpre

/-- Every event keeps the invariant.  The counts that a side knows of the other one
never go back, and an edge of its clock brings them up to date by one stage. -/
theorem Synced.step_both (haw : 1 ≤ aw) {f : SimpleDcfifo dw aw} {ws rs : List (BitVec dw)}
    {r2 r1 w2 w1 : Nat} (h : Synced f ws rs r2 r1 w2 w1) (e : Edge dw aw) :
    ∃ r2' r1' w2' w1', (r2 ≤ r2' ∧ r1 ≤ r1' ∧
        (e.hasWrclk = true → r1 ≤ r2' ∧ rs.length ≤ r1')) ∧
      (w2 ≤ w2' ∧ w1 ≤ w1' ∧ (e.hasRdclk = true → w1 ≤ w2' ∧ ws.length ≤ w1')) ∧
      Synced (f.step e) (ws ++ (acceptedWrite f e).toList)
        (rs ++ (acceptedRead f e).toList) r2' r1' w2' w1' := by
  have hr2 := h.r2_le
  have hr1 := h.r1_le
  have hw2 := h.w2_le
  have hw1 := h.w1_le
  cases e with
  | wrclk wrreq data =>
      exact ⟨r1, rs.length, w2, w1, ⟨hr2, hr1, fun _ => ⟨le_rfl, le_rfl⟩⟩,
        ⟨le_rfl, le_rfl, fun hc => absurd hc (by simp [Edge.hasRdclk])⟩,
        h.step_wrclk haw wrreq data⟩
  | rdclk rdreq =>
      exact ⟨r2, r1, w1, ws.length,
        ⟨le_rfl, le_rfl, fun hc => absurd hc (by simp [Edge.hasWrclk])⟩,
        ⟨hw2, hw1, fun _ => ⟨le_rfl, le_rfl⟩⟩, h.step_rdclk rdreq⟩
  | both wrreq data rdreq rdMask wrMask =>
      obtain ⟨r0, w0, hr0, hw0, hs⟩ := h.step_edges haw wrreq data rdreq rdMask wrMask
      exact ⟨r1, r0, w1, w0, ⟨hr2, Nat.le_trans hr1 hr0, fun _ => ⟨le_rfl, hr0⟩⟩,
        ⟨hw2, Nat.le_trans hw1 hw0, fun _ => ⟨le_rfl, hw0⟩⟩, hs⟩

/-- The same with the read counts alone. -/
theorem Synced.step (haw : 1 ≤ aw) {f : SimpleDcfifo dw aw} {ws rs : List (BitVec dw)}
    {r2 r1 w2 w1 : Nat} (h : Synced f ws rs r2 r1 w2 w1) (e : Edge dw aw) :
    ∃ r2' r1' w2' w1', (r2 ≤ r2' ∧ r1 ≤ r1' ∧
        (e.hasWrclk = true → r1 ≤ r2' ∧ rs.length ≤ r1')) ∧
      Synced (f.step e) (ws ++ (acceptedWrite f e).toList)
        (rs ++ (acceptedRead f e).toList) r2' r1' w2' w1' := by
  obtain ⟨r2', r1', w2', w1', hr, _, h'⟩ := h.step_both haw e
  exact ⟨r2', r1', w2', w1', hr, h'⟩

theorem Tracks.step (haw : 1 ≤ aw) {f : SimpleDcfifo dw aw} {ws rs : List (BitVec dw)}
    (h : Tracks f ws rs) (e : Edge dw aw) :
    Tracks (f.step e) (ws ++ (acceptedWrite f e).toList)
      (rs ++ (acceptedRead f e).toList) := by
  obtain ⟨r2, r1, w2, w1, h⟩ := h
  obtain ⟨r2', r1', w2', w1', _, h'⟩ := h.step haw e
  exact ⟨r2', r1', w2', w1', h'⟩

theorem writes_snoc (l : List (SimpleDcfifo dw aw × Edge dw aw)) (f : SimpleDcfifo dw aw)
    (e : Edge dw aw) :
    writes (l ++ [(f, e)]) = writes l ++ (acceptedWrite f e).toList := by
  cases h : acceptedWrite f e <;> simp [writes, h]

theorem reads_snoc (l : List (SimpleDcfifo dw aw × Edge dw aw)) (f : SimpleDcfifo dw aw)
    (e : Edge dw aw) : reads (l ++ [(f, e)]) = reads l ++ (acceptedRead f e).toList := by
  cases h : acceptedRead f e <;> simp [reads, h]

/-- The output register holds the word read last. -/
theorem step_q (f : SimpleDcfifo dw aw) (e : Edge dw aw) :
    (f.step e).rd.q = (acceptedRead f e).getD f.rd.q := by
  cases e with
  | wrclk wrreq data => rfl
  | rdclk rdreq =>
      simp only [acceptedRead, step, RdSide.edge_q]
      cases f.rd.accepts rdreq <;> rfl
  | both wrreq data rdreq rdMask wrMask =>
      simp only [acceptedRead, step, RdSide.edge_q]
      cases f.rd.accepts rdreq <;> rfl

/-- The invariant holds along every run from power-up. -/
theorem tracks_run (haw : 1 ≤ aw) (mem0 : BitVec aw → BitVec dw) (es : List (Edge dw aw)) :
    Tracks (run step (init mem0) es) (writes (log step (init mem0) es))
      (reads (log step (init mem0) es)) := by
  refine log_invariant (P := fun f l => Tracks f (writes l) (reads l)) ?_ ?_ es
  · exact tracks_init mem0
  · intro f l e h
    rw [writes_snoc, reads_snoc]
    exact h.step haw e

/-- **The dual-clock FIFO is a lossless queue.**  Over every run from power-up,
the words loaded into `q` by accepted reads are a prefix of the words of the
accepted writes, and the words written but not yet read are all still in the
memory, each at the place its read will look at. -/
theorem reads_prefix_writes (haw : 2 ≤ aw) (mem0 : BitVec aw → BitVec dw)
    (es : List (Edge dw aw)) :
    let f := run step (init mem0) es
    let ws := writes (log step (init mem0) es)
    let rs := reads (log step (init mem0) es)
    rs <+: ws ∧
      (∀ i, rs.length ≤ i → i < ws.length →
        ws[i]? = some (f.wr.mem (BitVec.ofNat aw i))) ∧
      f.rd.rdPtrBin = BitVec.ofNat (aw + 1) rs.length := by
  intro f ws rs
  obtain ⟨r2, r1, w2, w1, h⟩ := tracks_run (by omega) mem0 es
  refine ⟨?_, h.stores, h.rd.bin⟩
  have hprefix : ws.take rs.length <+: ws := List.take_prefix _ _
  rwa [← h.reads] at hprefix

/-- Two words cross a four-word FIFO while both clocks tick together. -/
theorem reads_prefix_writes_two :
    let es : List (Edge 8 2) :=
      [.wrclk true 10, .both true 20 true 0 7, .both true 30 true 7 0,
        .rdclk true, .rdclk true]
    reads (log step (init fun _ => 0) es) = [10, 20] ∧
      reads (log step (init fun _ => 0) es) <+: writes (log step (init fun _ => 0) es) :=
  ⟨by decide, (reads_prefix_writes (by decide) _ _).1⟩

end Queue

end SimpleDcfifo
end VideoProcessing
