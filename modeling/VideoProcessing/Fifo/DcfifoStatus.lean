import Mathlib.Data.List.DropRight
import VideoProcessing.Fifo.DcfifoQueue

/-!
# The status outputs of `simple_dcfifo`

The write side sees the reads late, so `wrusedw` and `wrfull` never report less
than is stored; the read side sees the writes late, so `rdempty` never reports
more.  Two edges of a side's clock after the last change of the other pointer
both synchroniser stages hold it (`Seen`), and the outputs are exact.
-/

namespace VideoProcessing
namespace SimpleDcfifo

open Lib

variable {dw aw : Nat}

/-- The events of a log after the last accepted read. -/
def afterLastRead (l : List (SimpleDcfifo dw aw × Edge dw aw)) :
    List (SimpleDcfifo dw aw × Edge dw aw) :=
  l.rtakeWhile fun p => (acceptedRead p.1 p.2).isNone

/-- The events of a log after the last accepted write. -/
def afterLastWrite (l : List (SimpleDcfifo dw aw × Edge dw aw)) :
    List (SimpleDcfifo dw aw × Edge dw aw) :=
  l.rtakeWhile fun p => (acceptedWrite p.1 p.2).isNone

/-- The number of `wrclk` edges strictly after the last accepted read. -/
def wrclkEdges (l : List (SimpleDcfifo dw aw × Edge dw aw)) : Nat :=
  (afterLastRead l).countP fun p => p.2.hasWrclk

/-- The number of `rdclk` edges strictly after the last accepted write. -/
def rdclkEdges (l : List (SimpleDcfifo dw aw × Edge dw aw)) : Nat :=
  (afterLastWrite l).countP fun p => p.2.hasRdclk

section Snoc

variable (l : List (SimpleDcfifo dw aw × Edge dw aw)) (f : SimpleDcfifo dw aw)
  (e : Edge dw aw)

theorem wrclkEdges_snoc :
    wrclkEdges (l ++ [(f, e)]) =
      if (acceptedRead f e).isNone then wrclkEdges l + e.hasWrclk.toNat else 0 := by
  rw [wrclkEdges, afterLastRead, List.rtakeWhile_concat]
  cases h : (acceptedRead f e).isNone with
  | false => simp
  | true =>
      rw [if_pos rfl, if_pos rfl, List.countP_append]
      cases hc : e.hasWrclk <;> simp [wrclkEdges, afterLastRead, hc]

theorem rdclkEdges_snoc :
    rdclkEdges (l ++ [(f, e)]) =
      if (acceptedWrite f e).isNone then rdclkEdges l + e.hasRdclk.toNat else 0 := by
  rw [rdclkEdges, afterLastWrite, List.rtakeWhile_concat]
  cases h : (acceptedWrite f e).isNone with
  | false => simp
  | true =>
      rw [if_pos rfl, if_pos rfl, List.countP_append]
      cases hc : e.hasRdclk <;> simp [rdclkEdges, afterLastWrite, hc]

end Snoc

/-- After `k` edges since the pointer last moved to `n`: the first stage `c1` holds
it after one edge, the second stage `c2` after two. -/
def Seen (n c1 c2 k : Nat) : Prop := (1 ≤ k → n ≤ c1) ∧ (2 ≤ k → n ≤ c2)

theorem Seen.zero (n c1 c2 : Nat) : Seen n c1 c2 0 :=
  ⟨fun h => absurd h (by decide), fun h => absurd h (by decide)⟩

/-- An event that leaves the pointer alone; an edge of the clock shifts the
stages. -/
theorem Seen.step {n c1 c2 k c1' c2' : Nat} {edge : Bool} (h : Seen n c1 c2 k)
    (h2 : c2 ≤ c2') (h1 : c1 ≤ c1') (hedge : edge = true → c1 ≤ c2' ∧ n ≤ c1') :
    Seen n c1' c2' (k + edge.toNat) := by
  obtain ⟨hone, htwo⟩ := h
  cases edge with
  | false =>
      rw [Bool.toNat_false, Nat.add_zero]
      exact ⟨fun hk => le_trans (hone hk) h1, fun hk => le_trans (htwo hk) h2⟩
  | true =>
      obtain ⟨hshift, hnew⟩ := hedge rfl
      rw [Bool.toNat_true]
      exact ⟨fun _ => hnew, fun hk => le_trans (hone (by omega)) hshift⟩

/-- The invariant of the queue with the ages of what each side has seen. -/
def Settling (f : SimpleDcfifo dw aw) (l : List (SimpleDcfifo dw aw × Edge dw aw)) :
    Prop :=
  ∃ r2 r1 w2 w1, Synced f (writes l) (reads l) r2 r1 w2 w1 ∧
    Seen (reads l).length r1 r2 (wrclkEdges l) ∧
      Seen (writes l).length w1 w2 (rdclkEdges l)

theorem settling_init (mem0 : BitVec aw → BitVec dw) : Settling (init mem0) [] := by
  obtain ⟨r2, r1, w2, w1, h⟩ := tracks_init mem0
  exact ⟨r2, r1, w2, w1, h, Seen.zero _ _ _, Seen.zero _ _ _⟩

theorem Settling.step (haw : 1 ≤ aw) {f : SimpleDcfifo dw aw}
    {l : List (SimpleDcfifo dw aw × Edge dw aw)} (h : Settling f l) (e : Edge dw aw) :
    Settling (f.step e) (l ++ [(f, e)]) := by
  obtain ⟨r2, r1, w2, w1, h, hr, hw⟩ := h
  obtain ⟨r2', r1', w2', w1', ⟨hr2, hr1, hredge⟩, ⟨hw2, hw1, hwedge⟩, h'⟩ :=
    h.step_both haw e
  rw [← writes_snoc, ← reads_snoc] at h'
  refine ⟨r2', r1', w2', w1', h', ?_, ?_⟩
  · rw [wrclkEdges_snoc, reads_snoc]
    cases hacc : acceptedRead f e with
    | some q => exact Seen.zero _ _ _
    | none =>
        rw [Option.isNone_none, if_pos rfl, Option.toList_none, List.append_nil]
        exact hr.step hr2 hr1 hredge
  · rw [rdclkEdges_snoc, writes_snoc]
    cases hacc : acceptedWrite f e with
    | some d => exact Seen.zero _ _ _
    | none =>
        rw [Option.isNone_none, if_pos rfl, Option.toList_none, List.append_nil]
        exact hw.step hw2 hw1 hwedge

theorem settling_run (haw : 1 ≤ aw) (mem0 : BitVec aw → BitVec dw)
    (es : List (Edge dw aw)) :
    Settling (run SimpleDcfifo.step (init mem0) es) (log SimpleDcfifo.step (init mem0) es) :=
  log_invariant (P := Settling) (settling_init mem0) (fun _ _ e h => h.step haw e) es

/-- **The status outputs are conservative, and exact once the other side is still.**
In every run from power-up, with `occ` words stored: `occ` and `used_diff` are at
most `2 ^ aw`, the usage is never under-reported, `wrfull` is high when the FIFO is
full and `rdempty` when it is empty.  When no read was ever accepted or two `wrclk`
edges have come after the last accepted read, `wrusedw` and `wrfull` are exact; when
two `rdclk` edges have come after the last accepted write, `rdempty` is. -/
theorem status_conservative (haw : 2 ≤ aw) (mem0 : BitVec aw → BitVec dw)
    (es : List (Edge dw aw)) :
    let f := run SimpleDcfifo.step (init mem0) es
    let l := log SimpleDcfifo.step (init mem0) es
    let occ := (writes l).length - (reads l).length
    ((reads l).length ≤ (writes l).length ∧ occ ≤ 2 ^ aw ∧
      occ ≤ f.wr.usedDiff.toNat ∧ f.wr.usedDiff.toNat ≤ 2 ^ aw ∧
      min occ (2 ^ aw - 1) ≤ f.wr.wrusedw.toNat ∧ (occ = 2 ^ aw → f.wr.wrusedw ≠ 0) ∧
      (occ = 2 ^ aw → f.wr.wrfull = true) ∧ (occ = 0 → f.rd.rdempty = true)) ∧
    (((∀ p ∈ l, acceptedRead p.1 p.2 = none) ∨ 2 ≤ wrclkEdges l) →
      f.wr.wrusedw.toNat = min occ (2 ^ aw - 1) ∧ (f.wr.wrfull = true ↔ occ = 2 ^ aw)) ∧
    (2 ≤ rdclkEdges l → (f.rd.rdempty = true ↔ occ = 0)) := by
  intro f l occ
  have hsettling : Settling f l := settling_run (by omega) mem0 es
  obtain ⟨r2, r1, w2, w1, h, hr, hw⟩ := hsettling
  have hr2 := h.r2_le
  have hr1 := h.r1_le
  have hrw := h.reads_le
  have hw2 := h.w2_le
  have hw1 := h.w1_le
  have hcap := h.cap
  have hfour : 2 ^ 2 ≤ 2 ^ aw := Nat.pow_le_pow_right (by decide) haw
  have hpow : 2 ^ (aw + 1) = 2 ^ aw * 2 := Nat.pow_succ 2 aw
  have hused : f.wr.usedDiff.toNat = (writes l).length - r2 := by
    rw [h.wr.usedDiff_eq (by omega), Counter.toNat_ofNat_of_lt (by omega)]
  have husedw := h.wr.wrusedw_toNat (by omega) hcap
  have hfull := h.wr.wrfull_iff (by omega) (by omega) hcap
  have hempty := h.rd.rdempty_iff hrw (by omega)
  have hocc : occ = (writes l).length - (reads l).length := rfl
  refine ⟨⟨by omega, by omega, by omega, by omega, ?_, ?_, ?_, ?_⟩, ?_, ?_⟩
  · rw [husedw]
    omega
  · intro hmax hzero
    have hz := congrArg BitVec.toNat hzero
    rw [husedw] at hz
    have hz' : min ((writes l).length - r2) (2 ^ aw - 1) = 0 := hz
    omega
  · intro hmax
    rw [hfull]
    omega
  · intro hzero
    rw [hempty]
    omega
  · intro hstill
    have hexact : r2 = (reads l).length := by
      rcases hstill with hnone | hk
      · have hnil : reads l = [] := by
          rw [reads, List.filterMap_eq_nil_iff]
          exact hnone
        rw [hnil] at hr1 ⊢
        have hr1' : r1 ≤ 0 := hr1
        change r2 = 0
        omega
      · have hle := hr.2 hk
        omega
    rw [hexact] at husedw hfull
    refine ⟨husedw, ?_⟩
    rw [hfull]
    omega
  · intro hk
    have hle := hw.2 hk
    rw [hempty]
    omega

/-- Three words written and one read: after two more edges of either clock both
sides know that two words are stored. -/
theorem status_conservative_two_words :
    let es : List (Edge 8 2) :=
      [.wrclk true 10, .wrclk true 20, .wrclk true 30, .rdclk false, .rdclk false,
        .rdclk true, .wrclk false 0, .both false 0 false 0 0, .rdclk false]
    let f := run SimpleDcfifo.step (init fun _ => 0) es
    f.wr.wrusedw.toNat = 2 ∧ f.rd.rdempty = false := by
  intro es f
  obtain ⟨_, hwr, hrd⟩ := @status_conservative 8 2 (by decide) (fun _ => 0) es
  refine ⟨?_, ?_⟩
  · rw [(hwr (Or.inr (by decide))).1]
    decide
  · rw [← Bool.not_eq_true, hrd (by decide)]
    decide

end SimpleDcfifo
end VideoProcessing
