import Mathlib.Data.Nat.Count
import VideoProcessing.Lib.Scan
import VideoProcessing.Video.HdmiTiming

/-!
# The closed form of the HDMI timing

After `n` edges of `clk_pixel` from reset the counters are at position `n` of
the raster scan (`Lib.Scan`), whatever the control registers and the stream
data have been.  Everything else follows from the counters: the syncs and the
data enable two edges later, the VSync toggle one flip for each rising edge, and
the FIFO read request in mode 8 the visible positions in row-major order.
-/

namespace VideoProcessing
namespace HdmiPixel

open Lib

/-- The pixel domain after `n` edges from reset; `env k` is what it sees at the
edge after the first `k`. -/
def after (p : HdmiParams) (env : Nat → Clk) (n : Nat) : HdmiPixel :=
  run (clk p) reset ((List.range n).map env)

/-- The positions at which `stream_rd_en` is high in the `m` cycles from cycle
`n` on, in the order of the cycles. -/
def streamReads (p : HdmiParams) (env : Nat → Clk) (n m : Nat) : List (Nat × Nat) :=
  (List.range m).filterMap fun i =>
    let s := after p env (n + i)
    if s.streamRdEn p (env (n + i)).csr then some (s.hCnt.toNat, s.vCnt.toNat) else none

/-- VSync has risen between the cycles `n - 1` and `n`. -/
def VsRises (p : HdmiParams) (env : Nat → Clk) (n : Nat) : Prop :=
  1 ≤ n ∧ (after p env n).vsWire p = true ∧ (after p env (n - 1)).vsWire p = false

variable {p : HdmiParams} {env : Nat → Clk}

theorem after_succ (n : Nat) : after p env (n + 1) = (after p env n).clk p (env n) := by
  rw [after, List.range_succ, List.map_append]
  exact run_snoc _ _ _ _

theorem raster_after (n : Nat) : Raster p (after p env n) := raster_run _

section Params

variable (p)

theorem hTotal_pos : 0 < p.hTotal := by
  have := p.hTotal_eq
  have := p.hFront_pos
  omega

theorem vTotal_pos : 0 < p.vTotal := by
  have := p.vTotal_eq
  have := p.vFront_pos
  omega

theorem hVisible_le : p.hVisible ≤ p.hTotal := by
  have := p.hTotal_eq
  omega

theorem vVisible_le : p.vVisible ≤ p.vTotal := by
  have := p.vTotal_eq
  omega

end Params

/-- The counters scan the raster. -/
theorem counters_after (n : Nat) :
    (after p env n).hCnt.toNat = n % p.hTotal ∧
      (after p env n).vCnt.toNat = n / p.hTotal % p.vTotal := by
  induction n with
  | zero =>
      rw [Nat.zero_mod, Nat.zero_div, Nat.zero_mod]
      exact ⟨rfl, rfl⟩
  | succ n ih =>
      have hr : Raster p (after p env n) := raster_after n
      rw [after_succ, clk, hr.step_hCnt, hr.step_vCnt, ih.1, ih.2,
        Scan.mod_succ (hTotal_pos p), Scan.div_succ_mod (hTotal_pos p) (vTotal_pos p)]
      exact ⟨rfl, rfl⟩

/-- The delayed VSync is the VSync of the cycle before. -/
theorem vsD1_after (n : Nat) :
    (after p env n).vsD1 = (decide (1 ≤ n) && (after p env (n - 1)).vsWire p) := by
  cases n with
  | zero => rfl
  | succ n =>
      rw [after_succ, show n + 1 - 1 = n by omega, show decide (1 ≤ n + 1) = true by simp,
        Bool.true_and]
      rfl

/-- The toggle flips exactly when VSync has risen. -/
theorem flips_after (n : Nat) : (after p env n).flips p = true ↔ VsRises p env n := by
  rw [flips, vsD1_after, VsRises, Bool.and_eq_true, Bool.not_eq_true']
  cases n with
  | zero =>
      have hlow : (after p env 0).vsWire p = false := vsAt_zero p
      rw [hlow]
      simp
  | succ n => simp

theorem vsToggle_succ (n : Nat) :
    (after p env (n + 1)).vsToggle =
      ((after p env n).vsToggle ^^ (after p env n).flips p) := by
  rw [after_succ]
  exact step_vsToggle _ _ _

/-- VSync rises at one position of the frame. -/
theorem vsRises_iff (n : Nat) :
    VsRises p env n ↔ n % (p.hTotal * p.vTotal) = p.hTotal * (p.vVisible + p.vFront) := by
  rw [← flips_after, (raster_after n).flips_iff, (counters_after n).1,
    (counters_after n).2, Scan.mod_mul_eq_iff (hTotal_pos p)]
  rfl

/-- The toggle is the parity of the rising edges so far. -/
theorem vsToggle_after (n : Nat) :
    (after p env n).vsToggle =
      decide (n.count (fun k => k % (p.hTotal * p.vTotal) =
        p.hTotal * (p.vVisible + p.vFront)) % 2 = 1) := by
  induction n with
  | zero => rfl
  | succ n ih =>
      rw [vsToggle_succ, ih, Nat.count_succ]
      by_cases hrise : n % (p.hTotal * p.vTotal) = p.hTotal * (p.vVisible + p.vFront)
      · rw [if_pos hrise, (flips_after n).2 ((vsRises_iff n).2 hrise), Bool.xor_true,
          ← decide_not, decide_eq_decide]
        omega
      · have hflat : (after p env n).flips p = false := by
          rw [Bool.eq_false_iff, ne_eq, flips_after, vsRises_iff]
          exact hrise
        rw [if_neg hrise, hflat, Bool.xor_false, Nat.add_zero]

/-- In mode 8 the read request meets the visible spots of the scan. -/
theorem streamReads_eq_seen {n m : Nat} (hmode : ∀ i, i < m → (env (n + i)).csr.mode = 8) :
    streamReads p env n m = Scan.seen p.hTotal p.vTotal p.hVisible p.vVisible n m := by
  apply List.filterMap_congr
  intro i hi
  have hc : (after p env (n + i)).hCnt.toNat = (n + i) % p.hTotal ∧
      (after p env (n + i)).vCnt.toNat = (n + i) / p.hTotal % p.vTotal :=
    counters_after (n + i)
  have hm : ((env (n + i)).csr.mode == 8) = true := by
    rw [beq_iff_eq]
    exact hmode i (List.mem_range.1 hi)
  simp only [streamRdEn, visible, hc.1, hc.2, hm, Scan.spot, Bool.and_true,
    Bool.and_eq_true, decide_eq_true_eq, and_assoc, and_self]

/-- The outputs show a position two edges later. -/
theorem outputs_after (k : Nat) :
    ((after p env (k + 2)).hdmiDe = true ↔
      (after p env k).hCnt.toNat < p.hVisible ∧ (after p env k).vCnt.toNat < p.vVisible) ∧
    ((after p env (k + 2)).hdmiHs = false ↔
      p.hVisible + p.hFront ≤ (after p env k).hCnt.toNat ∧
        (after p env k).hCnt.toNat < p.hVisible + p.hFront + p.hSync) ∧
    ((after p env (k + 2)).hdmiVs = false ↔
      p.vVisible + p.vFront ≤ (after p env k).vCnt.toNat ∧
        (after p env k).vCnt.toNat < p.vVisible + p.vFront + p.vSync) := by
  have htwo : after p env (k + 2) =
      ((after p env k).clk p (env k)).clk p (env (k + 1)) := by
    rw [after_succ, after_succ]
  have hde : (after p env (k + 2)).hdmiDe = (after p env k).visible p := by rw [htwo]; rfl
  have hhs : (after p env (k + 2)).hdmiHs = !(after p env k).hsWire p := by rw [htwo]; rfl
  have hvs : (after p env (k + 2)).hdmiVs = !(after p env k).vsWire p := by rw [htwo]; rfl
  refine ⟨?_, ?_, ?_⟩
  · rw [hde, visible, Bool.and_eq_true, decide_eq_true_eq, decide_eq_true_eq]
  · rw [hhs, Bool.not_eq_false', hsWire, Bool.and_eq_true, decide_eq_true_eq,
      decide_eq_true_eq]
  · rw [hvs, Bool.not_eq_false', vsWire, Bool.and_eq_true, decide_eq_true_eq,
      decide_eq_true_eq]

/-- **The closed form of the timing.**  For every admissible set of parameters
and whatever the pixel domain sees at its edges: the counters after `n` edges,
the outputs two edges after each position, the VSync toggle, and the read
request in any stretch of one frame's length in which mode 8 is selected. -/
theorem closed_form (p : HdmiParams) (env : Nat → Clk) :
    (∀ n, (after p env n).hCnt.toNat = n % p.hTotal ∧
      (after p env n).vCnt.toNat = n / p.hTotal % p.vTotal) ∧
    (∀ n, 2 ≤ n →
      let x := (after p env (n - 2)).hCnt.toNat
      let y := (after p env (n - 2)).vCnt.toNat
      ((after p env n).hdmiDe = true ↔ x < p.hVisible ∧ y < p.vVisible) ∧
      ((after p env n).hdmiHs = false ↔
        p.hVisible + p.hFront ≤ x ∧ x < p.hVisible + p.hFront + p.hSync) ∧
      ((after p env n).hdmiVs = false ↔
        p.vVisible + p.vFront ≤ y ∧ y < p.vVisible + p.vFront + p.vSync)) ∧
    (∀ n, ((after p env (n + 1)).vsToggle ≠ (after p env n).vsToggle ↔ VsRises p env n) ∧
      (VsRises p env n ↔
        n % (p.hTotal * p.vTotal) = p.hTotal * (p.vVisible + p.vFront)) ∧
      (after p env n).vsToggle =
        decide (n.count (fun k => k % (p.hTotal * p.vTotal) =
          p.hTotal * (p.vVisible + p.vFront)) % 2 = 1)) ∧
    (∀ n, (∀ i, i < p.hTotal * p.vTotal → (env (n + i)).csr.mode = 8) →
      let reads := streamReads p env n (p.hTotal * p.vTotal)
      reads.length = p.hVisible * p.vVisible ∧
      reads = (Scan.rowMajor p.hVisible p.vVisible).rotate
        (Scan.rank p.hTotal p.vTotal p.hVisible p.vVisible n)) := by
  refine ⟨counters_after, ?_, ?_, ?_⟩
  · intro n hn x y
    obtain ⟨k, rfl⟩ : ∃ k, n = k + 2 := ⟨n - 2, by omega⟩
    exact outputs_after k
  · intro n
    refine ⟨?_, vsRises_iff n, vsToggle_after n⟩
    rw [vsToggle_succ, ← flips_after]
    cases (after p env n).vsToggle <;> cases (after p env n).flips p <;> simp
  · intro n hmode reads
    have hreads : reads = (Scan.rowMajor p.hVisible p.vVisible).rotate
        (Scan.rank p.hTotal p.vTotal p.hVisible p.vVisible n) :=
      (streamReads_eq_seen hmode).trans
        (Scan.window_seen (hTotal_pos p) (vTotal_pos p) (hVisible_le p) (vVisible_le p) n)
    refine ⟨?_, hreads⟩
    rw [hreads, List.length_rotate, Scan.length_rowMajor, Nat.mul_comm]

/-- The registers of the CSR domain with mode 8 selected. -/
def streamCsr : HdmiCsr := { HdmiCsr.blank with regMode := 8 }

/-- The default raster in mode 8 from reset on: the first frame reads 960 times
540 pixels, line after line. -/
theorem closed_form_qhd :
    streamCsr.mode = 8 ∧
    let reads := streamReads HdmiParams.qhd (fun _ => ⟨streamCsr, 0⟩) 0 (1120 * 563)
    reads.length = 960 * 540 ∧ reads = (Scan.rowMajor 960 540).rotate 0 :=
  ⟨rfl, (closed_form HdmiParams.qhd (fun _ => ⟨streamCsr, 0⟩)).2.2.2 0 (fun _ _ => rfl)⟩

end HdmiPixel
end VideoProcessing
