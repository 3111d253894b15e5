import VideoProcessing.Video.DmaFrame

/-!
# The frames of a run

`Framed` describes the whole log of the DMA master and its slave: the words
returned so far are those of the started frames, one frame after the other, the
last one perhaps in part; and every frame but the running one has had its done
pulse.
-/

namespace VideoProcessing
namespace DmaBus

open Lib

variable {N : BitVec 32} {s : DmaBus} {l : List (DmaBus × Cycle)} {c : Cycle}

/-- The number of frames started over a log. -/
def starts (l : List (DmaBus × Cycle)) : Nat :=
  l.countP fun p => p.1.triggers p.2

/-- The number of cycles of a log with `dma_done` high. -/
def dones (l : List (DmaBus × Cycle)) : Nat :=
  l.countP fun p => p.1.dma.dmaDone

/-- The start addresses of the frames started over a log, oldest first. -/
def startAddrs (l : List (DmaBus × Cycle)) : List (BitVec 32) :=
  l.filterMap fun p => if p.1.triggers p.2 then some p.2.startAddr else none

/-- The addresses of whole frames of `n` words. -/
def frameAddrs (n : Nat) (as : List (BitVec 32)) : List (BitVec 32) :=
  as.flatMap fun a => wordAddrs a n

@[simp] theorem length_frameAddrs (n : Nat) (as : List (BitVec 32)) :
    (frameAddrs n as).length = n * as.length := by
  induction as with
  | nil => rfl
  | cons a as ih =>
      rw [frameAddrs, List.flatMap_cons, List.length_append, length_wordAddrs,
        ← frameAddrs, ih, List.length_cons, Nat.mul_succ, Nat.add_comm]

theorem frameAddrs_snoc (n : Nat) (as : List (BitVec 32)) (a : BitVec 32) :
    frameAddrs n (as ++ [a]) = frameAddrs n as ++ wordAddrs a n := by
  simp [frameAddrs]

theorem starts_snoc : starts (l ++ [(s, c)]) = starts l + (s.triggers c).toNat := by
  simp only [starts, List.countP_append, List.countP_singleton]
  cases s.triggers c <;> rfl

theorem dones_snoc : dones (l ++ [(s, c)]) = dones l + s.dma.dmaDone.toNat := by
  simp only [dones, List.countP_append, List.countP_singleton]
  cases s.dma.dmaDone <;> rfl

theorem startAddrs_snoc :
    startAddrs (l ++ [(s, c)]) =
      startAddrs l ++ if s.triggers c then [c.startAddr] else [] := by
  simp only [startAddrs, List.filterMap_append]
  cases h : s.triggers c <;> simp [h]

theorem length_startAddrs (l : List (DmaBus × Cycle)) :
    (startAddrs l).length = starts l := by
  induction l using List.reverseRecOn with
  | nil => rfl
  | append_singleton l p ih =>
      rw [startAddrs_snoc, starts_snoc, List.length_append, ih]
      cases p.1.triggers p.2 <;> rfl

theorem Idle.triggers (h : Idle s) (c : Cycle) : s.triggers c = (s.inputs c).trigger := by
  rw [DmaBus.triggers, h.state]
  rfl

theorem InFrame.triggers {a0 : BitVec 32} {k r : Nat} (h : InFrame N s a0 k r)
    (c : Cycle) :
    s.triggers c = false := by
  rw [DmaBus.triggers, beq_false_of_ne h.state_ne_idle, Bool.false_and]

/-- The words of a log are those of the started frames, in order. -/
def Framed (N : BitVec 32) (s : DmaBus) (l : List (DmaBus × Cycle)) : Prop :=
  (Idle s ∧ (pushed l).map Prod.fst = frameAddrs N.toNat (startAddrs l) ∧
      dones l = starts l) ∨
    ∃ as a0 k r, InFrame N s a0 k r ∧ startAddrs l = as ++ [a0] ∧
      (pushed l).map Prod.fst = frameAddrs N.toNat as ++ wordAddrs a0 r ∧
      dones l + 1 = starts l

theorem Framed.step (hpos : 0 < N.toNat) (hdvd : 64 ∣ N.toNat) (h : Framed N s l)
    (c : Cycle) : Framed N (s.step N c) (l ++ [(s, c)]) := by
  rw [Framed, starts_snoc, dones_snoc, startAddrs_snoc, pushed_snoc, List.map_append]
  rcases h with ⟨h, hwords, hdones⟩ | ⟨as, a0, k, r, h, has, hwords, hdones⟩
  · rw [h.triggers c, h.returned c, h.done, hwords, hdones]
    cases ht : (s.inputs c).trigger with
    | false =>
        left
        exact ⟨h.step_none c ht, by simp, by simp⟩
    | true =>
        right
        refine ⟨startAddrs l, c.startAddr, 0, 0, h.step_trigger hpos c ht, rfl, ?_, rfl⟩
        simp [wordAddrs]
  · rw [h.triggers c, hwords, has]
    have hk := h.k_le
    have hrk := h.r_le
    by_cases hr : r < N.toNat
    · right
      have hdone : s.dma.dmaDone = false := by
        rw [h.done, decide_eq_false_iff_not]
        omega
      refine ⟨as, a0, _, _, h.step hdvd hr c, by simp, ?_, by simpa [hdone] using hdones⟩
      rw [List.append_assoc, h.pushed_next]
    · left
      have hr' : r = N.toNat := by omega
      have hdone : s.dma.dmaDone = true := by
        rw [h.done, decide_eq_true_eq]
        exact hr'
      obtain ⟨hidle, _, hret⟩ := h.step_last hr' c
      rw [hdone, hret, hr', ← frameAddrs_snoc]
      exact ⟨hidle, by simp, by simpa using hdones⟩

theorem framed_run (hpos : 0 < N.toNat) (hdvd : 64 ∣ N.toNat) (cs : List Cycle) :
    Framed N (run (DmaBus.step N) init cs) (log (DmaBus.step N) init cs) :=
  log_invariant (P := Framed N) (Or.inl ⟨idle_init, rfl, rfl⟩)
    (fun _ _ c h => h.step hpos hdvd c) cs

/-- The words of the last frame stand behind those of the whole ones before it. -/
theorem Framed.pushed_last (h : Framed N s l) {n i : Nat} (hn : starts l = n + 1)
    (hi : i < N.toNat) {w : BitVec 32 × BitVec 32}
    (hw : (pushed l)[N.toNat * n + i]? = some w) :
    ∃ a, (startAddrs l)[n]? = some a ∧ w.1 = a + 4 * BitVec.ofNat 32 i := by
  rw [← length_startAddrs] at hn
  have hfst : ((pushed l).map Prod.fst)[N.toNat * n + i]? = some w.1 := by
    rw [List.getElem?_map, hw]
    rfl
  have hsplit : ∃ as a0 r, startAddrs l = as ++ [a0] ∧
      (pushed l).map Prod.fst = frameAddrs N.toNat as ++ wordAddrs a0 r := by
    rcases h with ⟨_, hwords, _⟩ | ⟨as, a0, k, r, _, has, hwords, _⟩
    · rcases List.eq_nil_or_concat (startAddrs l) with hnil | ⟨as, a0, has⟩
      · rw [hnil] at hn
        exact absurd hn (by simp)
      · rw [List.concat_eq_append] at has
        refine ⟨as, a0, N.toNat, has, ?_⟩
        rw [hwords, has, frameAddrs_snoc]
    · exact ⟨as, a0, r, has, hwords⟩
  obtain ⟨as, a0, r, has, hwords⟩ := hsplit
  have hlen : as.length = n := by
    rw [has, List.length_append, List.length_singleton] at hn
    omega
  refine ⟨a0, by rw [has, ← hlen]; simp, ?_⟩
  rw [hwords, List.getElem?_append_right (by rw [length_frameAddrs, hlen]; omega),
    length_frameAddrs, hlen, Nat.add_sub_cancel_left] at hfst
  have hlt : i < r := by
    by_contra hge
    rw [List.getElem?_eq_none (by rw [length_wordAddrs]; omega)] at hfst
    exact absurd hfst (by simp)
  rw [getElem?_wordAddrs a0 hlt] at hfst
  exact (Option.some.inj hfst).symm

end DmaBus
end VideoProcessing
