import VideoProcessing.Burst.SharedMemory
import VideoProcessing.Software.Board

/-!
# The two engines on the memories of the board

The read master of `burst_master_0` is connected to on-chip memory, its write master and
both masters of `burst_master_4_0` to DDR.

* `BurstStream.memory_of_jobs`: what memory is over any run of `burst_master_4`;
* `BurstCopy.job_completes`: when a transfer of `burst_master` completes.
-/

namespace VideoProcessing

open Lib

/-- The masters of `burst_master_0`. -/
def ocmToDdr : Ports SharedMemory (BitVec 32) (BitVec 32) where
  fetch mem a := mem.ocm (wordOf a)
  put mem a w := { mem with ddr := Function.update mem.ddr (wordOf a) w }

/-- The masters of `burst_master_4_0`. -/
def ddrToDdr : Ports SharedMemory (BitVec 32) (BitVec 32) where
  fetch mem a := mem.ddr (wordOf a)
  put mem a w := { mem with ddr := Function.update mem.ddr (wordOf a) w }

theorem writes_ocmToDdr : Job.Writes ocmToDdr SharedMemory.ddr wordOf := fun _ _ _ => rfl

theorem writes_ddrToDdr : Job.Writes ddrToDdr SharedMemory.ddr wordOf := fun _ _ _ => rfl

/-- Nothing that is written to DDR is read from on-chip memory. -/
theorem safe_ocmToDdr (j : Job (BitVec 32) (BitVec 32)) : j.Safe ocmToDdr :=
  fun _ _ _ _ _ _ => rfl

/-- A transfer inside DDR is safe when no word goes to the place of a later source word. -/
theorem safe_ddrToDdr {j : Job (BitVec 32) (BitVec 32)}
    (h : ∀ i k, i < k → k < j.len → wordOf (j.dst i) ≠ wordOf (j.src k)) :
    j.Safe ddrToDdr :=
  fun i k hik hk _ _ => Function.update_of_ne (h i k hik hk).symm _ _

/-- On-chip memory is only read. -/
theorem ocm_copied {io : Ports SharedMemory (BitVec 32) (BitVec 32)}
    (hput : ∀ mem a w, (io.put mem a w).ocm = mem.ocm) (j : Job (BitVec 32) (BitVec 32))
    (mem : SharedMemory) (n : Nat) : (j.copied io mem n).ocm = mem.ocm := by
  induction n with
  | zero => rfl
  | succ n ih => rw [Job.copied, hput, ih]

namespace Transfer

/-- The addresses of a job are those of an array. -/
theorem addr_eq_index (p : BitVec 32) (i : Nat) :
    p + 4 * BitVec.ofNat 32 i = index p i := by
  rw [index, BitVec.ofNat_mul]
  rfl

/-- The words of an array are apart. -/
theorem wordOf_index_inj {p : BitVec 32} {i k : Nat} (hi : i < 2 ^ 30) (hk : k < 2 ^ 30)
    (h : wordOf (index p i) = wordOf (index p k)) : i = k := by
  rw [wordOf_index, wordOf_index, ← BitVec.toNat_inj] at h
  simp only [BitVec.toNat_add, BitVec.toNat_ofNat] at h
  omega

variable {T : Transfer} {f : BitVec 32 → BitVec 32} {mem : SharedMemory}
  {io : Ports SharedMemory (BitVec 32) (BitVec 32)}

/-- The words that a transfer leaves at its destination. -/
theorem copied_dst (hput : Job.Writes io SharedMemory.ddr wordOf) {i : Nat}
    (hi : i < T.words) :
    ((T.job f).copied io mem (T.job f).len).ddr (wordOf (index T.dst i)) =
      f (io.fetch mem (index T.src i)) := by
  have hwords := T.words_lt
  rw [← addr_eq_index T.dst, ← addr_eq_index T.src]
  refine Job.copied_dst (j := T.job f) hput ?_ hi
  intro i k hi hk hik
  change wordOf (T.dst + _) = wordOf (T.dst + _) at hik
  rw [addr_eq_index, addr_eq_index] at hik
  exact wordOf_index_inj (lt_trans hi hwords) (lt_trans hk hwords) hik

/-- Away from its destination a transfer changes nothing. -/
theorem copied_apart (hput : Job.Writes io SharedMemory.ddr wordOf) {w : BitVec 30}
    (hw : ∀ i, i < T.words → wordOf (index T.dst i) ≠ w) :
    ((T.job f).copied io mem (T.job f).len).ddr w = mem.ddr w := by
  refine Job.copied_apart (j := T.job f) hput ?_
  intro i hi
  change wordOf (T.dst + _) ≠ w
  rw [addr_eq_index]
  exact hw i hi

end Transfer

namespace BurstStream

open BurstSystem

/-- **`burst_master_4` on a memory.**  Take any run from reset of a disciplined software
that starts no transfer which overwrites words it has still to read.  After every cycle
memory is what the jobs completed so far left, one after the other, and of the job in
progress, if there is one, the first words are there, scaled; the jobs are those of the
Start commands, and as many are complete as completion pulses were seen. -/
theorem memory_of_jobs (P : BurstParams4)
    (memIn memOut : BitVec (clog2 P.fifoDepth) → BitVec 32) {M : Type}
    (io : Ports M (BitVec 32) (BitVec 32)) (mem0 : M) (bs : List BusCycle)
    (hord : ∀ p ∈ log ((system P).stepOn io) (init memIn memOut, mem0) bs,
      (system P).Orderly io p.1 p.2) :
    let l := log ((system P).stepOn io) (init memIn memOut, mem0) bs
    ∃ done current n, (system P).jobs l = done ++ Option.toList current ∧
      done.length = (system P).completions l ∧ (∀ j ∈ current, n ≤ j.len) ∧
      (run ((system P).stepOn io) (init memIn memOut, mem0) bs).2 =
        current.elim (Job.perform io done mem0)
          fun j => j.copied io (Job.perform io done mem0) n :=
  BurstSystem.memory_runOn (E := system P) (clean_init memIn memOut) rfl mem0 bs hord

/-- Register writes while the slaves do not stall, and cycles without one. -/
def busCycles (ws : List (BitVec 3 × BitVec 32)) (n : Nat) : List BusCycle :=
  (ws.map fun w => ⟨AvsIn.write w.1 w.2, false, true, false⟩) ++
    List.replicate n ⟨AvsIn.none, false, true, false⟩

/-- Two words are scaled in place with the coefficient 800. -/
def scaleInPlace : List BusCycle :=
  busCycles [(5, 2), (6, 2), (2, 0x100), (3, 0x100), (4, 8), (7, 800), (0, 1)] 30

/-- Memory whose words are their numbers. -/
def numbered : SharedMemory := ⟨fun w => w.setWidth 32, fun w => w.setWidth 32⟩

/-- When the run is over, the job is complete. -/
theorem memory_of_jobs_scaleInPlace :
    (run ((system BurstParams4.standard).stepOn ddrToDdr)
      (init (fun _ => 0) (fun _ => 0), numbered) scaleInPlace).2 =
        Job.perform ddrToDdr ((system BurstParams4.standard).jobs
          (log ((system BurstParams4.standard).stepOn ddrToDdr)
            (init (fun _ => 0) (fun _ => 0), numbered) scaleInPlace)) numbered := by
  have hstarts : ∀ p ∈ log ((system BurstParams4.standard).stepOn ddrToDdr)
      (init (fun _ => 0) (fun _ => 0), numbered) scaleInPlace,
      BurstBus.Disciplined p.1.1.engine.ctl p.2.avs ∧
        (p.2.avs.start = true → p.1.1.engine.ctl.csr.ctrlLen = 8 ∧
          p.1.1.engine.ctl.csr.ctrlSrcAddr = 0x100 ∧
            p.1.1.engine.ctl.csr.ctrlDstAddr = 0x100) := by decide +kernel
  have hord : ∀ p ∈ log ((system BurstParams4.standard).stepOn ddrToDdr)
      (init (fun _ => 0) (fun _ => 0), numbered) scaleInPlace,
      (system BurstParams4.standard).Orderly ddrToDdr p.1 p.2 := by
    intro p hp
    refine ⟨(hstarts p hp).1, fun hs => safe_ddrToDdr ?_⟩
    obtain ⟨hlen, hsrc, hdst⟩ := (hstarts p hp).2 hs
    intro i k hik hk
    have hk2 : k < 2 := by
      change k < p.1.1.engine.ctl.csr.ctrlLen.toNat / 4 at hk
      rw [hlen] at hk
      exact hk
    obtain rfl : i = 0 := by omega
    obtain rfl : k = 1 := by omega
    change wordOf (p.1.1.engine.ctl.csr.ctrlDstAddr + _) ≠
      wordOf (p.1.1.engine.ctl.csr.ctrlSrcAddr + _)
    rw [hsrc, hdst]
    decide
  obtain ⟨done, current, n, hjobs, hdone, -, hmem⟩ :=
    memory_of_jobs BurstParams4.standard (fun _ => 0) (fun _ => 0) ddrToDdr numbered scaleInPlace
      hord
  have hone : ((system BurstParams4.standard).jobs (log ((system BurstParams4.standard).stepOn
      ddrToDdr) (init (fun _ => 0) (fun _ => 0), numbered) scaleInPlace)).length = 1 := by
    decide +kernel
  have hpulses : (system BurstParams4.standard).completions (log
      ((system BurstParams4.standard).stepOn ddrToDdr)
      (init (fun _ => 0) (fun _ => 0), numbered) scaleInPlace) = 1 := by
    decide +kernel
  rw [hjobs, List.length_append, hdone, hpulses] at hone
  cases current with
  | none =>
      rw [hmem, hjobs]
      simp
  | some j => exact absurd hone (by simp)

end BurstStream

namespace BurstCopy

open BurstSystem

/-- **`burst_master` completes.**  Take any run from reset of a disciplined software and
in its last state a Start command for a copy that overwrites no word it has still to
read, with room in the FIFO for a read burst and a write burst less their common
divisor.  However the slaves stall and delay their replies from then on, as long as each
of them serves again and again and the software stays disciplined, there is a cycle with
the completion pulse in which memory is what the job is for. -/
theorem job_completes (P : BurstParams) (fifo0 : BitVec (clog2 P.fifoDepth) → BitVec 32)
    {M : Type} (io : Ports M (BitVec 32) (BitVec 32)) (mem0 : M) (pre : List BusCycle)
    (b : BusCycle) (bs : Nat → BusCycle)
    (hpre : ∀ p ∈ log ((system P).stepOn io) (init fifo0, mem0) pre,
      BurstBus.Disciplined p.1.1.engine.ctl p.2.avs)
    (hstart : b.avs.start = true)
    (hord : (system P).Orderly io (run ((system P).stepOn io) (init fifo0, mem0) pre) b)
    (hroom : let csr := (run ((system P).stepOn io) (init fifo0, mem0) pre).1.engine.ctl.csr
      csr.ctrlRdBurst.toNat + csr.ctrlWrBurst.toNat -
        Nat.gcd csr.ctrlRdBurst.toNat csr.ctrlWrBurst.toNat ≤ P.fifoDepth)
    (hfair : Fair BusNeed.MetOn bs)
    (hdisc : ∀ t, BurstBus.Disciplined (states ((system P).stepOn io) ((system P).stepOn io
      (run ((system P).stepOn io) (init fifo0, mem0) pre) b) bs t).1.engine.ctl (bs t).avs) :
    let x := run ((system P).stepOn io) (init fifo0, mem0) pre
    ∃ t, let y := states ((system P).stepOn io) ((system P).stepOn io x b) bs t
      y.1.engine.ctl.wm.internalDonePulse = true ∧
        y.2 = ((system P).job x.1).copied io x.2 ((system P).job x.1).len :=
  BurstSystem.completes
    (settled_runOn (E := system P) (clean_init fifo0) rfl mem0 pre hpre) hstart hord
    (fun _ => advancing P _ hroom) hfair hdisc

/-- The register writes of a transfer of two words. -/
def programTwo : List BusCycle :=
  BurstStream.busCycles [(5, 2), (6, 1), (2, 0x100), (3, 0x200), (4, 8)] 0

/-- Slaves that take turns. -/
def takingTurns (t : Nat) : BusCycle where
  avs := AvsIn.none
  rmWaitrequest := t % 3 ≠ 0
  replies := t % 3 = 1
  wmWaitrequest := t % 3 ≠ 2

theorem fair_takingTurns : Fair BusNeed.MetOn takingTurns := by
  intro k t
  cases k with
  | command =>
      refine ⟨2 * t, ?_⟩
      have hmod : (t + 2 * t) % 3 = 0 := by omega
      simp [BusNeed.MetOn, takingTurns, hmod]
  | reply =>
      refine ⟨2 * t + 1, ?_⟩
      have hmod : (t + (2 * t + 1)) % 3 = 1 := by omega
      simp [BusNeed.MetOn, takingTurns, hmod]
  | beat =>
      refine ⟨2 * t + 2, ?_⟩
      have hmod : (t + (2 * t + 2)) % 3 = 2 := by omega
      simp [BusNeed.MetOn, takingTurns, hmod]

/-- Two words from on-chip memory to DDR. -/
theorem job_completes_takingTurns :
    let E := system BurstParams.standard
    let x := run (E.stepOn ocmToDdr) (init fun _ => 0, BurstStream.numbered) programTwo
    let x' := E.stepOn ocmToDdr x ⟨AvsIn.write 0 1, false, true, false⟩
    ∃ t, let y := states (E.stepOn ocmToDdr) x' takingTurns t
      y.1.engine.ctl.wm.internalDonePulse = true ∧
        y.2 = (E.job x.1).copied ocmToDdr x.2 (E.job x.1).len :=
  job_completes BurstParams.standard (fun _ => 0) ocmToDdr BurstStream.numbered programTwo
    ⟨AvsIn.write 0 1, false, true, false⟩ takingTurns (by decide +kernel) rfl
    ⟨by decide +kernel, fun _ => safe_ocmToDdr _⟩ (by decide +kernel) fair_takingTurns
    (fun _ => ⟨fun hw => absurd hw Bool.false_ne_true, fun hs => absurd hs Bool.false_ne_true⟩)

end BurstCopy
end VideoProcessing
