import VideoProcessing.Software.DmaMemory
import VideoProcessing.Software.SelfTest

/-!
# An engine behind its CSR slave

`dmaHardware` makes of an engine on a memory what a program of the processor sees: each
register access waits for some cycles, reaches the CSR slave, and the engine and the
memory run on with the clock.  When the slaves stall and reply, and how long an access
takes, is up to the `Timing`.

Between transfers an engine is `Rested`.  `exists_transfer` is the specification of a
transfer as software runs it: under slaves that serve again and again the poll of the
status register ends, and the job is complete when it does.
-/

namespace VideoProcessing

open Lib

/-- What the slaves do in each cycle, and how many cycles pass before an access that
begins in this cycle reaches the CSR slave. -/
structure Timing where
  rmWaitrequest : Nat → Bool
  replies : Nat → Bool
  wmWaitrequest : Nat → Bool
  delay : Nat → Nat

/-- The cycle `t` with a CSR access. -/
def Timing.cycle (c : Timing) (t : Nat) (avs : AvsIn) : BusCycle where
  avs := avs
  rmWaitrequest := c.rmWaitrequest t
  replies := c.replies t
  wmWaitrequest := c.wmWaitrequest t

/-- Each slave serves again and again. -/
def Timing.Serves (c : Timing) : Prop :=
  Fair BusNeed.MetOn fun t => c.cycle t AvsIn.none

/-- The register of a byte offset. -/
def regAddress (reg : BitVec 32) : BitVec 3 := (reg >>> 2).setWidth 3

namespace BurstSystem

variable (E : BurstSystem) (io : Ports SharedMemory (BitVec 32) (BitVec 32)) (c : Timing)

/-- One clock cycle of the engine, the clock and the memories. -/
def tick (avs : AvsIn) (w : (E.State × Nat) × SharedMemory) :
    (E.State × Nat) × SharedMemory :=
  let x := E.stepOn io (w.1.1, w.2) (c.cycle w.1.2 avs)
  ((x.1, w.1.2 + 1), x.2)

/-- Cycles without an access. -/
def ticks (n : Nat) (w : (E.State × Nat) × SharedMemory) :
    (E.State × Nat) × SharedMemory :=
  (E.tick io c AvsIn.none)^[n] w

/-- The engine as a program sees it; `avs_readdata` follows `avs_address` in the same
cycle. -/
def dmaHardware (avsReaddata : E.State → BitVec 3 → BitVec 32) :
    DmaEngine (E.State × Nat) where
  iowr reg v w := E.tick io c (AvsIn.write (regAddress reg) v) (E.ticks io c (c.delay w.1.2) w)
  iord reg w :=
    let w' := E.ticks io c (c.delay w.1.2) w
    (avsReaddata w'.1.1 (regAddress reg), E.tick io c AvsIn.none w')

/-- The engine waits for a program, and Done is cleared. -/
structure Rested (s : E.State) : Prop where
  clean : E.Clean s
  start : (E.bus s).ctl.csr.ctrlStart = false
  done : (E.bus s).ctl.csr.ctrlDoneReg = false

variable {E io c} {avs : AvsIn} {w : (E.State × Nat) × SharedMemory} {T : Transfer}
  {f : BitVec 32 → BitVec 32} {mem0 : SharedMemory} {n : Nat}

theorem ticks_succ (n : Nat) (w : (E.State × Nat) × SharedMemory) :
    E.ticks io c (n + 1) w = E.tick io c AvsIn.none (E.ticks io c n w) :=
  Function.iterate_succ_apply' _ n w

theorem ticks_add (m n : Nat) (w : (E.State × Nat) × SharedMemory) :
    E.ticks io c (m + n) w = E.ticks io c m (E.ticks io c n w) :=
  Function.iterate_add_apply _ m n w

section Rest

variable (io c avs w) in
/-- The registers after a cycle. -/
theorem csr_tick : (E.bus (E.tick io c avs w).1.1).ctl.csr =
    (E.bus w.1.1).ctl.csr.step (E.bus w.1.1).ctl.wm.internalDonePulse avs :=
  E.csr_step _ _

variable (io c) in
/-- A cycle without a Start command leaves a rested engine rested, and memory as it is. -/
theorem Rested.tick (h : E.Rested w.1.1) (hs : avs.start = false) :
    E.Rested (E.tick io c avs w).1.1 ∧ (E.tick io c avs w).2 = w.2 ∧
      (E.bus (E.tick io c avs w).1.1).ctl.csr = (E.bus w.1.1).ctl.csr.step false avs := by
  have hdone := (E.quiet _ h.clean).done
  have hcsr := csr_tick io c avs w
  rw [hdone] at hcsr
  refine ⟨⟨E.step_none _ _ h.clean h.start, ?_, ?_⟩, stepOn_clean h.clean, hcsr⟩
  · rw [hcsr, BurstCsr.step_ctrlStart, hs]
  · rw [hcsr, BurstCsr.step_ctrlDoneReg_eq, h.done]
    simp

/-- Without an access the registers of a rested engine stay. -/
theorem Rested.step_none {csr : BurstCsr} (hs : csr.ctrlStart = false) :
    csr.step false AvsIn.none = csr := by
  rcases csr with ⟨start, _, _, _, _, _, _⟩
  obtain rfl : start = false := hs
  rfl

variable (io c) in
theorem Rested.ticks (h : E.Rested w.1.1) (n : Nat) :
    E.Rested (E.ticks io c n w).1.1 ∧ (E.ticks io c n w).2 = w.2 ∧
      (E.bus (E.ticks io c n w).1.1).ctl.csr = (E.bus w.1.1).ctl.csr := by
  induction n with
  | zero => exact ⟨h, rfl, rfl⟩
  | succ n ih =>
      obtain ⟨hrest, hmem, hcsr⟩ := ih
      obtain ⟨hrest', hmem', hcsr'⟩ :=
        hrest.tick io c (show AvsIn.none.start = false from rfl)
      rw [ticks_succ]
      exact ⟨hrest', hmem'.trans hmem, by rw [hcsr', step_none hrest.start, hcsr]⟩

end Rest

section Poll

/-- While software polls the status register: the transfer is started and not taken yet,
under way, or complete with Done set. -/
inductive Polling (E : BurstSystem) (io : Ports SharedMemory (BitVec 32) (BitVec 32))
    (T : Transfer) (f : BitVec 32 → BitVec 32) (mem0 : SharedMemory)
    (w : (E.State × Nat) × SharedMemory) : Prop
  | started (clean : E.Clean w.1.1) (start : (E.bus w.1.1).ctl.csr.ctrlStart = true)
      (prog : ∃ hp, T = Transfer.ofCsr (E.bus w.1.1).ctl.csr hp) (op : f = E.op w.1.1)
      (done : (E.bus w.1.1).ctl.csr.ctrlDoneReg = false) (mem : w.2 = mem0)
  | copying {ws : List (BitVec 32)} {q m : Nat}
      (copy : E.CopyingOn io T f mem0 (w.1.1, w.2) ws q m)
      (done : (E.bus w.1.1).ctl.csr.ctrlDoneReg = false)
  | complete (clean : E.Clean w.1.1) (start : (E.bus w.1.1).ctl.csr.ctrlStart = false)
      (done : (E.bus w.1.1).ctl.csr.ctrlDoneReg = true)
      (config : T.Configured (E.bus w.1.1).ctl.csr)
      (mem : w.2 = (T.job f).copied io mem0 (T.job f).len)

theorem disciplined_none (ctl : BurstControl) : BurstBus.Disciplined ctl AvsIn.none :=
  ⟨fun hw => absurd hw Bool.false_ne_true, fun hs => absurd hs Bool.false_ne_true⟩

theorem Polling.tick (h : Polling E io T f mem0 w) (hsafe : (T.job f).Safe io) :
    Polling E io T f mem0 (E.tick io c AvsIn.none w) := by
  have hdisc := disciplined_none (E.bus w.1.1).ctl
  have hcsr := csr_tick io c AvsIn.none w
  have hdone : (E.bus (E.tick io c AvsIn.none w).1.1).ctl.csr.ctrlDoneReg =
      ((E.bus w.1.1).ctl.wm.internalDonePulse || (E.bus w.1.1).ctl.csr.ctrlDoneReg) := by
    rw [hcsr, BurstCsr.step_ctrlDoneReg_eq]
    exact Bool.true_and _
  cases h with
  | started hclean hstart hprog hop hdone0 hmem =>
      obtain ⟨hp, rfl⟩ := hprog
      have hcopy := copyingOn_start io (x := (w.1.1, w.2)) (b := c.cycle w.1.2 AvsIn.none)
        hclean hstart hp hdisc
      rw [← hop, hmem] at hcopy
      refine .copying (by rw [VideoProcessing.BurstSystem.tick, hmem]; exact hcopy) ?_
      rw [hdone, (E.quiet _ hclean).done, hdone0]
      rfl
  | copying hcopy hdone0 =>
      cases hd : (E.bus w.1.1).ctl.wm.internalDonePulse with
      | false =>
          refine .copying (hcopy.step (b := c.cycle w.1.2 AvsIn.none) hsafe hd hdisc) ?_
          rw [hdone, hd, hdone0]
          rfl
      | true =>
          obtain ⟨hclean, hstart, hmem, hsame⟩ :=
            hcopy.finish (b := c.cycle w.1.2 AvsIn.none) hd hdisc
          have hconfig := (E.transfer _ _ _ _ _ _ hcopy.active).config
          obtain ⟨h1, h2, h3, h4, h5⟩ := BurstCsr.step_config (E.bus w.1.1).ctl.csr
            (E.bus w.1.1).ctl.wm.internalDonePulse (i := AvsIn.none)
            (fun hw => absurd hw Bool.false_ne_true)
          rw [← hcsr] at h1 h2 h3 h4 h5
          refine .complete hclean hstart (by rw [hdone, hd]; rfl)
            ⟨h1.trans hconfig.src, h2.trans hconfig.dst, h3.trans hconfig.len,
              h4.trans hconfig.rb, h5.trans hconfig.wb⟩ (hsame.trans hmem)
  | complete hclean hstart hdone0 hconfig hmem =>
      rw [(E.quiet _ hclean).done, Rested.step_none hstart] at hcsr
      exact .complete (E.step_none _ _ hclean hstart) (by rw [hcsr]; exact hstart)
        (by rw [hcsr]; exact hdone0) (by rw [hcsr]; exact hconfig)
        ((stepOn_clean (x := (w.1.1, w.2)) hclean).trans hmem)

theorem Polling.ticks (h : Polling E io T f mem0 w) (hsafe : (T.job f).Safe io) (n : Nat) :
    Polling E io T f mem0 (E.ticks io c n w) := by
  induction n with
  | zero => exact h
  | succ n ih =>
      rw [ticks_succ]
      exact ih.tick hsafe

/-- Done says that the transfer is complete. -/
theorem Polling.complete_of_done (h : Polling E io T f mem0 w)
    (hd : (E.bus w.1.1).ctl.csr.ctrlDoneReg = true) :
    E.Clean w.1.1 ∧ (E.bus w.1.1).ctl.csr.ctrlStart = false ∧
      T.Configured (E.bus w.1.1).ctl.csr ∧
        w.2 = (T.job f).copied io mem0 (T.job f).len := by
  cases h with
  | started _ _ _ _ hdone _ => exact absurd (hd.symm.trans hdone) (by decide)
  | copying _ hdone => exact absurd (hd.symm.trans hdone) (by decide)
  | complete hclean hstart _ hconfig hmem => exact ⟨hclean, hstart, hconfig, hmem⟩

/-- Cycles without an access are a run on the memory. -/
theorem ticks_eq_states (n : Nat) :
    E.ticks io c n w =
      (((states (E.stepOn io) (w.1.1, w.2) (fun t => c.cycle (w.1.2 + t) AvsIn.none) n).1,
        w.1.2 + n),
        (states (E.stepOn io) (w.1.1, w.2) (fun t => c.cycle (w.1.2 + t) AvsIn.none) n).2) := by
  induction n with
  | zero => rfl
  | succ n ih =>
      rw [ticks_succ, ih]
      rfl

theorem fair_from (h : c.Serves) (t₀ : Nat) :
    Fair BusNeed.MetOn fun t => c.cycle (t₀ + t) AvsIn.none := by
  intro k t
  obtain ⟨n, hn⟩ := h k (t₀ + t)
  rw [Nat.add_assoc] at hn
  exact ⟨n, hn⟩

/-- After the start pulse Done is set some time. -/
theorem exists_done (hserves : c.Serves) (hclean : E.Clean w.1.1)
    (hstart : (E.bus w.1.1).ctl.csr.ctrlStart = true)
    (hp : BurstBus.Programmed (E.bus w.1.1).ctl.csr)
    (A : E.Advancing (Transfer.ofCsr _ hp)) (hsafe : (E.job w.1.1).Safe io) :
    ∃ n, (E.bus (E.ticks io c n w).1.1).ctl.csr.ctrlDoneReg = true := by
  obtain ⟨t, hdone, -⟩ := completes_of_pulse (x := (w.1.1, w.2)) hclean hstart hp A
    hsafe (fair_from hserves w.1.2) (fun _ => disciplined_none _)
  refine ⟨t + 1, ?_⟩
  rw [ticks_succ, csr_tick, BurstCsr.step_ctrlDoneReg_eq, ticks_eq_states, hdone]
  rfl

end Poll

section Program

/-- The status register shows Done in bit 0. -/
def ShowsDone (E : BurstSystem) (avsReaddata : E.State → BitVec 3 → BitVec 32) : Prop :=
  ∀ s, avsReaddata s 1 &&& 1 = 0 ↔ (E.bus s).ctl.csr.ctrlDoneReg = false

/-- The registers after a program has written some of them. -/
def csrAfter (ws : List (BitVec 32 × BitVec 32)) (csr : BurstCsr) : BurstCsr :=
  ws.foldl (fun csr w => csr.step false (AvsIn.write (regAddress w.1) w.2)) csr

/-- Register writes without a Start command. -/
def NoStart (ws : List (BitVec 32 × BitVec 32)) : Prop :=
  ∀ w ∈ ws, (AvsIn.write (regAddress w.1) w.2).start = false

variable {avsReaddata : E.State → BitVec 3 → BitVec 32} {reg v : BitVec 32}
  {b : Board (E.State × Nat)} {ws : List (BitVec 32 × BitVec 32)}

variable (io c avsReaddata) in
/-- A write to a rested engine. -/
theorem Rested.iowr (h : E.Rested b.dma.1)
    (hs : (AvsIn.write (regAddress reg) v).start = false) :
    let b' := b.iowr32Direct (E.dmaHardware io c avsReaddata) reg v
    E.Rested b'.dma.1 ∧ b'.mem = b.mem ∧
      (E.bus b'.dma.1).ctl.csr =
        (E.bus b.dma.1).ctl.csr.step false (AvsIn.write (regAddress reg) v) := by
  intro b'
  obtain ⟨hrest, hmem, hcsr⟩ :=
    Rested.ticks io c (w := (b.dma, b.mem)) h (c.delay b.dma.2)
  obtain ⟨hrest', hmem', hcsr'⟩ := hrest.tick io c hs
  exact ⟨hrest', hmem'.trans hmem, by rw [← hcsr]; exact hcsr'⟩

variable (io c avsReaddata) in
/-- A program for a rested engine, but for the Start command. -/
theorem Rested.program (h : E.Rested b.dma.1) (hws : NoStart ws) :
    let b' :=
      ws.foldl (fun b w => b.iowr32Direct (E.dmaHardware io c avsReaddata) w.1 w.2) b
    E.Rested b'.dma.1 ∧ b'.mem = b.mem ∧ b'.window = b.window ∧
      (E.bus b'.dma.1).ctl.csr = csrAfter ws (E.bus b.dma.1).ctl.csr := by
  induction ws generalizing b with
  | nil => exact ⟨h, rfl, rfl, rfl⟩
  | cons w ws ih =>
      obtain ⟨hrest, hmem, hcsr⟩ := h.iowr io c avsReaddata (hws w List.mem_cons_self)
      obtain ⟨hrest', hmem', hwindow, hcsr'⟩ :=
        ih hrest fun w' hw' => hws w' (List.mem_cons_of_mem _ hw')
      rw [hcsr] at hcsr'
      exact ⟨hrest', hmem'.trans hmem, hwindow, hcsr'⟩

/-- Done stays set while software only reads. -/
theorem done_ticks {m : Nat}
    (h : (E.bus (E.ticks io c m w).1.1).ctl.csr.ctrlDoneReg = true) (n : Nat) :
    (E.bus (E.ticks io c (n + m) w).1.1).ctl.csr.ctrlDoneReg = true := by
  induction n with
  | zero => rwa [Nat.zero_add]
  | succ n ih =>
      rw [Nat.add_right_comm, ticks_succ, csr_tick, BurstCsr.step_ctrlDoneReg_eq, ih,
        Bool.or_true]
      rfl

/-- The board after cycles without an access. -/
def onTicks (io : Ports SharedMemory (BitVec 32) (BitVec 32)) (c : Timing)
    (b : Board (E.State × Nat)) (n : Nat) : Board (E.State × Nat) :=
  { b with
    dma := (E.ticks io c n (b.dma, b.mem)).1
    mem := (E.ticks io c n (b.dma, b.mem)).2 }

variable (io c avsReaddata) in
/-- A poll of the status register takes the cycles until it is served and one more. -/
theorem iord_status (b : Board (E.State × Nat)) :
    (b.iord32Direct (E.dmaHardware io c avsReaddata) SelfTest.regStatus) =
      (avsReaddata (onTicks io c b (c.delay b.dma.2)).dma.1 1,
        onTicks io c b (c.delay b.dma.2 + 1)) := by
  have haddr : regAddress SelfTest.regStatus = 1 := by decide
  simp only [Board.iord32Direct, dmaHardware, haddr, onTicks, ticks_succ]

/-- When Done is set some time, the poll ends, and finds it set. -/
theorem waitDone_ends (hread : E.ShowsDone avsReaddata) {n : Nat}
    {b : Board (E.State × Nat)}
    (hd : (E.bus (onTicks io c b n).dma.1).ctl.csr.ctrlDoneReg = true) :
    ∃ fuel k, SelfTest.waitDone (E.dmaHardware io c avsReaddata) fuel b =
        some (onTicks io c b k) ∧
      (E.bus (onTicks io c b k).dma.1).ctl.csr.ctrlDoneReg = true := by
  induction n using Nat.strong_induction_on generalizing b with
  | _ n ih =>
      generalize hdelay : c.delay b.dma.2 = d
      have hiord := iord_status io c avsReaddata b
      rw [hdelay] at hiord
      cases hnow : (E.bus (onTicks io c b d).dma.1).ctl.csr.ctrlDoneReg with
      | true =>
          refine ⟨1, d + 1, ?_, ?_⟩
          · have hbit : ¬ avsReaddata (onTicks io c b d).dma.1 1 &&& 1 = 0 := by
              rw [hread, hnow]
              decide
            rw [SelfTest.waitDone, hiord]
            exact if_neg hbit
          · rw [Nat.add_comm]
            exact done_ticks hnow 1
      | false =>
          have hlt : d < n := by
            by_contra hge
            have hset := done_ticks hd (d - n)
            rw [Nat.sub_add_cancel (Nat.le_of_not_lt hge)] at hset
            exact absurd (hset.symm.trans hnow) (by decide)
          have hshift : ∀ k, onTicks io c (onTicks io c b (d + 1)) k =
              onTicks io c b (k + (d + 1)) := by
            intro k
            simp only [onTicks, ticks_add]
          obtain ⟨fuel, k, hwait, hk⟩ := ih (n - (d + 1)) (by omega) (b := onTicks io c b (d + 1))
            (by rw [hshift, Nat.sub_add_cancel hlt]; exact hd)
          rw [hshift] at hwait hk
          refine ⟨fuel + 1, k + (d + 1), ?_, hk⟩
          have hbit : avsReaddata (onTicks io c b d).dma.1 1 &&& 1 = 0 := (hread _).2 hnow
          rw [SelfTest.waitDone, hiord]
          exact (if_pos hbit).trans hwait

/-- The transfer that the registers describe. -/
theorem exists_ofCsr {csr : BurstCsr} (h : T.Configured csr) :
    ∃ hp, Transfer.ofCsr csr hp = T := by
  have hp : BurstBus.Programmed csr := by
    rw [BurstBus.Programmed, h.rb, h.wb, h.len]
    exact ⟨T.rb_pos, T.wb_pos, T.rb_dvd, T.wb_dvd⟩
  exact ⟨hp, Transfer.ext h.src h.dst h.len h.rb h.wb⟩

variable (E io c w) in
/-- Cycles without an access keep what the engine does to a word. -/
theorem op_ticks (n : Nat) : E.op (E.ticks io c n w).1.1 = E.op w.1.1 := by
  induction n with
  | zero => rfl
  | succ n ih =>
      rw [ticks_succ, ← ih]
      exact E.op_step _ _ fun hw => absurd hw Bool.false_ne_true

variable (io c) in
/-- The Start command of a rested engine. -/
theorem Rested.polling (h : E.Rested w.1.1)
    (hp : BurstBus.Programmed (E.bus w.1.1).ctl.csr) :
    Polling E io (Transfer.ofCsr _ hp) (E.op w.1.1) w.2 (E.tick io c (AvsIn.write 0 1) w) ∧
      (E.bus (E.tick io c (AvsIn.write 0 1) w).1.1).ctl.csr.ctrlStart = true := by
  have hs : (AvsIn.write 0 1).start = true := by decide
  obtain ⟨hclean, hstart, -, -, hmem⟩ :=
    started_of_start (x := (w.1.1, w.2)) (b := c.cycle w.1.2 (AvsIn.write 0 1))
      h.clean h.start hs hp
  have hw :=
    start_of_write (c := E.cycle io (w.1.1, w.2) (c.cycle w.1.2 (AvsIn.write 0 1))) hs
  obtain ⟨hp', hT⟩ := programmed_start (E := E) (s := w.1.1) hw hp
  refine ⟨.started hclean hstart ⟨hp', hT.symm⟩ (E.op_step _ _ hw).symm ?_ hmem, hstart⟩
  rw [csr_tick, BurstCsr.step_ctrlDoneReg_eq, (E.quiet _ h.clean).done, h.done]
  rfl

/-- Clearing Done after a transfer leaves the engine rested. -/
theorem Polling.acknowledged (h : Polling E io T f mem0 w)
    (hd : (E.bus w.1.1).ctl.csr.ctrlDoneReg = true) :
    let w' := E.tick io c (AvsIn.write 1 1) w
    E.Rested w'.1.1 ∧ T.Configured (E.bus w'.1.1).ctl.csr ∧
      w'.2 = (T.job f).copied io mem0 (T.job f).len := by
  intro w'
  obtain ⟨hclean, hstart, hconfig, hmem⟩ := h.complete_of_done hd
  have hcsr : (E.bus w'.1.1).ctl.csr = _ := csr_tick io c (AvsIn.write 1 1) w
  obtain ⟨h1, h2, h3, h4, h5⟩ := BurstCsr.step_config (E.bus w.1.1).ctl.csr
    (E.bus w.1.1).ctl.wm.internalDonePulse (i := AvsIn.write 1 1) (fun _ => Or.inr rfl)
  rw [← hcsr] at h1 h2 h3 h4 h5
  refine ⟨⟨E.step_none _ _ hclean hstart, ?_, ?_⟩,
    ⟨h1.trans hconfig.src, h2.trans hconfig.dst, h3.trans hconfig.len, h4.trans hconfig.rb,
      h5.trans hconfig.wb⟩, (stepOn_clean (x := (w.1.1, w.2)) hclean).trans hmem⟩
  · rw [hcsr, BurstCsr.step_ctrlStart]
    decide
  · rw [hcsr, BurstCsr.step_ctrlDoneReg_eq]
    rfl

/-- A transfer as software runs it: the poll ends, and when it does, the job is
complete. -/
theorem exists_transfer (hserves : c.Serves) (hread : E.ShowsDone avsReaddata)
    (h : E.Rested b.dma.1) (hws : NoStart ws)
    (hT : T.Configured (csrAfter ws (E.bus b.dma.1).ctl.csr)) (A : E.Advancing T)
    {op : BitVec 32 → BitVec 32}
    (hop : E.op (ws.foldl (fun b w =>
      b.iowr32Direct (E.dmaHardware io c avsReaddata) w.1 w.2) b).dma.1 = op)
    (hsafe : (T.job op).Safe io) :
    ∃ fuel b', SelfTest.transfer (E.dmaHardware io c avsReaddata) fuel
        (ws ++ [(SelfTest.regCtrl, 1)]) b = some b' ∧
      E.Rested b'.dma.1 ∧ T.Configured (E.bus b'.dma.1).ctl.csr ∧
        b'.window = b.window ∧ b'.mem = (T.job op).copied io b.mem (T.job op).len := by
  obtain ⟨hrest, hmem, hwindow, hcsr⟩ := h.program io c avsReaddata hws
  generalize hb1 : ws.foldl (fun b w =>
    b.iowr32Direct (E.dmaHardware io c avsReaddata) w.1 w.2) b = b1 at hrest hmem hwindow hcsr hop
  obtain ⟨hrest1, hmem1, hcsr1⟩ :=
    Rested.ticks io c (w := (b1.dma, b1.mem)) hrest (c.delay b1.dma.2)
  have hop1 := op_ticks E io c (b1.dma, b1.mem) (c.delay b1.dma.2)
  generalize hw1 : E.ticks io c (c.delay b1.dma.2) (b1.dma, b1.mem) = w1
    at hrest1 hmem1 hcsr1 hop1
  rw [← hcsr, ← hcsr1] at hT
  obtain ⟨hp1, hT1⟩ := exists_ofCsr hT
  obtain ⟨hpoll, hstart⟩ := hrest1.polling io c hp1
  rw [hT1, hop1, hop, hmem1, hmem] at hpoll
  obtain ⟨n, hn⟩ : ∃ n, (E.bus (E.ticks io c n
      (E.tick io c (AvsIn.write 0 1) w1)).1.1).ctl.csr.ctrlDoneReg = true := by
    cases hpoll with
    | started hclean _ hprog hop' _ _ =>
        obtain ⟨hp2, hT2⟩ := hprog
        have A' : E.Advancing (Transfer.ofCsr _ hp2) := by
          rw [← hT2]
          exact A
        refine exists_done hserves hclean hstart hp2 A' ?_
        rw [← job_ofCsr hp2, ← hT2, ← hop']
        exact hsafe
    | copying hcopy _ =>
        have hno := (E.transfer _ _ _ _ _ _ hcopy.active).start
        exact absurd (hstart.symm.trans hno) (by decide)
    | complete _ hno _ _ _ => exact absurd (hstart.symm.trans hno) (by decide)
  have hiowr : b1.iowr32Direct (E.dmaHardware io c avsReaddata) SelfTest.regCtrl 1 =
      { b1 with
        dma := (E.tick io c (AvsIn.write 0 1) w1).1
        mem := (E.tick io c (AvsIn.write 0 1) w1).2 } := by
    have haddr : regAddress SelfTest.regCtrl = 0 := by decide
    simp only [Board.iowr32Direct, dmaHardware, haddr, hw1]
  generalize hb2 : b1.iowr32Direct (E.dmaHardware io c avsReaddata) SelfTest.regCtrl 1 = b2
    at hiowr
  have hw2 : (b2.dma, b2.mem) = E.tick io c (AvsIn.write 0 1) w1 := by rw [hiowr]
  rw [← hw2] at hpoll hn
  obtain ⟨fuel, k, hwait, hk⟩ := waitDone_ends hread (b := b2) (n := n) hn
  have hset := done_ticks hk (c.delay (onTicks io c b2 k).dma.2)
  obtain ⟨hrest', hconfig, hjob⟩ :=
    (hpoll.ticks (c := c) hsafe _).acknowledged (c := c) hset
  refine ⟨fuel, (onTicks io c b2 k).iowr32Direct (E.dmaHardware io c avsReaddata)
    SelfTest.regStatus 1, ?_, ?_⟩
  · rw [SelfTest.transfer, List.foldl_append, hb1, List.foldl_cons, List.foldl_nil, hb2,
      hwait]
    rfl
  · have hack : (onTicks io c b2 k).iowr32Direct (E.dmaHardware io c avsReaddata)
        SelfTest.regStatus 1 =
        { b2 with
          dma := (E.tick io c (AvsIn.write 1 1) (E.ticks io c
            (c.delay (onTicks io c b2 k).dma.2 + k) (b2.dma, b2.mem))).1
          mem := (E.tick io c (AvsIn.write 1 1) (E.ticks io c
            (c.delay (onTicks io c b2 k).dma.2 + k) (b2.dma, b2.mem))).2 } := by
      have haddr : regAddress SelfTest.regStatus = 1 := by decide
      simp only [Board.iowr32Direct, dmaHardware, haddr, onTicks, ticks_add]
    rw [hack]
    exact ⟨hrest', hconfig, by rw [hiowr]; exact hwindow, hjob⟩

end Program

end BurstSystem
end VideoProcessing
