import VideoProcessing.Burst.Completion
import VideoProcessing.Lib.Copying

/-!
# The engines on a memory

`BurstSystem.stepOn` puts a memory behind the two masters of an engine: a word comes back
as memory holds it in the cycle of its return, a taken beat is stored.  The bus still
chooses the stalls and the cycles of the replies.

* `memory_runOn`: over any run of a disciplined software memory is what the completed
  transfers leave one after the other (`Lib.Job.perform`), with the first words of the
  transfer in progress, as long as no transfer is started that overwrites words it has
  still to read;
* `completes`: under fair slaves a started transfer completes, and then memory is what the
  transfer is for.

Both are proved for any engine and stated for the two of this design.
-/

namespace VideoProcessing

open Lib

/-- What software and the slaves do in one cycle, but for the word that comes back. -/
structure BusCycle where
  avs : AvsIn
  rmWaitrequest : Bool
  replies : Bool
  wmWaitrequest : Bool

/-- The cycle brings what a transfer waits for. -/
def BusNeed.MetOn : BusNeed → BusCycle → Prop
  | .command, b => b.rmWaitrequest = false
  | .reply, b => b.replies = true
  | .beat, b => b.wmWaitrequest = false

/-- The words of a transfer that applies `f`. -/
def Transfer.job (T : Transfer) (f : BitVec 32 → BitVec 32) :
    Job (BitVec 32) (BitVec 32) where
  src i := T.src + 4 * BitVec.ofNat 32 i
  dst i := T.dst + 4 * BitVec.ofNat 32 i
  op := f
  len := T.words

namespace BurstSystem

variable (E : BurstSystem) {M : Type} (io : Ports M (BitVec 32) (BitVec 32))

/-- The cycle of the bus when the read slave answers from memory. -/
def cycle (x : E.State × M) (b : BusCycle) : BurstCycle :=
  let c : BurstCycle := ⟨b.avs, b.rmWaitrequest, none, b.wmWaitrequest⟩
  { c with
    ret := if b.replies then some (io.fetch x.2 (((E.bus x.1).available c).headD 0)) else none }

/-- One clock cycle of the engine and the memory. -/
def stepOn (x : E.State × M) (b : BusCycle) : E.State × M :=
  (E.step x.1 (E.cycle io x b),
    if (E.bus x.1).takesBeat (E.cycle io x b) then
      io.put x.2 (E.bus x.1).beatAddr (E.wmWritedata x.1)
    else x.2)

/-- The words that a Start command orders. -/
def job (s : E.State) : Job (BitVec 32) (BitVec 32) where
  src i := (E.bus s).ctl.csr.ctrlSrcAddr + 4 * BitVec.ofNat 32 i
  dst i := (E.bus s).ctl.csr.ctrlDstAddr + 4 * BitVec.ofNat 32 i
  op := E.op s
  len := (E.bus s).ctl.csr.ctrlLen.toNat / 4

/-- The jobs started over a log, in order. -/
def jobs (l : List ((E.State × M) × BusCycle)) : List (Job (BitVec 32) (BitVec 32)) :=
  l.flatMap fun p => if p.2.avs.start then [E.job p.1.1] else []

/-- The completion pulses over a log. -/
def completions (l : List ((E.State × M) × BusCycle)) : Nat :=
  l.countP fun p => (E.bus p.1.1).ctl.wm.internalDonePulse

/-- The discipline of a software that also starts no transfer which overwrites words it
has still to read. -/
def Orderly (x : E.State × M) (b : BusCycle) : Prop :=
  BurstBus.Disciplined (E.bus x.1).ctl b.avs ∧ (b.avs.start = true → (E.job x.1).Safe io)

/-- In the transfer `T` that began when memory was `mem0`. -/
structure CopyingOn (T : Transfer) (f : BitVec 32 → BitVec 32) (mem0 : M) (x : E.State × M)
    (ws : List (BitVec 32)) (q m : Nat) : Prop where
  active : E.Active T f x.1 ws q m
  underway : Job.Underway io (T.job f) mem0 x.2 ws m

variable {E io} {x : E.State × M} {b : BusCycle} {T : Transfer} {f : BitVec 32 → BitVec 32}
  {mem0 : M} {ws : List (BitVec 32)} {q m : Nat}

theorem job_ofCsr {s : E.State} (hp : BurstBus.Programmed (E.bus s).ctl.csr) :
    (Transfer.ofCsr (E.bus s).ctl.csr hp).job (E.op s) = E.job s := rfl

/-- The word that comes back is the one in memory. -/
theorem returned_cycle {a d : BitVec 32}
    (h : (E.bus x.1).returned (E.cycle io x b) = some (a, d)) : d = io.fetch x.2 a := by
  have havail : (E.bus x.1).available (E.cycle io x b) =
      (E.bus x.1).available ⟨b.avs, b.rmWaitrequest, none, b.wmWaitrequest⟩ := rfl
  rw [BurstBus.returned, havail] at h
  cases hl : (E.bus x.1).available ⟨b.avs, b.rmWaitrequest, none, b.wmWaitrequest⟩ with
  | nil =>
      rw [hl] at h
      exact absurd h (by simp)
  | cons a' l =>
      simp only [hl, cycle] at h
      cases hr : b.replies with
      | false =>
          rw [hr] at h
          exact absurd h (by simp)
      | true =>
          rw [hr] at h
          obtain ⟨rfl, rfl⟩ := Prod.mk.inj (Option.some.inj h)
          rfl

/-- The returned word is the next one of the job. -/
theorem CopyingOn.read (h : E.CopyingOn io T f mem0 x ws q m) (hsafe : (T.job f).Safe io)
    (hd : (E.bus x.1).ctl.wm.internalDonePulse = false)
    (hdisc : BurstBus.Disciplined (E.bus x.1).ctl b.avs) :
    Job.Underway io (T.job f) mem0 x.2
      (ws ++ (((E.bus x.1).returned (E.cycle io x b)).map Prod.snd).toList) m := by
  have hreader := (E.transfer T f x.1 ws q m h.active).reader
  have hnext := E.active_step T f x.1 ws q m (E.cycle io x b) h.active hd hdisc
  have hq := (E.transfer T f _ _ _ _ hnext).reader.q_le
  rcases hreader.returned (E.cycle io x b) with hnone | ⟨hlt, d, hsome⟩
  · rw [hnone]
    simpa using h.underway
  · have hd := returned_cycle hsome
    rw [hsome, hd]
    exact h.underway.read hsafe (Nat.lt_of_lt_of_le hlt hq)

/-- One cycle of a transfer before its completion pulse. -/
theorem CopyingOn.step (h : E.CopyingOn io T f mem0 x ws q m) (hsafe : (T.job f).Safe io)
    (hd : (E.bus x.1).ctl.wm.internalDonePulse = false)
    (hdisc : BurstBus.Disciplined (E.bus x.1).ctl b.avs) :
    E.CopyingOn io T f mem0 (E.stepOn io x b)
      (ws ++ (((E.bus x.1).returned (E.cycle io x b)).map Prod.snd).toList)
      (q + (E.bus x.1).commandedWords (E.cycle io x b))
      (m + ((E.bus x.1).takesBeat (E.cycle io x b)).toNat) := by
  refine ⟨E.active_step T f x.1 ws q m (E.cycle io x b) h.active hd hdisc, ?_⟩
  have hread := h.read hsafe hd hdisc
  rw [stepOn]
  cases hbeat : (E.bus x.1).takesBeat (E.cycle io x b) with
  | false => exact hread
  | true =>
      obtain ⟨p, hp⟩ := (E.transfer T f x.1 ws q m h.active).writer
      have hword := E.active_beat T f x.1 ws q m (E.cycle io x b) h.active hbeat
      have hlt : m < ws.length := by
        by_contra hge
        rw [List.getElem?_eq_none (by omega)] at hword
        exact absurd hword (by simp)
      rw [if_pos rfl, (hp.beatAddr hbeat).1, Bool.toNat_true]
      refine hread.write ?_
      rw [List.getElem?_append_left hlt]
      exact hword

/-- A transfer that is complete has left its job in memory. -/
theorem CopyingOn.finish (h : E.CopyingOn io T f mem0 x ws q m)
    (hd : (E.bus x.1).ctl.wm.internalDonePulse = true)
    (hdisc : BurstBus.Disciplined (E.bus x.1).ctl b.avs) :
    E.Clean (E.stepOn io x b).1 ∧ (E.bus (E.stepOn io x b).1).ctl.csr.ctrlStart = false ∧
      x.2 = (T.job f).copied io mem0 (T.job f).len ∧ (E.stepOn io x b).2 = x.2 := by
  obtain ⟨-, -, hm, -, -, hbeat, hclean, hstart⟩ :=
    E.active_finish T f x.1 ws q m (E.cycle io x b) h.active hd hdisc
  refine ⟨hclean, hstart, ?_, ?_⟩
  · rw [h.underway.mem, hm]
    rfl
  · rw [stepOn, hbeat]
    rfl

/-- A clean engine leaves memory alone. -/
theorem stepOn_clean (h : E.Clean x.1) : (E.stepOn io x b).2 = x.2 := by
  rw [stepOn, (E.quiet x.1 h).takesBeat]
  rfl

variable (io) in
/-- The start pulse opens the transfer that is programmed. -/
theorem copyingOn_start (h : E.Clean x.1) (hs : (E.bus x.1).ctl.csr.ctrlStart = true)
    (hp : BurstBus.Programmed (E.bus x.1).ctl.csr)
    (hdisc : BurstBus.Disciplined (E.bus x.1).ctl b.avs) :
    E.CopyingOn io (Transfer.ofCsr _ hp) (E.op x.1) x.2 (E.stepOn io x b) [] 0 0 := by
  refine ⟨E.step_start x.1 (E.cycle io x b) h hs hp hdisc, ?_⟩
  rw [stepOn_clean h]
  exact Job.underway_zero

/-- A Start command orders the job of its cycle. -/
theorem started_of_start (h : E.Clean x.1) (hidle : (E.bus x.1).ctl.csr.ctrlStart = false)
    (hs : b.avs.start = true) (hp : BurstBus.Programmed (E.bus x.1).ctl.csr) :
    E.Clean (E.stepOn io x b).1 ∧ (E.bus (E.stepOn io x b).1).ctl.csr.ctrlStart = true ∧
      BurstBus.Programmed (E.bus (E.stepOn io x b).1).ctl.csr ∧
      E.job (E.stepOn io x b).1 = E.job x.1 ∧ (E.stepOn io x b).2 = x.2 := by
  have hw := start_of_write (c := E.cycle io x b) hs
  obtain ⟨hp', hT⟩ := programmed_start (E := E) (s := x.1) (c := E.cycle io x b) hw hp
  refine ⟨E.step_none x.1 _ h hidle, ?_, hp', ?_, stepOn_clean h⟩
  · change (E.bus (E.step x.1 _)).ctl.csr.ctrlStart = true
    rw [E.csr_step, BurstCsr.step_ctrlStart]
    exact hs
  · change E.job (E.step x.1 (E.cycle io x b)) = E.job x.1
    rw [← job_ofCsr hp', ← job_ofCsr hp, hT, E.op_step x.1 _ hw]

/-- No Start command comes with a start pulse. -/
theorem no_start_of_pulse (hs : (E.bus x.1).ctl.csr.ctrlStart = true)
    (hdisc : BurstBus.Disciplined (E.bus x.1).ctl b.avs) : b.avs.start = false := by
  by_contra hstart
  rw [Bool.not_eq_false] at hstart
  obtain ⟨hw, haddr⟩ := AvsIn.of_start hstart
  rcases hdisc.1 hw with h1 | hquiet
  · rw [haddr] at h1
    exact absurd h1 (by decide)
  · exact absurd (hs.symm.trans hquiet.1) (by decide)

section Runs

variable (E io)

/-- Where a run is after the jobs `js` were started and `d` of them completed. -/
inductive PhaseOn (mem0 : M) (x : E.State × M) (js : List (Job (BitVec 32) (BitVec 32)))
    (d : Nat) : Prop
  | idle (clean : E.Clean x.1) (start : (E.bus x.1).ctl.csr.ctrlStart = false)
      (all : js.length = d) (mem : x.2 = Job.perform io js mem0)
  | started {done : List (Job (BitVec 32) (BitVec 32))} (clean : E.Clean x.1)
      (start : (E.bus x.1).ctl.csr.ctrlStart = true)
      (prog : BurstBus.Programmed (E.bus x.1).ctl.csr) (last : js = done ++ [E.job x.1])
      (others : done.length = d) (safe : (E.job x.1).Safe io)
      (mem : x.2 = Job.perform io done mem0)
  | copying {T : Transfer} {f : BitVec 32 → BitVec 32} {ws : List (BitVec 32)} {q m : Nat}
      {done : List (Job (BitVec 32) (BitVec 32))}
      (copy : E.CopyingOn io T f (Job.perform io done mem0) x ws q m)
      (last : js = done ++ [T.job f]) (others : done.length = d) (safe : (T.job f).Safe io)

variable {E io} {js : List (Job (BitVec 32) (BitVec 32))} {d : Nat}

/-- One cycle of an orderly software. -/
theorem PhaseOn.step (h : E.PhaseOn io mem0 x js d) (hord : E.Orderly io x b) :
    E.PhaseOn io mem0 (E.stepOn io x b) (js ++ if b.avs.start then [E.job x.1] else [])
      (d + (E.bus x.1).ctl.wm.internalDonePulse.toNat) := by
  obtain ⟨hdisc, hsafe⟩ := hord
  cases h with
  | idle hclean hidle hall hmem =>
      rw [(E.quiet x.1 hclean).done, Bool.toNat_false, Nat.add_zero]
      cases hs : b.avs.start with
      | false =>
          rw [if_neg (by decide), List.append_nil]
          refine .idle (E.step_none x.1 _ hclean hidle) ?_ hall ((stepOn_clean hclean).trans hmem)
          change (E.bus (E.step x.1 _)).ctl.csr.ctrlStart = false
          rw [E.csr_step, BurstCsr.step_ctrlStart]
          exact hs
      | true =>
          obtain ⟨hclean', hstart', hp', hjob, hmem'⟩ :=
            started_of_start hclean hidle hs (hdisc.2 hs)
          rw [if_pos rfl, ← hjob]
          exact .started hclean' hstart' hp' rfl hall (by rw [hjob]; exact hsafe hs)
            (hmem'.trans hmem)
  | started hclean hstart hp hlast hothers hsafe' hmem =>
      rw [(E.quiet x.1 hclean).done, Bool.toNat_false, Nat.add_zero,
        no_start_of_pulse hstart hdisc, if_neg (by decide), List.append_nil]
      have hcopy := copyingOn_start io hclean hstart hp hdisc
      rw [hmem] at hcopy
      exact .copying hcopy hlast hothers hsafe'
  | copying hcopy hlast hothers hsafe' =>
      have hno : b.avs.start = false :=
        (E.transfer _ _ _ _ _ _ hcopy.active).no_start (c := E.cycle io x b) hdisc
      rw [hno, if_neg (by decide), List.append_nil]
      cases hd : (E.bus x.1).ctl.wm.internalDonePulse with
      | false => exact .copying (hcopy.step hsafe' hd hdisc) hlast hothers hsafe'
      | true =>
          obtain ⟨hclean, hstart, hmem, hsame⟩ := hcopy.finish hd hdisc
          refine .idle hclean hstart ?_ ?_
          · rw [hlast, List.length_append, hothers]
            rfl
          · rw [hsame, hmem, hlast, Job.perform_snoc]

/-- What a phase says about memory. -/
theorem PhaseOn.mem_eq (h : E.PhaseOn io mem0 x js d) :
    ∃ done current n, js = done ++ Option.toList current ∧ done.length = d ∧
      (∀ j ∈ current, n ≤ j.len) ∧
      x.2 = current.elim (Job.perform io done mem0)
        fun j => j.copied io (Job.perform io done mem0) n := by
  cases h with
  | idle _ _ hall hmem => exact ⟨js, none, 0, by simp, hall, by simp, hmem⟩
  | @started done _ _ _ hlast hothers _ hmem =>
      exact ⟨done, some (E.job x.1), 0, hlast, hothers, by simp, hmem⟩
  | @copying T f ws q m done hcopy hlast hothers _ =>
      have htr := E.transfer _ _ _ _ _ _ hcopy.active
      refine ⟨done, some (T.job f), m, hlast, hothers, ?_, hcopy.underway.mem⟩
      intro j hj
      rw [← Option.some.inj hj]
      exact Nat.le_trans hcopy.underway.le (Nat.le_trans htr.reader.n_le htr.reader.q_le)

/-- Over any orderly run memory is what the completed jobs left, with the first words of
the one in progress. -/
theorem memory_runOn {s₀ : E.State} (hclean : E.Clean s₀)
    (hidle : (E.bus s₀).ctl.csr.ctrlStart = false) (mem0 : M) (bs : List BusCycle)
    (hord : ∀ p ∈ log (E.stepOn io) (s₀, mem0) bs, E.Orderly io p.1 p.2) :
    ∃ done current n,
      E.jobs (log (E.stepOn io) (s₀, mem0) bs) = done ++ Option.toList current ∧
      done.length = E.completions (log (E.stepOn io) (s₀, mem0) bs) ∧
      (∀ j ∈ current, n ≤ j.len) ∧
      (run (E.stepOn io) (s₀, mem0) bs).2 = current.elim (Job.perform io done mem0)
        fun j => j.copied io (Job.perform io done mem0) n := by
  refine PhaseOn.mem_eq (log_invariant_of (P := fun x l => E.PhaseOn io mem0 x (E.jobs l)
    (E.completions l)) (.idle hclean hidle rfl rfl) ?_ bs (guarded_of_log hord))
  intro x l b h hord
  have hstep := h.step hord
  rw [jobs, List.flatMap_append, completions, List.countP_append]
  rw [List.flatMap_singleton, List.countP_singleton]
  cases hd : (E.bus x.1).ctl.wm.internalDonePulse <;> rw [hd] at hstep <;> exact hstep

end Runs

/-- Every state that a disciplined run on a memory meets is settled. -/
theorem settled_runOn {s₀ : E.State} (hclean : E.Clean s₀)
    (hidle : (E.bus s₀).ctl.csr.ctrlStart = false) (mem0 : M) (bs : List BusCycle)
    (hdisc : ∀ p ∈ log (E.stepOn io) (s₀, mem0) bs,
      BurstBus.Disciplined (E.bus p.1.1).ctl p.2.avs) :
    E.Settled (run (E.stepOn io) (s₀, mem0) bs).1 :=
  log_invariant_of (P := fun x _ => E.Settled x.1)
    (Or.inl ⟨hclean, fun hs => absurd (hs.symm.trans hidle) (by decide)⟩)
    (fun x _ b hs hd => hs.step (c := E.cycle io x b) hd) bs
    (guarded_of_log (G := fun (x : E.State × M) (b : BusCycle) =>
      BurstBus.Disciplined (E.bus x.1).ctl b.avs) hdisc)

section Completion

/-- The transfer makes progress on memory. -/
theorem progress (A : E.Advancing T) (hsafe : (T.job f).Safe io) :
    Progress (E.stepOn io) (fun x b => BurstBus.Disciplined (E.bus x.1).ctl b.avs) BusNeed.MetOn
      (fun _ x => (E.bus x.1).Needs) (fun g : Nat => g)
      (fun x => (E.bus x.1).ctl.wm.internalDonePulse = true)
      (fun g x => ∃ ws q m, E.CopyingOn io T f mem0 x ws q m ∧ A.gauge x.1 q ws.length m = g)
      A.bound where
  le_bound := by
    rintro g x ⟨ws, q, m, hcopy, rfl⟩
    exact A.le_bound f x.1 ws q m hcopy.active
  step := by
    rintro g x b ⟨ws, q, m, hcopy, rfl⟩ hd hdisc
    rw [Bool.not_eq_true] at hd
    have hlen : (ws ++ (((E.bus x.1).returned (E.cycle io x b)).map Prod.snd).toList).length =
        ws.length + ((E.bus x.1).returned (E.cycle io x b)).isSome.toNat := by
      cases (E.bus x.1).returned (E.cycle io x b) <;> simp
    refine ⟨_, ⟨_, _, _, hcopy.step hsafe hd hdisc, rfl⟩, ?_⟩
    rw [hlen]
    rcases A.advances f x.1 ws q m (E.cycle io x b) hcopy.active hd hdisc with
      hdone | hlt | ⟨heq, hsome, hkeep⟩
    · exact Or.inl hdone
    · exact Or.inr (Or.inl hlt)
    · refine Or.inr (Or.inr ⟨heq, hsome, fun k hk => ⟨(hkeep k hk).1, fun hmet => ?_⟩⟩)
      refine (hkeep k hk).2 ?_
      cases k with
      | command => exact hmet
      | beat => exact hmet
      | reply =>
          have hreplies : b.replies = true := hmet
          simp [BusNeed.Met, cycle, hreplies]

/-- After a start pulse the transfer completes under fair slaves, and leaves its job. -/
theorem completes_of_pulse (h : E.Clean x.1) (hs : (E.bus x.1).ctl.csr.ctrlStart = true)
    (hp : BurstBus.Programmed (E.bus x.1).ctl.csr) (A : E.Advancing (Transfer.ofCsr _ hp))
    (hsafe : (E.job x.1).Safe io) {bs : Nat → BusCycle} (hfair : Fair BusNeed.MetOn bs)
    (hdisc : ∀ t, BurstBus.Disciplined (E.bus (states (E.stepOn io) x bs t).1).ctl (bs t).avs) :
    ∃ t, (E.bus (states (E.stepOn io) x bs t).1).ctl.wm.internalDonePulse = true ∧
      (states (E.stepOn io) x bs t).2 = (E.job x.1).copied io x.2 (E.job x.1).len := by
  have hcopy := copyingOn_start io h hs hp (hdisc 0)
  obtain ⟨n, g, ⟨ws, q, m, hcopy', -⟩, hdone⟩ :=
    (progress A hsafe).reaches hfair hdisc (t := 1) ⟨[], 0, 0, hcopy, rfl⟩
  exact ⟨1 + n, hdone, (hcopy'.finish (b := bs (1 + n)) hdone (hdisc (1 + n))).2.2.1⟩

/-- A transfer that a disciplined software starts completes under fair slaves, and leaves
its job. -/
theorem completes (h : E.Settled x.1) (hstart : b.avs.start = true)
    (hord : E.Orderly io x b)
    (A : ∀ hp, E.Advancing (Transfer.ofCsr (E.bus x.1).ctl.csr hp)) {bs : Nat → BusCycle}
    (hfair : Fair BusNeed.MetOn bs)
    (hdisc : ∀ t, BurstBus.Disciplined
      (E.bus (states (E.stepOn io) (E.stepOn io x b) bs t).1).ctl (bs t).avs) :
    ∃ t,
      (E.bus (states (E.stepOn io) (E.stepOn io x b) bs t).1).ctl.wm.internalDonePulse = true ∧
      (states (E.stepOn io) (E.stepOn io x b) bs t).2 =
        (E.job x.1).copied io x.2 (E.job x.1).len := by
  obtain ⟨hclean, hidle⟩ := h.clean_of_start (c := E.cycle io x b) hord.1 hstart
  have hp := hord.1.2 hstart
  obtain ⟨hp', hT⟩ := programmed_start (E := E) (s := x.1) (c := E.cycle io x b)
    (start_of_write hstart) hp
  obtain ⟨hclean', hpulse, -, hjob, hmem⟩ :=
    started_of_start (b := b) hclean hidle hstart hp
  have A' :
      E.Advancing (Transfer.ofCsr (E.bus (E.step x.1 (E.cycle io x b))).ctl.csr hp') := by
    rw [hT]
    exact A hp
  have hdone := completes_of_pulse (x := E.stepOn io x b) hclean' hpulse hp' A'
    (by rw [hjob]; exact hord.2 hstart) hfair hdisc
  rwa [hjob, hmem] at hdone

end Completion

end BurstSystem
end VideoProcessing
