import Mathlib.Data.BitVec
import VideoProcessing.Lib.Counter
import VideoProcessing.Lib.Run

/-!
# The time stamps of the benchmarks

`get_total_cycles` puts a time together from two places: `alt_nticks`, which the
timer's interrupt increments once for each wrap, and a snapshot of the counter.
It reads `alt_nticks` before and after the snapshot and starts again when the two
differ.

A run interleaves clock cycles of the timer, executions of the interrupt handler
and the single accesses of one call after another.  The handler may come at any
time between a wrap and the next one.  While it has not come, `alt_nticks` is one
behind on both sides of the snapshot, and the two reads agree on a wrong value.
-/

namespace VideoProcessing

open Lib

/-- `TIMER_0_LOAD_VALUE`. -/
def timer0LoadValue : BitVec 32 := 49999

/-- What `get_total_cycles` makes of its `t1` and `snap`. -/
def getTotalCycles (t1 snap : BitVec 32) : BitVec 64 :=
  let cycles := t1.setWidth 64 * 50000
  cycles + (49999 - snap).setWidth 64

/-- The interval timer: the counter, the snapshot and the TO bit, which requests
the interrupt. -/
structure Timer where
  counter : BitVec 32
  snapshot : BitVec 32
  timeout : Bool

namespace Timer

/-- One clock cycle. -/
def tick (t : Timer) : Timer :=
  if t.counter = 0 then { t with counter := timer0LoadValue, timeout := true }
  else { t with counter := t.counter - 1 }

/-- `IOWR_ALTERA_AVALON_TIMER_SNAPL`; the data is not used. -/
def iowrSnapl (t : Timer) : Timer := { t with snapshot := t.counter }

/-- `IORD_ALTERA_AVALON_TIMER_SNAPL`. -/
def iordSnapl (t : Timer) : BitVec 32 := (t.snapshot.extractLsb' 0 16).setWidth 32

/-- `IORD_ALTERA_AVALON_TIMER_SNAPH`. -/
def iordSnaph (t : Timer) : BitVec 32 := (t.snapshot.extractLsb' 16 16).setWidth 32

/-- `IOWR_ALTERA_AVALON_TIMER_STATUS(base, 0)`. -/
def iowrStatus (t : Timer) : Timer := { t with timeout := false }

/-- The two halves of the snapshot. -/
theorem halves (t : Timer) : (t.iordSnaph <<< 16) ||| t.iordSnapl = t.snapshot := by
  ext i hi
  simp only [iordSnaph, iordSnapl, BitVec.getElem_or, BitVec.getElem_shiftLeft,
    BitVec.getElem_setWidth, BitVec.getLsbD_extractLsb']
  by_cases hlow : i < 16
  · simp [hlow, hi]
  · have hi' : i - 16 < 16 := by omega
    have hback : 16 + (i - 16) = i := by omega
    simp [hlow, hi', hback, hi]

end Timer

namespace CycleCounter

/-- The accesses of one attempt, in their order. -/
inductive Access
  | nticksBefore
  | iowrSnapl
  | iordSnapl
  | iordSnaph
  | nticksAfter
deriving DecidableEq

/-- A point in time: the wraps so far, the executions of the handler so far, and
the counter. -/
structure Instant where
  wraps : Nat
  served : Nat
  counter : BitVec 32
deriving DecidableEq

/-- The cycles since reset. -/
def Instant.cycles (t : Instant) : Nat := 50000 * t.wraps + (49999 - t.counter.toNat)

/-- A wrap waits for its handler. -/
def Instant.Pending (t : Instant) : Prop := t.served < t.wraps

instance (t : Instant) : Decidable t.Pending := inferInstanceAs (Decidable (_ < _))

/-- The timer, `_alt_nticks`, and the next access of the call with its locals.  The
last four fields are history, which no access reads: the wraps, the executions of
the handler, their number when the attempt read `t1`, and when the snapshot was
taken. -/
structure State where
  timer : Timer
  nticks : BitVec 32
  next : Access
  t1 : BitVec 32
  low : BitVec 32
  snap : BitVec 32
  wraps : Nat
  served : Nat
  started : Nat
  snapped : Instant

/-- What can happen next. -/
inductive Event
  | timer
  | isr
  | access
deriving DecidableEq

/-- A returned value, with the instant of the accepted snapshot. -/
structure Stamp where
  value : BitVec 64
  instant : Instant
deriving DecidableEq

namespace State

/-- The present instant. -/
def now (s : State) : Instant := ⟨s.wraps, s.served, s.timer.counter⟩

/-- One clock cycle of the timer. -/
def timerStep (s : State) : State :=
  { s with
    timer := s.timer.tick
    wraps := if s.timer.counter = 0 then s.wraps + 1 else s.wraps }

/-- `alt_avalon_timer_sc_irq`, which runs when the interrupt is requested. -/
def isr (s : State) : State :=
  if s.timer.timeout then
    { s with timer := s.timer.iowrStatus, nticks := s.nticks + 1, served := s.served + 1 }
  else s

/-- The next access of `get_total_cycles`, or the first one of its next attempt or call. -/
def access (s : State) : State :=
  match s.next with
  | .nticksBefore => { s with t1 := s.nticks, next := .iowrSnapl, started := s.served }
  | .iowrSnapl => { s with timer := s.timer.iowrSnapl, next := .iordSnapl, snapped := s.now }
  | .iordSnapl => { s with low := s.timer.iordSnapl, next := .iordSnaph }
  | .iordSnaph => { s with snap := (s.timer.iordSnaph <<< 16) ||| s.low, next := .nticksAfter }
  | .nticksAfter => { s with next := .nticksBefore }

/-- One event. -/
def step (s : State) : Event → State
  | .timer => s.timerStep
  | .isr => s.isr
  | .access => s.access

/-- The value with which a call returns: its last access has found `t1 = t2`. -/
def returned (s : State) : Event → Option Stamp
  | .access =>
      if s.next = .nticksAfter ∧ s.t1 = s.nticks then
        some ⟨getTotalCycles s.t1 s.snap, s.snapped⟩
      else none
  | _ => none

end State

open State

/-- After reset, before the first call. -/
def reset : State where
  timer := ⟨timer0LoadValue, 0, false⟩
  nticks := 0
  next := .nticksBefore
  t1 := 0
  low := 0
  snap := 0
  wraps := 0
  served := 0
  started := 0
  snapped := ⟨0, 0, timer0LoadValue⟩

/-- What the calls of a run have returned, in order. -/
def returns (es : List Event) : List Stamp :=
  (log step reset es).filterMap fun p => p.1.returned p.2

/-- The handler has run before the next wrap. -/
def IsrInTime (es : List Event) : Prop :=
  ∀ p ∈ log step reset es, p.2 = .timer → p.1.timer.counter = 0 → p.1.timer.timeout = false

/-- Every call returns the time of its accepted snapshot, and no call returns less
than the one before. -/
structure Consistent (es : List Event) : Prop where
  exact : ∀ r ∈ returns es, r.value.toNat = r.instant.cycles
  monotone : (returns es).Pairwise fun r r' => r.value.toNat ≤ r'.value.toNat

/-- An attempt that takes its snapshot while a wrap waits for its handler is
interrupted by a handler before it reads `alt_nticks` again. -/
def InterruptedIfPending (es : List Event) : Prop :=
  ∀ p ∈ log step reset es, p.2 = .access → p.1.next = .nticksAfter → p.1.snapped.Pending →
    p.1.started < p.1.served

section Timer

variable {s : State}

/-- The counter reloads. -/
theorem timerStep_wrap (hzero : s.timer.counter = 0) :
    s.timerStep =
      { s with
        timer := { s.timer with counter := timer0LoadValue, timeout := true }
        wraps := s.wraps + 1 } := by
  rw [timerStep, Timer.tick, if_pos hzero, if_pos hzero]

/-- The counter counts down. -/
theorem timerStep_count (hzero : s.timer.counter ≠ 0) :
    s.timerStep = { s with timer := { s.timer with counter := s.timer.counter - 1 } } := by
  rw [timerStep, Timer.tick, if_neg hzero, if_neg hzero]

theorem toNat_sub_one {x : BitVec 32} (hx : x ≠ 0) : (x - 1).toNat + 1 = x.toNat := by
  have hpos : x.toNat ≠ 0 := fun h0 => hx (BitVec.eq_of_toNat_eq h0)
  have hone : (1 : BitVec 32).toNat = 1 := rfl
  rw [BitVec.toNat_sub, hone]
  omega

/-- Only the timer moves the counter and the wraps. -/
@[simp] theorem counter_isr : s.isr.timer.counter = s.timer.counter := by
  rw [State.isr]
  split <;> rfl

@[simp] theorem wraps_isr : s.isr.wraps = s.wraps := by
  rw [State.isr]
  split <;> rfl

@[simp] theorem counter_access : s.access.timer.counter = s.timer.counter := by
  rw [State.access]
  split <;> rfl

@[simp] theorem wraps_access : s.access.wraps = s.wraps := by
  rw [State.access]
  split <;> rfl

/-- The counter stays in its range, whatever the schedule. -/
theorem counter_le_step (h : s.timer.counter.toNat ≤ 49999) (e : Event) :
    (s.step e).timer.counter.toNat ≤ 49999 := by
  cases e with
  | timer =>
      change s.timerStep.timer.counter.toNat ≤ 49999
      by_cases hzero : s.timer.counter = 0
      · have hload : timer0LoadValue.toNat ≤ 49999 := by decide
        rw [timerStep_wrap hzero]
        exact hload
      · have hdown := toNat_sub_one hzero
        have hle : (s.timer.counter - 1).toNat ≤ 49999 := by omega
        rw [timerStep_count hzero]
        exact hle
  | isr => rwa [step, counter_isr]
  | access => rwa [step, counter_access]

/-- Wraps are counted up. -/
theorem wraps_le_step (s : State) (e : Event) : s.wraps ≤ (s.step e).wraps := by
  cases e with
  | timer =>
      change s.wraps ≤ if s.timer.counter = 0 then s.wraps + 1 else s.wraps
      split <;> omega
  | isr => exact wraps_isr.ge
  | access => exact wraps_access.ge

/-- Only clock cycles take time. -/
theorem cycles_step (h : s.timer.counter.toNat ≤ 49999) (e : Event) :
    (s.step e).now.cycles = s.now.cycles + if e = .timer then 1 else 0 := by
  cases e with
  | timer =>
      change s.timerStep.now.cycles = s.now.cycles + 1
      by_cases hzero : s.timer.counter = 0
      · have hload : timer0LoadValue.toNat = 49999 := by decide
        have h0 : (0 : BitVec 32).toNat = 0 := rfl
        rw [timerStep_wrap hzero]
        simp only [Instant.cycles, now, hzero, hload]
        omega
      · have hdown := toNat_sub_one hzero
        rw [timerStep_count hzero]
        simp only [Instant.cycles, now]
        omega
  | isr => simp [step, Instant.cycles, now]
  | access => simp [step, Instant.cycles, now]

end Timer

section Invariant

/-- The part of the invariant about the attempt in progress once the snapshot is
taken. -/
structure Latched (s : State) : Prop where
  t1_eq : s.t1 = BitVec.ofNat 32 s.started
  started_le : s.started ≤ s.snapped.served
  served_le : s.snapped.served ≤ s.served
  snapshot_eq : s.timer.snapshot = s.snapped.counter

/-- What the attempt in progress has seen. -/
def Attempt (s : State) : Prop :=
  match s.next with
  | .nticksBefore => True
  | .iowrSnapl => s.t1 = BitVec.ofNat 32 s.started ∧ s.started ≤ s.served
  | .iordSnapl => Latched s
  | .iordSnaph => Latched s ∧ s.low = s.timer.iordSnapl
  | .nticksAfter => Latched s ∧ s.snap = s.snapped.counter

/-- An instant that a run can show. -/
structure Instant.Valid (t : Instant) : Prop where
  counter_le : t.counter.toNat ≤ 49999
  served_le : t.served ≤ t.wraps
  wraps_le : t.wraps ≤ t.served + 1

/-- The invariant. -/
structure Inv (s : State) : Prop where
  counter_le : s.timer.counter.toNat ≤ 49999
  wraps_eq : s.wraps = s.served + s.timer.timeout.toNat
  nticks_eq : s.nticks = BitVec.ofNat 32 s.served
  snapped : s.snapped.Valid
  attempt : Attempt s

/-- What happens beside the program only adds executions of the handler. -/
theorem Attempt.mono {s s' : State} (h : Attempt s) (hnext : s'.next = s.next)
    (ht1 : s'.t1 = s.t1) (hlow : s'.low = s.low) (hsnap : s'.snap = s.snap)
    (hstarted : s'.started = s.started) (hsnapped : s'.snapped = s.snapped)
    (hsnapshot : s'.timer.snapshot = s.timer.snapshot) (hserved : s.served ≤ s'.served) :
    Attempt s' := by
  have hlatched : Latched s → Latched s' := by
    intro hl
    exact ⟨by rw [ht1, hstarted]; exact hl.t1_eq, by rw [hstarted, hsnapped]; exact hl.started_le,
      by rw [hsnapped]; exact hl.served_le.trans hserved,
      by rw [hsnapshot, hsnapped]; exact hl.snapshot_eq⟩
  rw [Attempt, hnext]
  rw [Attempt] at h
  cases hn : s.next with
  | nticksBefore => trivial
  | iowrSnapl =>
      rw [hn] at h
      exact ⟨by rw [ht1, hstarted]; exact h.1, by rw [hstarted]; exact h.2.trans hserved⟩
  | iordSnapl =>
      rw [hn] at h
      exact hlatched h
  | iordSnaph =>
      rw [hn] at h
      refine ⟨hlatched h.1, ?_⟩
      rw [hlow, h.2, Timer.iordSnapl, Timer.iordSnapl, hsnapshot]
  | nticksAfter =>
      rw [hn] at h
      exact ⟨hlatched h.1, by rw [hsnap, hsnapped]; exact h.2⟩

theorem inv_reset : Inv reset where
  counter_le := by decide
  wraps_eq := rfl
  nticks_eq := rfl
  snapped := ⟨by decide, Nat.le_refl _, Nat.zero_le _⟩
  attempt := trivial

theorem Inv.now_valid {s : State} (h : Inv s) : s.now.Valid := by
  have hwraps := h.wraps_eq
  have hto : s.timer.timeout.toNat ≤ 1 := Bool.toNat_le _
  exact ⟨h.counter_le, by simp only [now]; omega, by simp only [now]; omega⟩

/-- A clock cycle; a wrap finds the last one served. -/
theorem Inv.timerStep {s : State} (h : Inv s)
    (hisr : s.timer.counter = 0 → s.timer.timeout = false) : Inv s.timerStep := by
  have hle : s.timerStep.timer.counter.toNat ≤ 49999 := counter_le_step h.counter_le .timer
  by_cases hzero : s.timer.counter = 0
  · rw [timerStep_wrap hzero] at hle ⊢
    have hwraps := h.wraps_eq
    rw [hisr hzero] at hwraps
    exact ⟨hle, congrArg (· + 1) hwraps, h.nticks_eq, h.snapped,
      h.attempt.mono rfl rfl rfl rfl rfl rfl rfl (Nat.le_refl _)⟩
  · rw [timerStep_count hzero] at hle ⊢
    exact ⟨hle, h.wraps_eq, h.nticks_eq, h.snapped,
      h.attempt.mono rfl rfl rfl rfl rfl rfl rfl (Nat.le_refl _)⟩

/-- An execution of the handler. -/
theorem Inv.isr {s : State} (h : Inv s) : Inv s.isr := by
  rw [State.isr]
  split
  · rename_i hto
    have hwraps := h.wraps_eq
    rw [hto] at hwraps
    refine ⟨h.counter_le, hwraps, ?_, h.snapped,
      h.attempt.mono rfl rfl rfl rfl rfl rfl rfl (Nat.le_succ _)⟩
    rw [h.nticks_eq, BitVec.ofNat_add]
    rfl
  · exact h

/-- An access of the program. -/
theorem Inv.access {s : State} (h : Inv s) : Inv s.access := by
  have hattempt := h.attempt
  rw [Attempt] at hattempt
  rw [State.access]
  cases hn : s.next with
  | nticksBefore =>
      exact ⟨h.counter_le, h.wraps_eq, h.nticks_eq, h.snapped, h.nticks_eq, Nat.le_refl _⟩
  | iowrSnapl =>
      rw [hn] at hattempt
      exact ⟨h.counter_le, h.wraps_eq, h.nticks_eq, h.now_valid,
        ⟨hattempt.1, hattempt.2, Nat.le_refl _, rfl⟩⟩
  | iordSnapl =>
      rw [hn] at hattempt
      exact ⟨h.counter_le, h.wraps_eq, h.nticks_eq, h.snapped,
        ⟨hattempt.t1_eq, hattempt.started_le, hattempt.served_le, hattempt.snapshot_eq⟩, rfl⟩
  | iordSnaph =>
      rw [hn] at hattempt
      obtain ⟨hl, hlow⟩ := hattempt
      refine ⟨h.counter_le, h.wraps_eq, h.nticks_eq, h.snapped,
        ⟨hl.t1_eq, hl.started_le, hl.served_le, hl.snapshot_eq⟩, ?_⟩
      simp only [hlow, Timer.halves, hl.snapshot_eq]
  | nticksAfter =>
      exact ⟨h.counter_le, h.wraps_eq, h.nticks_eq, h.snapped, trivial⟩

/-- The invariant holds in every state of a run. -/
theorem inv_of_mem_log {es : List Event} (hisr : IsrInTime es) :
    ∀ p ∈ log step reset es, Inv p.1 := by
  have hguard : Guarded (fun _ s e => e = Event.timer → s.timer.counter = 0 →
      s.timer.timeout = false) step reset es := guarded_of_log hisr
  have hinv : ∀ es', Guarded (fun _ s e => e = Event.timer → s.timer.counter = 0 →
      s.timer.timeout = false) step reset es' → Inv (run step reset es') := by
    intro es' hg
    refine log_invariant_of (P := fun s _ => Inv s) inv_reset ?_ es' hg
    intro s l e hs hok
    cases e with
    | timer => exact hs.timerStep (hok rfl)
    | isr => exact hs.isr
    | access => exact hs.access
  intro p hp
  obtain ⟨pre, post, hes, hp⟩ := (mem_log_iff step reset es p).1 hp
  rw [hp]
  refine hinv pre ?_
  rw [hes] at hguard
  exact hguard.prefix

end Invariant

section Time

/-- A return is the last access of an attempt whose two reads agree. -/
theorem returned_eq_some {s : State} {e : Event} {r : Stamp} :
    s.returned e = some r ↔
      e = .access ∧ s.next = .nticksAfter ∧ s.t1 = s.nticks ∧
        ⟨getTotalCycles s.t1 s.snap, s.snapped⟩ = r := by
  cases e with
  | timer => simp [returned]
  | isr => simp [returned]
  | access => simp [returned, and_assoc]

/-- The snapshots behind the returned values, in the order of the returns. -/
structure Ordered (s : State) (l : List (State × Event)) : Prop where
  counter_le : s.timer.counter.toNat ≤ 49999
  snapped_le : s.snapped.cycles ≤ s.now.cycles
  stamps_le : ∀ r ∈ l.filterMap fun p => p.1.returned p.2, r.instant.cycles ≤ s.snapped.cycles
  sorted : (l.filterMap fun p => p.1.returned p.2).Pairwise
    fun r r' => r.instant.cycles ≤ r'.instant.cycles

/-- The last snapshot is the one before, or the present instant. -/
theorem snapped_step (s : State) (e : Event) :
    ((s.step e).snapped = s.snapped) ∨
      ((s.step e).snapped = s.now ∧ s.returned e = none) := by
  cases e with
  | timer => exact Or.inl rfl
  | isr =>
      left
      change s.isr.snapped = s.snapped
      rw [State.isr]
      split <;> rfl
  | access =>
      cases hn : s.next with
      | iowrSnapl =>
          right
          simp [step, State.access, returned, hn]
      | nticksBefore => left; simp [step, State.access, hn]
      | iordSnapl => left; simp [step, State.access, hn]
      | iordSnaph => left; simp [step, State.access, hn]
      | nticksAfter => left; simp [step, State.access, hn]

/-- One event keeps the order. -/
theorem Ordered.step {s : State} {l : List (State × Event)} (h : Ordered s l) (e : Event) :
    Ordered (s.step e) (l ++ [(s, e)]) := by
  have hlater : s.now.cycles ≤ (s.step e).now.cycles := by
    rw [cycles_step h.counter_le]
    exact Nat.le_add_right _ _
  have hsnapped : s.snapped.cycles ≤ (s.step e).snapped.cycles ∧
      (s.step e).snapped.cycles ≤ s.now.cycles := by
    rcases snapped_step s e with hs | ⟨hs, -⟩
    · rw [hs]
      exact ⟨Nat.le_refl _, h.snapped_le⟩
    · rw [hs]
      exact ⟨h.snapped_le, Nat.le_refl _⟩
  have hnew : ∀ r, s.returned e = some r → r.instant = s.snapped := by
    intro r hr
    rw [← (returned_eq_some.1 hr).2.2.2]
  have hold : ∀ r ∈ l.filterMap fun p => p.1.returned p.2,
      r.instant.cycles ≤ (s.step e).snapped.cycles :=
    fun r hr => (h.stamps_le r hr).trans hsnapped.1
  refine ⟨counter_le_step h.counter_le e, hsnapped.2.trans hlater, ?_, ?_⟩
  · intro r hr
    rw [List.filterMap_append, List.mem_append] at hr
    rcases hr with hr | hr
    · exact hold r hr
    · obtain ⟨p, hp, hr⟩ := List.mem_filterMap.1 hr
      rw [List.mem_singleton] at hp
      subst hp
      rw [hnew r hr]
      exact hsnapped.1
  · rw [List.filterMap_append, List.pairwise_append]
    refine ⟨h.sorted, ?_, ?_⟩
    · cases hr : s.returned e <;> simp [hr]
    · intro r hr r' hr'
      obtain ⟨p, hp, hr'⟩ := List.mem_filterMap.1 hr'
      rw [List.mem_singleton] at hp
      subst hp
      rw [hnew r' hr']
      exact h.stamps_le r hr

/-- Later calls return the times of later snapshots. -/
theorem returns_sorted (es : List Event) :
    (returns es).Pairwise fun r r' => r.instant.cycles ≤ r'.instant.cycles :=
  (log_invariant (P := Ordered) ⟨by decide, by decide, by simp, by simp⟩
    (fun _ _ e h => h.step e) es).sorted

end Time

section Returns

/-- What the function computes, as a number. -/
theorem toNat_getTotalCycles {n : Nat} (hn : n < 2 ^ 32) {snap : BitVec 32}
    (hsnap : snap.toNat ≤ 49999) :
    (getTotalCycles (BitVec.ofNat 32 n) snap).toNat =
      50000 * n + (49999 - snap.toNat) := by
  have hsub : (49999 - snap).toNat = 49999 - snap.toNat := by
    rw [BitVec.toNat_sub]
    have hlit : (49999 : BitVec 32).toNat = 49999 := rfl
    omega
  have hlit : (50000 : BitVec 64).toNat = 50000 := rfl
  rw [getTotalCycles, BitVec.toNat_add, BitVec.toNat_mul, BitVec.toNat_setWidth,
    BitVec.toNat_setWidth, BitVec.toNat_ofNat, hsub, hlit, Nat.mod_eq_of_lt hn]
  omega

theorem wraps_le_run (s : State) (es : List Event) : s.wraps ≤ (run step s es).wraps :=
  run_invariant (P := fun t => s.wraps ≤ t.wraps) (Nat.le_refl _)
    (fun t e ht => ht.trans (wraps_le_step t e)) es

/-- In every state of a run there have been at most as many wraps as at its end. -/
theorem wraps_le_of_mem_log {es : List Event} {p : State × Event}
    (hp : p ∈ log step reset es) : p.1.wraps ≤ (run step reset es).wraps := by
  obtain ⟨pre, post, hes, hs⟩ := (mem_log_iff step reset es p).1 hp
  rw [hs, hes, run_append]
  exact wraps_le_run _ _

variable {s : State}

/-- The two reads agree exactly when no handler has run between them. -/
theorem Inv.reads_agree (h : Inv s) (hn : s.next = .nticksAfter)
    (hwraps : s.wraps < 2 ^ 32) :
    s.t1 = s.nticks ↔ s.started = s.served := by
  have hattempt := h.attempt
  rw [Attempt, hn] at hattempt
  have hl : Latched s := hattempt.1
  have hcount := h.wraps_eq
  have hle := hl.started_le.trans hl.served_le
  rw [hl.t1_eq, h.nticks_eq]
  exact Counter.ofNat_eq_iff hle (by omega)

/-- An accepted attempt returns the time of its snapshot, less one wrap if one was
waiting for its handler. -/
theorem Inv.value_add (h : Inv s) (hn : s.next = .nticksAfter) (hwraps : s.wraps < 2 ^ 32)
    (hagree : s.t1 = s.nticks) :
    (getTotalCycles s.t1 s.snap).toNat + (if s.snapped.Pending then 50000 else 0) =
      s.snapped.cycles := by
  have hserved : s.started = s.served := (h.reads_agree hn hwraps).1 hagree
  have hattempt := h.attempt
  rw [Attempt, hn] at hattempt
  obtain ⟨hl, hsnap⟩ := hattempt
  have hcount := h.wraps_eq
  have hat : s.snapped.served = s.started := by
    have hbefore := hl.started_le
    have hafter := hl.served_le
    omega
  have hvalid := h.snapped
  have hpending := hvalid.wraps_le
  have hserved_le := hvalid.served_le
  rw [hl.t1_eq, hsnap, toNat_getTotalCycles (by omega) hvalid.counter_le, Instant.cycles]
  by_cases hp : s.snapped.Pending
  · have hlt : s.snapped.served < s.snapped.wraps := hp
    rw [if_pos hp]
    omega
  · have hge : ¬ s.snapped.served < s.snapped.wraps := hp
    rw [if_neg hp]
    omega

end Returns

section Countdown

/-- Clock cycles up to the wrap. -/
theorem run_timer (n : Nat) (s : State) (hn : n ≤ s.timer.counter.toNat) :
    run step s (List.replicate n .timer) =
        { s with timer := { s.timer with counter := s.timer.counter - BitVec.ofNat 32 n } } ∧
      ∀ p ∈ log step s (List.replicate n .timer), p.1.timer.timeout = s.timer.timeout ∧
        p.2 = .timer := by
  induction n generalizing s with
  | zero => exact ⟨by simp, by simp⟩
  | succ n ih =>
      have hzero : s.timer.counter ≠ 0 := by
        intro h0
        have hnat : s.timer.counter.toNat = 0 := congrArg BitVec.toNat h0
        omega
      have hdown := toNat_sub_one hzero
      have hstep : s.step .timer =
          { s with timer := { s.timer with counter := s.timer.counter - 1 } } :=
        timerStep_count hzero
      have hleft : n ≤ (s.step .timer).timer.counter.toNat := by
        rw [hstep]
        change n ≤ (s.timer.counter - 1).toNat
        omega
      obtain ⟨hrun, hlog⟩ := ih (s.step .timer) hleft
      rw [List.replicate_succ, run_cons, log_cons, hrun]
      constructor
      · have hsub : s.timer.counter - BitVec.ofNat 32 (n + 1) =
            s.timer.counter - 1 - BitVec.ofNat 32 n := by
          rw [Nat.add_comm n 1, BitVec.ofNat_add, BitVec.sub_sub]
          rfl
        rw [hstep, hsub]
      · intro p hp
        rcases List.mem_cons.1 hp with rfl | hp
        · exact ⟨rfl, rfl⟩
        · have hsame := hlog p hp
          rwa [hstep] at hsame

/-- The cycles in which the counter runs down. -/
def toZero : List Event := List.replicate 49999 .timer

/-- The next clock cycle is a wrap. -/
def expiring : State := { reset with timer := ⟨0, 0, false⟩ }

theorem run_toZero (es : List Event) :
    run step reset (toZero ++ es) = run step expiring es := by
  obtain ⟨hrun, -⟩ := run_timer 49999 reset (by decide)
  have hat : run step reset toZero = expiring := hrun
  rw [run_append, hat]

/-- Nothing but clock cycles happens before. -/
theorem log_toZero (es : List Event) :
    ∃ l, log step reset (toZero ++ es) = l ++ log step expiring es ∧
      ∀ p ∈ l, p.1.timer.timeout = false ∧ p.2 = .timer := by
  obtain ⟨hrun, hlog⟩ := run_timer 49999 reset (by decide)
  have hat : run step reset toZero = expiring := hrun
  exact ⟨log step reset toZero, by rw [log_append, hat], hlog⟩

theorem isrInTime_toZero {es : List Event}
    (h : ∀ p ∈ log step expiring es, p.2 = .timer → p.1.timer.counter = 0 →
      p.1.timer.timeout = false) : IsrInTime (toZero ++ es) := by
  obtain ⟨l, hl, htimer⟩ := log_toZero es
  intro p hp he hzero
  rw [hl, List.mem_append] at hp
  rcases hp with hp | hp
  · exact (htimer p hp).1
  · exact h p hp he hzero

theorem returns_toZero (es : List Event) :
    returns (toZero ++ es) =
      (log step expiring es).filterMap fun p => p.1.returned p.2 := by
  obtain ⟨l, hl, htimer⟩ := log_toZero es
  have hnone : l.filterMap (fun p => p.1.returned p.2) = [] := by
    rw [List.filterMap_eq_nil_iff]
    intro p hp
    rw [(htimer p hp).2]
    rfl
  rw [returns, hl, List.filterMap_append, hnone, List.nil_append]

/-- The accesses of one attempt. -/
def attempt : List Event := List.replicate 5 .access

end Countdown

/-- When the handler meets its deadline and there are fewer than `2 ^ 32` wraps, the
calls of a run return consistent time stamps exactly when no attempt both takes its
snapshot while a wrap is waiting and ends before the handler of that wrap has run. -/
theorem consistent_iff (es : List Event) (hisr : IsrInTime es)
    (hticks : (run step reset es).wraps < 2 ^ 32) :
    Consistent es ↔ InterruptedIfPending es := by
  have hinv : ∀ p ∈ log step reset es, Inv p.1 ∧ p.1.wraps < 2 ^ 32 := fun p hp =>
    ⟨inv_of_mem_log hisr p hp, (wraps_le_of_mem_log hp).trans_lt hticks⟩
  constructor
  · intro h p hp he hn hpending
    obtain ⟨hs, hwraps⟩ := hinv p hp
    by_contra hnot
    have hattempt := hs.attempt
    rw [Attempt, hn] at hattempt
    have hl : Latched p.1 := hattempt.1
    have hagree : p.1.t1 = p.1.nticks := by
      have hle := hl.started_le.trans hl.served_le
      exact (hs.reads_agree hn hwraps).2 (by omega)
    have hmem : (⟨getTotalCycles p.1.t1 p.1.snap, p.1.snapped⟩ : Stamp) ∈ returns es :=
      List.mem_filterMap.2 ⟨p, hp, returned_eq_some.2 ⟨he, hn, hagree, rfl⟩⟩
    have hexact := h.exact _ hmem
    have hvalue := hs.value_add hn hwraps hagree
    rw [if_pos hpending] at hvalue
    simp only at hexact
    omega
  · intro h
    have hexact : ∀ r ∈ returns es, r.value.toNat = r.instant.cycles := by
      intro r hr
      obtain ⟨p, hp, hr⟩ := List.mem_filterMap.1 hr
      obtain ⟨he, hn, hagree, rfl⟩ := returned_eq_some.1 hr
      obtain ⟨hs, hwraps⟩ := hinv p hp
      have hserved := (hs.reads_agree hn hwraps).1 hagree
      have hnot : ¬ p.1.snapped.Pending := by
        intro hpending
        have hlate := h p hp he hn hpending
        omega
      have hvalue := hs.value_add hn hwraps hagree
      rwa [if_neg hnot, Nat.add_zero] at hvalue
    refine ⟨hexact, (returns_sorted es).imp_of_mem ?_⟩
    intro r r' hr hr' hle
    rw [hexact r hr, hexact r' hr']
    exact hle

/-- A call whose first snapshot is taken while a wrap waits; the handler runs before
`alt_nticks` is read again, and the second attempt returns the time. -/
def servedWrap : List Event :=
  toZero ++ ([.access, .timer, .access, .access, .access, .isr, .access] ++ attempt)

/-- The wrap is served between the two reads. -/
theorem consistent_iff_servedWrap :
    Consistent servedWrap ∧ returns servedWrap = [⟨50000, ⟨1, 1, 49999⟩⟩] := by
  have hisr : IsrInTime servedWrap := isrInTime_toZero (by decide)
  have hinterrupted : InterruptedIfPending servedWrap := by
    obtain ⟨l, hl, htimer⟩ := log_toZero
      ([.access, .timer, .access, .access, .access, .isr, .access] ++ attempt)
    have hcall : ∀ p ∈ log step expiring
        ([.access, .timer, .access, .access, .access, .isr, .access] ++ attempt),
        p.2 = .access → p.1.next = .nticksAfter → p.1.snapped.Pending →
          p.1.started < p.1.served := by
      decide
    intro p hp he
    rw [servedWrap, hl, List.mem_append] at hp
    rcases hp with hp | hp
    · exact absurd (he.symm.trans (htimer p hp).2) (by decide)
    · exact hcall p hp he
  have hwraps : (run step reset servedWrap).wraps < 2 ^ 32 := by
    rw [servedWrap, run_toZero]
    decide
  refine ⟨(consistent_iff servedWrap hisr hwraps).2 hinterrupted, ?_⟩
  rw [servedWrap, returns_toZero]
  decide

section LateHandler

/-- Two calls with one clock cycle, the wrap, between them; its handler has not run
yet. -/
def lateHandler : List Event := toZero ++ (attempt ++ (.timer :: attempt))

/-- The wrap at the end of the first 50000 cycles is not served before the second call
is over, which then returns 0 after the first one has returned 49999. -/
theorem stamp_goes_back :
    IsrInTime lateHandler ∧ (run step reset lateHandler).wraps < 2 ^ 32 ∧
      returns lateHandler = [⟨49999, ⟨0, 0, 0⟩⟩, ⟨0, ⟨1, 0, 49999⟩⟩] ∧
      ¬ Consistent lateHandler := by
  have hreturns : returns lateHandler = [⟨49999, ⟨0, 0, 0⟩⟩, ⟨0, ⟨1, 0, 49999⟩⟩] := by
    rw [lateHandler, returns_toZero]
    decide
  refine ⟨isrInTime_toZero (by decide), ?_, hreturns, ?_⟩
  · rw [lateHandler, run_toZero]
    decide
  · intro h
    have hlast := h.exact ⟨0, ⟨1, 0, 49999⟩⟩ (by rw [hreturns]; decide)
    exact absurd hlast (by decide)

end LateHandler

end CycleCounter
end VideoProcessing
