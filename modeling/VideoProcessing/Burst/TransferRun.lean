import VideoProcessing.Burst.InTransfer

/-!
# Whole transfers of an engine

`BurstSystem` collects what a burst engine has to show about single cycles: when
it is clean, what its data path holds during a transfer, and that a beat carries
the right word.  `BurstSystem.transfer_exact` makes of it a statement about any
sequence of transfers of a disciplined software.
-/

namespace VideoProcessing

open Lib

/-- An engine on the memory bus.  `Active T f s ws q m` says that `s` is in the
transfer `T`, applies `f` to every word, has `q` words commanded, the words `ws`
returned and `m` beats taken. -/
structure BurstSystem where
  State : Type
  step : State → BurstCycle → State
  bus : State → BurstBus
  wmWritedata : State → BitVec 32
  op : State → BitVec 32 → BitVec 32
  Clean : State → Prop
  Active : Transfer → (BitVec 32 → BitVec 32) → State → List (BitVec 32) → Nat → Nat → Prop
  csr_step : ∀ s c, (bus (step s c)).ctl.csr =
    (bus s).ctl.csr.step (bus s).ctl.wm.internalDonePulse c.avs
  op_step : ∀ s c, (c.avs.avsWrite = true → c.avs.avsAddress = 0 ∨ c.avs.avsAddress = 1) →
    op (step s c) = op s
  quiet : ∀ s, Clean s → Quiet (bus s)
  step_none : ∀ s c, Clean s → (bus s).ctl.csr.ctrlStart = false → Clean (step s c)
  step_start : ∀ s c, Clean s → (bus s).ctl.csr.ctrlStart = true →
    ∀ hp : BurstBus.Programmed (bus s).ctl.csr, BurstBus.Disciplined (bus s).ctl c.avs →
      Active (Transfer.ofCsr (bus s).ctl.csr hp) (op s) (step s c) [] 0 0
  transfer : ∀ T f s ws q m, Active T f s ws q m → InTransfer T (bus s) q ws.length m
  active_step : ∀ T f s ws q m c, Active T f s ws q m →
    (bus s).ctl.wm.internalDonePulse = false → BurstBus.Disciplined (bus s).ctl c.avs →
      Active T f (step s c) (ws ++ (((bus s).returned c).map Prod.snd).toList)
        (q + (bus s).commandedWords c) (m + ((bus s).takesBeat c).toNat)
  active_finish : ∀ T f s ws q m c, Active T f s ws q m →
    (bus s).ctl.wm.internalDonePulse = true → BurstBus.Disciplined (bus s).ctl c.avs →
      q = T.words ∧ ws.length = T.words ∧ m = T.words ∧
        (bus s).accepted c = none ∧ (bus s).returned c = none ∧
          (bus s).takesBeat c = false ∧ Clean (step s c) ∧
            (bus (step s c)).ctl.csr.ctrlStart = false
  active_beat : ∀ T f s ws q m c, Active T f s ws q m → (bus s).takesBeat c = true →
    (ws[m]?).map f = some (wmWritedata s)

namespace BurstSystem

variable (E : BurstSystem)

/-- What a log moved of the transfer `T`: it covered the first `q` addresses,
returned the words `ws` from the first addresses, and wrote the first `m` of
them. -/
structure Moved (T : Transfer) (f : BitVec 32 → BitVec 32)
    (l : List (E.State × BurstCycle)) (ws : List (BitVec 32)) (q m : Nat) : Prop where
  covered : BurstBus.covered E.bus l = wordAddrs T.src q
  addrs : (BurstBus.returns E.bus l).map Prod.fst = wordAddrs T.src ws.length
  words : (BurstBus.returns E.bus l).map Prod.snd = ws
  beats : BurstBus.beats E.bus E.wmWritedata l =
    (wordAddrs T.dst m).zip ((ws.map f).take m)
  m_le : m ≤ ws.length

/-- Every reachable state of a disciplined run is between transfers or in one. -/
def Settled (s : E.State) : Prop :=
  (E.Clean s ∧ ((E.bus s).ctl.csr.ctrlStart = true → BurstBus.Programmed (E.bus s).ctl.csr)) ∨
    ∃ T f ws q m, E.Active T f s ws q m

variable {E} {s : E.State} {c : BurstCycle}

/-- A start command does not change what is programmed. -/
theorem programmed_start
    (hw : c.avs.avsWrite = true → c.avs.avsAddress = 0 ∨ c.avs.avsAddress = 1)
    (hp : BurstBus.Programmed (E.bus s).ctl.csr) :
    ∃ hp' : BurstBus.Programmed (E.bus (E.step s c)).ctl.csr,
      Transfer.ofCsr (E.bus (E.step s c)).ctl.csr hp' =
        Transfer.ofCsr (E.bus s).ctl.csr hp := by
  obtain ⟨h1, h2, h3, h4, h5⟩ :=
    BurstCsr.step_config (E.bus s).ctl.csr (E.bus s).ctl.wm.internalDonePulse hw
  rw [← E.csr_step] at h1 h2 h3 h4 h5
  refine ⟨?_, ?_⟩
  · rw [BurstBus.Programmed, h3, h4, h5]
    exact hp
  · ext1
    · exact h1
    · exact h2
    · exact h3
    · exact h4
    · exact h5

theorem start_of_write (hs : c.avs.start = true) :
    c.avs.avsWrite = true → c.avs.avsAddress = 0 ∨ c.avs.avsAddress = 1 := by
  intro _
  exact Or.inl (AvsIn.of_start hs).2

theorem Settled.step (h : E.Settled s) (hdisc : BurstBus.Disciplined (E.bus s).ctl c.avs) :
    E.Settled (E.step s c) := by
  rcases h with ⟨hclean, hprog⟩ | ⟨T, f, ws, q, m, h⟩
  · cases hs : (E.bus s).ctl.csr.ctrlStart with
    | true => exact Or.inr ⟨_, _, _, _, _, E.step_start s c hclean hs (hprog hs) hdisc⟩
    | false =>
        left
        refine ⟨E.step_none s c hclean hs, ?_⟩
        intro hs'
        rw [E.csr_step, BurstCsr.step_ctrlStart] at hs'
        exact (programmed_start (start_of_write hs') (hdisc.2 hs')).1
  · cases hd : (E.bus s).ctl.wm.internalDonePulse with
    | false => exact Or.inr ⟨_, _, _, _, _, E.active_step T f s ws q m c h hd hdisc⟩
    | true =>
        left
        obtain ⟨_, _, _, _, _, _, hclean, hstart⟩ :=
          E.active_finish T f s ws q m c h hd hdisc
        refine ⟨hclean, fun hs => ?_⟩
        exact absurd (hs.symm.trans hstart) (by decide)

/-- Every state that a disciplined run meets is settled. -/
theorem settled_run {s₀ : E.State} (hclean : E.Clean s₀)
    (hidle : (E.bus s₀).ctl.csr.ctrlStart = false) (cs : List BurstCycle)
    (hdisc : ∀ p ∈ log E.step s₀ cs, BurstBus.Disciplined (E.bus p.1).ctl p.2.avs) :
    E.Settled (run E.step s₀ cs) :=
  log_invariant_of (P := fun s _ => E.Settled s)
    (Or.inl ⟨hclean, fun hs => absurd (hs.symm.trans hidle) (by decide)⟩)
    (fun _ _ _ hs hd => Settled.step hs hd) cs
    (guarded_of_log (G := fun s (c : BurstCycle) =>
      BurstBus.Disciplined (E.bus s).ctl c.avs) hdisc)

/-- A Start command of a disciplined software meets a clean engine. -/
theorem Settled.clean_of_start (h : E.Settled s)
    (hdisc : BurstBus.Disciplined (E.bus s).ctl c.avs) (hs : c.avs.start = true) :
    E.Clean s ∧ (E.bus s).ctl.csr.ctrlStart = false := by
  obtain ⟨hw, haddr⟩ := AvsIn.of_start hs
  have hquiet : BurstBus.Quiescent (E.bus s).ctl := by
    rcases hdisc.1 hw with h1 | h1
    · rw [haddr] at h1
      exact absurd h1 (by decide)
    · exact h1
  rcases h with ⟨hclean, _⟩ | ⟨T, f, ws, q, m, h⟩
  · exact ⟨hclean, hquiet.1⟩
  · exact absurd hquiet.2.1 (E.transfer T f s ws q m h).reader.state_ne_idle

section Moves

variable {T : Transfer} {f : BitVec 32 → BitVec 32} {l : List (E.State × BurstCycle)}
  {ws : List (BitVec 32)} {q m : Nat}

/-- A cycle that moves nothing. -/
theorem Moved.stay (h : E.Moved T f l ws q m) (hacc : (E.bus s).accepted c = none)
    (hret : (E.bus s).returned c = none) (hbeat : (E.bus s).takesBeat c = false) :
    E.Moved T f (l ++ [(s, c)]) ws q m := by
  refine ⟨?_, ?_, ?_, ?_, h.m_le⟩
  · simp [BurstBus.covered_snoc, h.covered, hacc]
  · simp [BurstBus.returns_snoc, h.addrs, hret]
  · simp [BurstBus.returns_snoc, h.words, hret]
  · simp [BurstBus.beats_snoc, h.beats, hbeat]

/-- A beat appends the next word. -/
theorem beats_next (hm : m ≤ ws.length) (hact : E.Active T f s ws q m)
    (new : List (BitVec 32)) :
    (wordAddrs T.dst m).zip ((ws.map f).take m) ++
        (if (E.bus s).takesBeat c then [((E.bus s).beatAddr, E.wmWritedata s)] else []) =
      (wordAddrs T.dst (m + ((E.bus s).takesBeat c).toNat)).zip
        (((ws ++ new).map f).take (m + ((E.bus s).takesBeat c).toNat)) := by
  cases hb : (E.bus s).takesBeat c with
  | false =>
      rw [Bool.toNat_false, Nat.add_zero, List.map_append,
        List.take_append_of_le_length (by simpa using hm)]
      simp
  | true =>
      obtain ⟨p, hp⟩ := (E.transfer T f s ws q m hact).writer
      obtain ⟨haddr, _⟩ := hp.beatAddr hb
      have hword := E.active_beat T f s ws q m c hact hb
      have hlt : m < ws.length := by
        by_contra hge
        rw [List.getElem?_eq_none (by omega)] at hword
        exact absurd hword (by simp)
      have htake : ((ws ++ new).map f).take (m + 1) =
          (ws.map f).take m ++ [E.wmWritedata s] := by
        rw [List.map_append,
          List.take_append_of_le_length (by rw [List.length_map]; exact hlt),
          List.take_add_one, List.getElem?_map, hword, Option.toList_some]
      rw [Bool.toNat_true, htake, wordAddrs_succ, if_pos rfl, haddr]
      rw [List.zip_append (by simp [Nat.min_eq_left hm])]
      rfl

/-- One cycle of a transfer, on the log. -/
theorem Moved.step (h : E.Moved T f l ws q m) (hact : E.Active T f s ws q m) :
    E.Moved T f (l ++ [(s, c)]) (ws ++ (((E.bus s).returned c).map Prod.snd).toList)
      (q + (E.bus s).commandedWords c) (m + ((E.bus s).takesBeat c).toNat) := by
  have htr := E.transfer T f s ws q m hact
  have hlen : (ws ++ (((E.bus s).returned c).map Prod.snd).toList).length =
      ws.length + ((E.bus s).returned c).isSome.toNat := by
    cases (E.bus s).returned c <;> simp
  refine ⟨?_, ?_, ?_, ?_, ?_⟩
  · rw [BurstBus.covered_snoc, h.covered, htr.reader.covered_next]
  · rw [BurstBus.returns_snoc, List.map_append, h.addrs, htr.reader.returned_next, hlen]
  · rw [BurstBus.returns_snoc, List.map_append, h.words]
    congr 1
    cases (E.bus s).returned c <;> rfl
  · rw [BurstBus.beats_snoc, h.beats]
    exact beats_next h.m_le hact _
  · rw [hlen]
    cases hb : (E.bus s).takesBeat c with
    | false =>
        have := h.m_le
        simp
        omega
    | true =>
        have hword := E.active_beat T f s ws q m c hact hb
        have hlt : m < ws.length := by
          by_contra hge
          rw [List.getElem?_eq_none (by omega)] at hword
          exact absurd hword (by simp)
        simp
        omega

end Moves

/-- Where a transfer is after a log: started and not taken yet, active, or
complete. -/
inductive Stage (T : Transfer) (f : BitVec 32 → BitVec 32) (s : E.State)
    (l : List (E.State × BurstCycle)) : List (BitVec 32) → Nat → Nat → Prop
  | started (clean : E.Clean s) (start : (E.bus s).ctl.csr.ctrlStart = true)
      (prog : ∃ hp, T = Transfer.ofCsr (E.bus s).ctl.csr hp) (op : f = E.op s)
      (quiet : ∀ p ∈ l, (E.bus p.1).ctl.wm.internalDonePulse = false) : Stage T f s l [] 0 0
  | active {ws : List (BitVec 32)} {q m : Nat} (act : E.Active T f s ws q m)
      (quiet : ∀ p ∈ l, (E.bus p.1).ctl.wm.internalDonePulse = false) : Stage T f s l ws q m
  | complete {ws : List (BitVec 32)} (clean : E.Clean s)
      (start : (E.bus s).ctl.csr.ctrlStart = false) (all : ws.length = T.words) :
      Stage T f s l ws T.words T.words

variable {T : Transfer} {f : BitVec 32 → BitVec 32}

/-- One cycle of a disciplined software that starts no other transfer. -/
theorem Stage.step {l : List (E.State × BurstCycle)} {ws : List (BitVec 32)} {q m : Nat}
    (h : Stage T f s l ws q m) (hmoved : E.Moved T f l ws q m)
    (hdisc : BurstBus.Disciplined (E.bus s).ctl c.avs) (hone : c.avs.start = false) :
    ∃ ws' q' m', Stage T f (E.step s c) (l ++ [(s, c)]) ws' q' m' ∧
      E.Moved T f (l ++ [(s, c)]) ws' q' m' := by
  have hlog : (∀ p ∈ l, (E.bus p.1).ctl.wm.internalDonePulse = false) →
      (E.bus s).ctl.wm.internalDonePulse = false →
      ∀ p ∈ l ++ [(s, c)], (E.bus p.1).ctl.wm.internalDonePulse = false := by
    intro hl hs p hp
    rcases List.mem_append.1 hp with hp | hp
    · exact hl p hp
    · rw [List.mem_singleton.1 hp]
      exact hs
  cases h with
  | started hclean hstart hprog hop hquiet =>
      obtain ⟨hp, hT⟩ := hprog
      have hq := E.quiet s hclean
      refine ⟨[], 0, 0, .active ?_ (hlog hquiet hq.done),
        hmoved.stay (hq.accepted c) (hq.returned c) (hq.takesBeat c)⟩
      rw [hT, hop]
      exact E.step_start s c hclean hstart hp hdisc
  | active hact hquiet =>
      cases hd : (E.bus s).ctl.wm.internalDonePulse with
      | false =>
          exact ⟨_, _, _, .active (E.active_step T f s ws q m c hact hd hdisc)
            (hlog hquiet hd), hmoved.step hact⟩
      | true =>
          obtain ⟨rfl, hn, rfl, hacc, hret, hbeat, hclean, hstart⟩ :=
            E.active_finish T f s ws q m c hact hd hdisc
          exact ⟨ws, _, _, .complete hclean hstart hn, hmoved.stay hacc hret hbeat⟩
  | complete hclean hstart hall =>
      have hq := E.quiet s hclean
      refine ⟨ws, _, _, .complete (E.step_none s c hclean hstart) ?_ hall,
        hmoved.stay (hq.accepted c) (hq.returned c) (hq.takesBeat c)⟩
      rw [E.csr_step, BurstCsr.step_ctrlStart, hone]

/-- In every stage the words that came back were commanded, and no more than the
transfer has. -/
theorem Stage.le_words {l : List (E.State × BurstCycle)} {ws : List (BitVec 32)}
    {q m : Nat} (h : Stage T f s l ws q m) : ws.length ≤ q ∧ q ≤ T.words := by
  cases h with
  | started _ _ _ _ _ => exact ⟨Nat.le_refl _, Nat.zero_le _⟩
  | active hact _ =>
      have hreader := (E.transfer _ _ _ _ _ _ hact).reader
      exact ⟨hreader.n_le, hreader.q_le⟩
  | complete _ _ hall => exact ⟨Nat.le_of_eq hall, Nat.le_refl _⟩

/-- Done rises only at a completion pulse, which ends the transfer. -/
theorem Stage.complete_of_done {l : List (E.State × BurstCycle)} {ws : List (BitVec 32)}
    {q m : Nat} (h : Stage T f s l ws q m)
    (hdone : ∃ p ∈ l, (E.bus p.1).ctl.DoneRises (E.bus (E.step p.1 p.2)).ctl) :
    m = T.words ∧ E.Clean s := by
  obtain ⟨p, hp, h0, h1⟩ := hdone
  rw [E.csr_step] at h1
  have hd := BurstCsr.step_ctrlDoneReg h0 h1
  cases h with
  | started _ _ _ _ hquiet => exact absurd (hd.symm.trans (hquiet p hp)) (by decide)
  | active _ hquiet => exact absurd (hd.symm.trans (hquiet p hp)) (by decide)
  | complete hcl _ _ => exact ⟨rfl, hcl⟩

/-- The stage of a transfer after every log that begins with its Start cycle. -/
theorem stage_run {s0 : E.State} {c0 : BurstCycle} (hclean0 : E.Clean s0)
    (hstart0 : (E.bus s0).ctl.csr.ctrlStart = false) (hstart : c0.avs.start = true)
    (hp : BurstBus.Programmed (E.bus s0).ctl.csr) (cs : List BurstCycle)
    (hdisc : ∀ p ∈ log E.step (E.step s0 c0) cs, BurstBus.Disciplined (E.bus p.1).ctl p.2.avs)
    (hone : ∀ c ∈ cs, c.avs.start = false) :
    ∃ ws q m,
      Stage (Transfer.ofCsr _ hp) (E.op s0) (run E.step (E.step s0 c0) cs)
        ([(s0, c0)] ++ log E.step (E.step s0 c0) cs) ws q m ∧
      E.Moved (Transfer.ofCsr _ hp) (E.op s0)
        ([(s0, c0)] ++ log E.step (E.step s0 c0) cs) ws q m := by
  have hq0 := E.quiet s0 hclean0
  obtain ⟨hp1, hT1⟩ := programmed_start (E := E) (s := s0) (start_of_write hstart) hp
  refine log_invariant_of
    (G := fun _ s (c : BurstCycle) =>
      BurstBus.Disciplined (E.bus s).ctl c.avs ∧ c.avs.start = false)
    (P := fun s l => ∃ ws q m,
      Stage (Transfer.ofCsr _ hp) (E.op s0) s ([(s0, c0)] ++ l) ws q m ∧
      E.Moved (Transfer.ofCsr _ hp) (E.op s0) ([(s0, c0)] ++ l) ws q m) ?_ ?_ cs ?_
  · refine ⟨[], 0, 0,
      .started (E.step_none s0 c0 hclean0 hstart0) ?_ ⟨hp1, hT1.symm⟩ ?_ ?_, ?_⟩
    · rw [E.csr_step, BurstCsr.step_ctrlStart, hstart]
    · exact (E.op_step s0 c0 (start_of_write hstart)).symm
    · intro p hp
      rw [List.append_nil, List.mem_singleton] at hp
      rw [hp]
      exact hq0.done
    · have hnil : E.Moved (Transfer.ofCsr _ hp) (E.op s0) [] [] 0 0 :=
        ⟨rfl, rfl, rfl, rfl, Nat.le_refl _⟩
      exact hnil.stay (hq0.accepted c0) (hq0.returned c0) (hq0.takesBeat c0)
  · rintro s l c ⟨ws, q, m, hstage, hmoved⟩ ⟨hd, ho⟩
    obtain ⟨ws', q', m', hstage', hmoved'⟩ := hstage.step hmoved hd ho
    rw [List.append_assoc] at hstage' hmoved'
    exact ⟨ws', q', m', hstage', hmoved'⟩
  · refine guarded_of_log
      (G := fun s (c : BurstCycle) =>
        BurstBus.Disciplined (E.bus s).ctl c.avs ∧ c.avs.start = false) ?_
    intro p hp
    refine ⟨hdisc p hp, ?_⟩
    obtain ⟨pre, post, hcs, _⟩ := (mem_log_iff _ _ _ _).1 hp
    exact hone p.2 (by rw [hcs]; simp)

/-- A transfer from its Start command on. -/
theorem transfer_exact {s₀ : E.State} (hclean : E.Clean s₀)
    (hidle : (E.bus s₀).ctl.csr.ctrlStart = false) (pre : List BurstCycle)
    (c0 : BurstCycle) (cs : List BurstCycle)
    (hdisc : ∀ p ∈ log E.step s₀ (pre ++ c0 :: cs),
      BurstBus.Disciplined (E.bus p.1).ctl p.2.avs) (hstart : c0.avs.start = true)
    (hone : ∀ c ∈ cs, c.avs.start = false) :
    ∃ hp : BurstBus.Programmed (E.bus (run E.step s₀ pre)).ctl.csr, ∃ ws q m,
      E.Moved (Transfer.ofCsr _ hp) (E.op (run E.step s₀ pre))
        (log E.step (run E.step s₀ pre) (c0 :: cs)) ws q m ∧
      m ≤ ws.length ∧ ws.length ≤ q ∧ q ≤ (Transfer.ofCsr _ hp).words ∧
      ((∃ p ∈ log E.step (run E.step s₀ pre) (c0 :: cs),
          (E.bus p.1).ctl.DoneRises (E.bus (E.step p.1 p.2)).ctl) →
        m = (Transfer.ofCsr _ hp).words ∧
          E.Clean (run E.step (run E.step s₀ pre) (c0 :: cs))) := by
  have hsettled : E.Settled (run E.step s₀ pre) := by
    refine settled_run hclean hidle pre ?_
    intro p hp
    exact hdisc p (by rw [log_append]; exact List.mem_append_left _ hp)
  generalize hs0 : run E.step s₀ pre = s0 at hsettled ⊢
  have hdisc' :
      ∀ p ∈ log E.step s0 (c0 :: cs), BurstBus.Disciplined (E.bus p.1).ctl p.2.avs := by
    intro p hp
    refine hdisc p ?_
    rw [log_append, hs0]
    exact List.mem_append_right _ hp
  rw [log_cons] at hdisc'
  have hdisc0 := hdisc' (s0, c0) List.mem_cons_self
  obtain ⟨hclean0, hstart0⟩ := hsettled.clean_of_start hdisc0 hstart
  have hp := hdisc0.2 hstart
  obtain ⟨ws, q, m, hstage, hmoved⟩ := stage_run hclean0 hstart0 hstart hp cs
    (fun p hmem => hdisc' p (List.mem_cons_of_mem _ hmem)) hone
  obtain ⟨hws, hq⟩ := hstage.le_words
  exact ⟨hp, ws, q, m, hmoved, hmoved.m_le, hws, hq, hstage.complete_of_done⟩

end BurstSystem
end VideoProcessing
