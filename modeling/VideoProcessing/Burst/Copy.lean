import VideoProcessing.Burst.BurstMaster
import VideoProcessing.Burst.TransferRun

/-!
# `burst_master` copies exactly

`BurstCopy` is the engine between the two slaves.  During a transfer its FIFO
holds the returned words that are not written yet (`Active`).
`copies_exactly` follows one transfer of a disciplined software from its Start
command on, after any sequence of earlier transfers.
-/

namespace VideoProcessing

open Lib

/-- `burst_master` and the two slaves. -/
structure BurstCopy (P : BurstParams) where
  engine : BurstMaster P
  mem : MemoryBus

namespace BurstCopy

variable {P : BurstParams}

/-- The control code and the slaves. -/
def bus (s : BurstCopy P) : BurstBus := ⟨s.engine.ctl, s.mem⟩

/-- After reset. -/
def init (mem0 : BitVec (clog2 P.fifoDepth) → BitVec 32) : BurstCopy P where
  engine := BurstMaster.reset mem0
  mem := MemoryBus.init

/-- The ports of the engine in this cycle. -/
def inputs (s : BurstCopy P) (c : BurstCycle) : BurstMaster.Inputs where
  avs := c.avs
  rmReaddata := ((s.bus.returned c).map Prod.snd).getD 0
  rmReaddatavalid := (s.bus.returned c).isSome
  rmWaitrequest := c.rmWaitrequest
  wmWaitrequest := c.wmWaitrequest

/-- One clock cycle of the engine and the slaves. -/
def step (s : BurstCopy P) (c : BurstCycle) : BurstCopy P where
  engine := s.engine.step (s.inputs c)
  mem := s.bus.memNext c

variable {s : BurstCopy P} {T : Transfer} {ws : List (BitVec 32)} {q m : Nat}

/-- In the transfer `T` with the words `ws` returned: the FIFO holds those that
are not written yet. -/
structure Active (T : Transfer) (s : BurstCopy P) (ws : List (BitVec 32)) (q m : Nat) :
    Prop where
  transfer : InTransfer T s.bus q ws.length m
  m_le : m ≤ ws.length
  fifo : s.engine.fifo.Holds (ws.drop m)
  credit : Credit P s.bus T q ws.length (ws.length - m)
  supply : Supply s.bus T (ws.length - m)

/-- Between transfers: the bus is quiet and the FIFO empty. -/
structure Clean (s : BurstCopy P) : Prop where
  quiet : Quiet s.bus
  fifo : s.engine.fifo.Holds []

theorem clean_init (mem0 : BitVec (clog2 P.fifoDepth) → BitVec 32) :
    Clean (init (P := P) mem0) :=
  ⟨quiet_init P, SimpleFifo.holds_reset (Nat.lt_of_lt_of_le (by decide) P.fifoDepth_ge) mem0⟩

/-- The bus of the engine runs on the levels of its FIFO. -/
theorem bus_step {l : List (BitVec 32)} (hl : s.engine.fifo.Holds l) (c : BurstCycle) :
    (s.step c).bus =
      s.bus.step P c (BitVec.ofNat 32 l.length) (BitVec.ofNat 32 l.length) := by
  rw [← hl.usedW_setWidth]
  rfl

/-- The FIFO of the engine gets the returned word. -/
theorem fifo_step {l : List (BitVec 32)} (hl : s.engine.fifo.Holds l) (c : BurstCycle) :
    (s.step c).engine.fifo.Holds
      (Ring.next P.fifoDepth l ((s.bus.returned c).map Prod.snd)
        (s.engine.ctl.wm.fifoRdEn c.wmWaitrequest)) := by
  have hstep := hl.step (s.bus.returned c).isSome (((s.bus.returned c).map Prod.snd).getD 0)
    (s.engine.ctl.wm.fifoRdEn c.wmWaitrequest)
  have hword : (if (s.bus.returned c).isSome then
      some (((s.bus.returned c).map Prod.snd).getD 0) else none) =
        (s.bus.returned c).map Prod.snd := by
    cases s.bus.returned c <;> rfl
  rw [hword] at hstep
  exact hstep

/-- A clean engine moves no word. -/
theorem Clean.fifo_next (h : Clean s) (c : BurstCycle) :
    (s.step c).engine.fifo.Holds [] := by
  have hfifo := fifo_step h.fifo c
  have hidle : s.engine.ctl.wm.wmFsm = .wIdle := h.quiet.wmFsm
  have hrd : s.engine.ctl.wm.fifoRdEn c.wmWaitrequest = false := by
    simp [WriteMaster.fifoRdEn, hidle]
  rw [h.quiet.returned c, hrd] at hfifo
  simpa [Ring.next] using hfifo

/-- Without a start pulse the engine stays clean. -/
theorem Clean.step_none (h : Clean s) (hs : s.engine.ctl.csr.ctrlStart = false)
    (c : BurstCycle) : Clean (s.step c) := by
  refine ⟨?_, h.fifo_next c⟩
  rw [bus_step h.fifo]
  exact h.quiet.step_none hs c _ _

/-- The start pulse opens the programmed transfer. -/
theorem Clean.step_start (h : Clean s) (hs : s.engine.ctl.csr.ctrlStart = true)
    (hp : BurstBus.Programmed s.engine.ctl.csr) {c : BurstCycle}
    (hdisc : BurstBus.Disciplined s.engine.ctl c.avs) :
    Active (Transfer.ofCsr s.engine.ctl.csr hp) (s.step c) [] 0 0 := by
  have hstart :=
    h.quiet.step_start (P := P) hs hp hdisc (BitVec.ofNat 32 0) (BitVec.ofNat 32 0)
  have hlevels := h.quiet.levels_start (P := P) (T := Transfer.ofCsr s.engine.ctl.csr hp) hs c
    (BitVec.ofNat 32 0) (BitVec.ofNat 32 0)
  have hbus := bus_step h.fifo c
  rw [List.length_nil] at hbus
  rw [← hbus] at hstart hlevels
  exact ⟨hstart, Nat.le_refl _, h.fifo_next c, hlevels.1, hlevels.2⟩

/-- A beat carries the oldest word of the FIFO. -/
theorem Active.wmWritedata (h : Active T s ws q m) {c : BurstCycle}
    (hbeat : s.bus.takesBeat c = true) : ws[m]? = some s.engine.wmWritedata := by
  have hlt := h.transfer.word_of_beat h.supply hbeat
  have hne : ws.drop m ≠ [] := by
    intro hnil
    have := congrArg List.length hnil
    rw [List.length_drop, List.length_nil] at this
    omega
  have hhead := h.fifo.rdData hne
  have hget : (ws.drop m)[0]? = some s.engine.fifo.rdData := by rw [hhead]; rfl
  rw [List.getElem?_drop, Nat.add_zero] at hget
  exact hget

/-- One cycle before the completion pulse. -/
theorem Active.step (h : Active T s ws q m)
    (hd : s.engine.ctl.wm.internalDonePulse = false) {c : BurstCycle}
    (hdisc : BurstBus.Disciplined s.engine.ctl c.avs) :
    Active T (s.step c) (ws ++ ((s.bus.returned c).map Prod.snd).toList)
      (q + s.bus.commandedWords c) (m + (s.bus.takesBeat c).toNat) := by
  have hm := h.m_le
  have hbus := bus_step h.fifo c
  have hfifo := fifo_step h.fifo c
  obtain ⟨p, hp⟩ := h.transfer.writer
  have hrd : s.engine.ctl.wm.fifoRdEn c.wmWaitrequest = s.bus.takesBeat c :=
    hp.fifoRdEn c
  have hlen : (ws ++ ((s.bus.returned c).map Prod.snd).toList).length =
      ws.length + (s.bus.returned c).isSome.toNat := by
    cases s.bus.returned c <;> simp
  have hbeat : s.bus.takesBeat c = true → m < ws.length := by
    intro hb
    have := h.transfer.word_of_beat h.supply hb
    omega
  have hroom : (s.bus.returned c).isSome = true → ws.length - m ≠ P.fifoDepth := by
    intro hr
    have := h.transfer.room_of_returned h.credit hr
    omega
  have hm' : m + (s.bus.takesBeat c).toNat ≤ ws.length := by
    cases hb : s.bus.takesBeat c with
    | false => simpa using hm
    | true => exact hbeat hb
  rw [hrd, Ring.next_drop hm (by simpa using hroom) hbeat] at hfifo
  rw [List.length_drop] at hbus
  have hdepth := P.fifoDepth_lt
  have hle := h.fifo.length_le
  rw [List.length_drop] at hle
  refine ⟨?_, by rw [hlen]; omega, hfifo, ?_, ?_⟩ <;> rw [hlen, hbus]
  · exact h.transfer.step hd hdisc _ _
  · exact h.transfer.credit_step hd h.credit (by omega) _
  · exact h.transfer.supply_step h.supply (by omega) (by omega) _

/-- The completion pulse leaves the engine clean. -/
theorem Active.finish (h : Active T s ws q m)
    (hd : s.engine.ctl.wm.internalDonePulse = true) {c : BurstCycle}
    (hdisc : BurstBus.Disciplined s.engine.ctl c.avs) :
    q = T.words ∧ ws.length = T.words ∧ m = T.words ∧
      s.bus.accepted c = none ∧ s.bus.returned c = none ∧ s.bus.takesBeat c = false ∧
        Clean (s.step c) ∧ (s.step c).engine.ctl.csr.ctrlStart = false := by
  obtain ⟨hq, hn, hm, hacc, hret, hbeat, hquiet, hstart⟩ :=
    h.transfer.finish (P := P) hd h.m_le hdisc (BitVec.ofNat 32 (ws.drop m).length)
      (BitVec.ofNat 32 (ws.drop m).length)
  rw [← bus_step h.fifo c] at hquiet hstart
  have hnil : ws.drop m = [] := List.drop_eq_nil_of_le (by omega)
  have hfifo := fifo_step h.fifo c
  obtain ⟨p, hp⟩ := h.transfer.writer
  have hrd : s.engine.ctl.wm.fifoRdEn c.wmWaitrequest = s.bus.takesBeat c :=
    hp.fifoRdEn c
  rw [hret, hrd, hbeat, hnil] at hfifo
  refine ⟨hq, hn, hm, hacc, hret, hbeat, ⟨hquiet, ?_⟩, hstart⟩
  simpa [Ring.next] using hfifo

/-- `burst_master` as a burst engine: words pass unchanged. -/
def system (P : BurstParams) : BurstSystem where
  State := BurstCopy P
  step := step
  bus := bus
  wmWritedata := fun s => s.engine.wmWritedata
  op := fun _ w => w
  Clean := Clean
  Active := fun T f s ws q m => Active T s ws q m ∧ f = fun w => w
  csr_step := fun _ _ => rfl
  op_step := fun _ _ _ => rfl
  quiet := fun _ h => h.quiet
  step_none := fun _ c h hs => h.step_none hs c
  step_start := fun _ _ h hs hp hdisc => ⟨h.step_start hs hp hdisc, rfl⟩
  transfer := fun _ _ _ _ _ _ h => h.1.transfer
  active_step := fun _ _ _ _ _ _ _ h hd hdisc => ⟨h.1.step hd hdisc, h.2⟩
  active_finish := fun _ _ _ _ _ _ _ h hd hdisc => h.1.finish hd hdisc
  active_beat := by
    intro T f s ws q m c h hbeat
    rw [h.1.wmWritedata hbeat, h.2]
    rfl

/-- **`burst_master` copies exactly.**  Take any run from reset of a disciplined
software: any number of transfers, each programmed while the engine is idle with
burst counts that divide its length, and nothing but the status register written
until it is done.  From a Start command on, and as long as no other transfer is
started: the accepted read commands cover `src, src + 4, ...` in order, the words
come back in this order, and the taken beats carry the first of these words to
`dst, dst + 4, ...`.  When Done has risen, all `L / 4` words are covered, returned
and written, the FIFO is empty, no read is pending and both masters are idle. -/
theorem copies_exactly (P : BurstParams) (mem0 : BitVec (clog2 P.fifoDepth) → BitVec 32)
    (pre : List BurstCycle) (c0 : BurstCycle) (cs : List BurstCycle)
    (hdisc : ∀ p ∈ log step (init (P := P) mem0) (pre ++ c0 :: cs),
      BurstBus.Disciplined p.1.engine.ctl p.2.avs)
    (hstart : c0.avs.start = true) (hone : ∀ c ∈ cs, c.avs.start = false) :
    let s0 := run step (init (P := P) mem0) pre
    let s1 := run step s0 (c0 :: cs)
    let l := log step s0 (c0 :: cs)
    let csr := s0.engine.ctl.csr
    let words := (BurstBus.returns bus l).map Prod.snd
    ∃ q n m, m ≤ n ∧ n ≤ q ∧ q ≤ csr.ctrlLen.toNat / 4 ∧
      BurstBus.covered bus l = wordAddrs csr.ctrlSrcAddr q ∧
      (BurstBus.returns bus l).map Prod.fst = wordAddrs csr.ctrlSrcAddr n ∧
      BurstBus.beats bus (fun s => s.engine.wmWritedata) l =
        (wordAddrs csr.ctrlDstAddr m).zip (words.take m) ∧
      ((∃ p ∈ l, p.1.engine.ctl.DoneRises (p.1.step p.2).engine.ctl) →
        m = csr.ctrlLen.toNat / 4 ∧ s1.engine.fifo.empty = true ∧
          s1.engine.ctl.rm.pendingReads = 0 ∧ s1.engine.ctl.rm.rmState = .idle ∧
            s1.engine.ctl.wm.wmFsm = .wIdle) := by
  intro s0 s1 l csr words
  obtain ⟨hp, ws, q, m, hmoved, hm, hn, hq, hdone⟩ :=
    BurstSystem.transfer_exact (E := system P) (clean_init mem0) rfl pre c0 cs hdisc hstart hone
  have hwords : words = ws := hmoved.words
  refine ⟨q, ws.length, m, hm, hn, hq, hmoved.covered, hmoved.addrs, ?_, ?_⟩
  · have hbeats := hmoved.beats
    have hid : ws.map ((system P).op (run (system P).step (init mem0) pre)) = ws :=
      List.map_id' ws
    rw [hid] at hbeats
    rw [hwords]
    exact hbeats
  · intro hrise
    obtain ⟨hall, hclean⟩ := hdone hrise
    have hclean' : Clean s1 := hclean
    exact ⟨hall, hclean'.fifo.empty_iff.2 rfl, hclean'.quiet.pending, hclean'.quiet.rmState,
      hclean'.quiet.wmFsm⟩

/-- The register writes that program a transfer of two words, read in one burst
and written in two. -/
def programTwoWords : List BurstCycle :=
  [BurstCycle.ready (AvsIn.write 5 2) 0, BurstCycle.ready (AvsIn.write 6 1) 0,
    BurstCycle.ready (AvsIn.write 2 0x100) 0, BurstCycle.ready (AvsIn.write 3 0x200) 0,
    BurstCycle.ready (AvsIn.write 4 8) 0]

/-- A transfer of two words between slaves that do not stall. -/
theorem copies_exactly_two_words :
    let s0 := run step (init (P := BurstParams.standard) fun _ => 0) programTwoWords
    let l := log step s0 (BurstCycle.ready (AvsIn.write 0 1) 0 ::
      (List.range 14).map fun i => BurstCycle.ready AvsIn.none (BitVec.ofNat 32 i))
    BurstBus.covered bus l = wordAddrs 0x100 2 ∧
      BurstBus.beats bus (fun s => s.engine.wmWritedata) l =
        (wordAddrs 0x200 2).zip (((BurstBus.returns bus l).map Prod.snd).take 2) := by
  intro s0 l
  obtain ⟨q, n, m, hmn, hnq, hq, hcov, _, hbeats, hdone⟩ :=
    copies_exactly BurstParams.standard (fun _ => 0) programTwoWords
      (BurstCycle.ready (AvsIn.write 0 1) 0)
      ((List.range 14).map fun i => BurstCycle.ready AvsIn.none (BitVec.ofNat 32 i))
      (by decide +kernel) (by decide) (by decide)
  have hm := (hdone (by decide +kernel)).1
  have hsrc : s0.engine.ctl.csr.ctrlSrcAddr = 0x100 := by decide +kernel
  have hdst : s0.engine.ctl.csr.ctrlDstAddr = 0x200 := by decide +kernel
  have hlen : s0.engine.ctl.csr.ctrlLen.toNat / 4 = 2 := by decide +kernel
  rw [hlen] at hm hq
  obtain rfl : m = 2 := hm
  obtain rfl : q = 2 := by omega
  rw [hsrc] at hcov
  rw [hdst] at hbeats
  exact ⟨hcov, hbeats⟩

end BurstCopy
end VideoProcessing
