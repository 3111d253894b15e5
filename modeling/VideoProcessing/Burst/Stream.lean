import VideoProcessing.Burst.BurstMaster4
import VideoProcessing.Burst.TransferRun
import VideoProcessing.Lib.Elastic

/-!
# `burst_master_4` streams every word through the arithmetic once

The pipeline registers are an elastic pipeline (`Lib.Elastic`) whose stages map
a word to `scaled c w`.  `BurstStream` is the engine between the two slaves; in
a transfer its output FIFO, its pipeline and its input FIFO hold together the
returned words that are not written yet (`Active`).  `streams_exactly` follows
one transfer of a disciplined software from its Start command on.
-/

namespace VideoProcessing

open Lib

namespace Pipeline

variable {n : Nat} {c : BitVec 32} {p : Pipeline} {full : Bool}

/-- The word in stage `g`, if it is valid. -/
def stage (p : Pipeline) (g : Nat) : Option (BitVec 32) :=
  if p.pipelineValid g then some (p.pipelineData g) else none

theorem stage_isNone (g : Nat) : (p.stage g).isNone = !p.pipelineValid g := by
  rw [stage]
  cases p.pipelineValid g <;> rfl

theorem stage_eq_none {g : Nat} : p.stage g = none ↔ p.pipelineValid g = false := by
  rw [stage]
  cases p.pipelineValid g <;> simp

/-- The pipeline holds nothing when no stage is valid. -/
theorem held_eq_nil : Elastic.held n (op c) p.stage = [] ↔
    ∀ g, g ≤ n → p.pipelineValid g = false := by
  rw [Elastic.held_eq_nil]
  exact forall_congr' fun g => imp_congr Iff.rfl stage_eq_none

theorem readyFrom_eq (d : Nat) :
    readyFrom n p full d = Elastic.readyFrom n p.stage full d := by
  induction d with
  | zero => rfl
  | succ d ih => rw [readyFrom, Elastic.readyFrom, stage_isNone, ih]

theorem pipelineReady_eq (g : Nat) :
    p.pipelineReady n full g = Elastic.ready n p.stage full g :=
  readyFrom_eq (n - g)

/-- The registers step as an elastic pipeline. -/
theorem stage_step (empty : Bool) (d : BitVec 32) :
    (p.step n c empty d full).stage =
      Elastic.step n (op c) p.stage (if empty then none else some d) full := by
  funext g
  cases g with
  | zero =>
      simp only [stage, step, Elastic.step, pipelineReady_eq]
      cases Elastic.ready n p.stage full 0 <;> cases empty <;> rfl
  | succ i =>
      simp only [stage, step, Elastic.step, pipelineReady_eq]
      cases decide (i < n) && Elastic.ready n p.stage full (i + 1) with
      | false => rfl
      | true => cases p.pipelineValid i <;> rfl

/-- The output of the pipeline as a write to the output FIFO. -/
theorem out_eq : Elastic.out n p.stage full =
    if p.fifoOutWrEn n full then some (p.fifoOutWrData n) else none := by
  simp only [Elastic.out, fifoOutWrEn, fifoOutWrData, pipelineReady_eq, Elastic.ready,
    Nat.sub_self, Elastic.readyFrom, stage]
  cases full <;> cases p.pipelineValid n <;> rfl

/-- The arithmetic of the pipeline: the 32-bit product with the coefficient, times
5243, without its low 21 bits. -/
def scaled (c w : BitVec 32) : BitVec 32 :=
  BitVec.ofNat 32 ((w.toNat * c.toNat % 2 ^ 32) * 5243 / 2 ^ 21)

theorem scale_mul (c w : BitVec 32) : scale (w * c) = scaled c w := by
  have hlt := (w * c).isLt
  apply BitVec.eq_of_toNat_eq
  rw [scale, scaled, BitVec.toNat_setWidth, BitVec.toNat_ushiftRight, BitVec.toNat_mul,
    BitVec.toNat_setWidth, BitVec.toNat_ofNat, Nat.shiftRight_eq_div_pow,
    Nat.mod_eq_of_lt (a := (w * c).toNat) (by omega)]
  have h5243 : (5243 : BitVec 64).toNat = 5243 := rfl
  rw [h5243, Nat.mod_eq_of_lt (a := (w * c).toNat * 5243) (by omega), BitVec.toNat_mul]

/-- A word leaves the pipeline scaled. -/
theorem finish_eq (hn : 2 ≤ n) (w : BitVec 32) :
    Elastic.finish n (op c) n w = scaled c w := by
  obtain ⟨k, rfl⟩ : ∃ k, n = k + 2 := ⟨n - 2, by omega⟩
  have hpass : ∀ i x, 2 ≤ i → op c i x = x := by
    intro i x hi
    rw [op, if_neg (by omega), if_neg (by omega)]
  rw [Elastic.finish, Elastic.finish, Elastic.finish_eq_self hpass (Nat.le_refl _)]
  have h0 : k + 2 - (k + 1 + 1) = 0 := by omega
  have h1 : k + 2 - (k + 1) = 1 := by omega
  rw [h0, h1, ← scale_mul]
  rfl

end Pipeline

/-- `burst_master_4` and the two slaves. -/
structure BurstStream (P : BurstParams4) where
  engine : BurstMaster4 P
  mem : MemoryBus

namespace BurstStream

variable {P : BurstParams4}

/-- The control code and the slaves. -/
def bus (s : BurstStream P) : BurstBus := ⟨s.engine.ctl, s.mem⟩

/-- After reset. -/
def init (memIn memOut : BitVec (clog2 P.fifoDepth) → BitVec 32) : BurstStream P where
  engine := BurstMaster4.reset memIn memOut
  mem := MemoryBus.init

/-- The ports of the engine in this cycle. -/
def inputs (s : BurstStream P) (c : BurstCycle) : BurstMaster4.Inputs where
  avs := c.avs
  rmReaddata := ((s.bus.returned c).map Prod.snd).getD 0
  rmReaddatavalid := (s.bus.returned c).isSome
  rmWaitrequest := c.rmWaitrequest
  wmWaitrequest := c.wmWaitrequest

/-- One clock cycle of the engine and the slaves. -/
def step (s : BurstStream P) (c : BurstCycle) : BurstStream P where
  engine := s.engine.step (s.inputs c)
  mem := s.bus.memNext c

/-- The words in the pipeline, oldest first, as they will leave it. -/
def held (s : BurstStream P) : List (BitVec 32) :=
  Elastic.held P.pipeLatency (Pipeline.op s.engine.ctrlCoeff) s.engine.pipe.stage

/-- The engine moves a word from the input FIFO to the pipeline. -/
def feeds (s : BurstStream P) : Bool :=
  s.engine.pipe.fifoInRdEn P.pipeLatency s.engine.fifoIn.empty s.engine.fifoOut.full

/-- The word moved from the pipeline to the output FIFO. -/
def drains (s : BurstStream P) : Option (BitVec 32) :=
  if s.engine.pipe.fifoOutWrEn P.pipeLatency s.engine.fifoOut.full then
    some (s.engine.pipe.fifoOutWrData P.pipeLatency)
  else none

variable {s : BurstStream P} {T : Transfer} {ws lin lout : List (BitVec 32)} {q m : Nat}

/-- The lists in the two FIFOs. -/
structure Stores (s : BurstStream P) (lin lout : List (BitVec 32)) : Prop where
  fifoIn : s.engine.fifoIn.Holds lin
  fifoOut : s.engine.fifoOut.Holds lout

/-- In the transfer `T` with the words `ws` returned: the data path holds those
that are not written yet, on their way from the input to the output FIFO. -/
structure Active (T : Transfer) (s : BurstStream P) (ws : List (BitVec 32)) (q m : Nat) :
    Prop where
  transfer : InTransfer T s.bus q ws.length m
  m_le : m ≤ ws.length
  path : ∃ lin lout, Stores s lin lout ∧
    lout ++ s.held ++ lin.map (Pipeline.scaled s.engine.ctrlCoeff) =
      (ws.map (Pipeline.scaled s.engine.ctrlCoeff)).drop m ∧
    Credit P.toBurstParams s.bus T q ws.length lin.length ∧ Supply s.bus T lout.length

/-- Between transfers: the bus is quiet, the FIFOs and the pipeline are empty. -/
structure Clean (s : BurstStream P) : Prop where
  quiet : Quiet s.bus
  stores : Stores s [] []
  valid : ∀ g, g ≤ P.pipeLatency → s.engine.pipe.pipelineValid g = false

theorem clean_init (memIn memOut : BitVec (clog2 P.fifoDepth) → BitVec 32) :
    Clean (init (P := P) memIn memOut) := by
  have hd : 0 < P.fifoDepth := Nat.lt_of_lt_of_le (by decide) P.fifoDepth_ge
  refine ⟨quiet_init P.toBurstParams,
    ⟨SimpleFifo.holds_reset hd memIn, SimpleFifo.holds_reset hd memOut⟩, ?_⟩
  intro g _
  rfl

/-- The bus of the engine runs on the levels of its FIFOs. -/
theorem bus_step (hl : Stores s lin lout) (c : BurstCycle) :
    (s.step c).bus =
      s.bus.step P.toBurstParams c (BitVec.ofNat 32 lin.length) (BitVec.ofNat 32 lout.length) := by
  rw [← hl.fifoIn.usedW_setWidth, ← hl.fifoOut.usedW_setWidth]
  have hctl : (s.step c).engine.ctl =
      s.engine.ctl.step P.toBurstParams (s.engine.ctlInputs (s.inputs c)) :=
    BurstControl.step4_eq_step _ _ _
  rw [bus, hctl]
  rfl

/-- The FIFOs after one cycle. -/
theorem stores_step (hl : Stores s lin lout) (c : BurstCycle) :
    Stores (s.step c)
      (Ring.next P.fifoDepth lin ((s.bus.returned c).map Prod.snd) s.feeds)
      (Ring.next P.fifoDepth lout s.drains (s.engine.ctl.wm.fifoRdEn c.wmWaitrequest)) := by
  have hin := hl.fifoIn.step (s.bus.returned c).isSome
    (((s.bus.returned c).map Prod.snd).getD 0) s.feeds
  have hword : (if (s.bus.returned c).isSome then
      some (((s.bus.returned c).map Prod.snd).getD 0) else none) =
        (s.bus.returned c).map Prod.snd := by
    cases s.bus.returned c <;> rfl
  rw [hword] at hin
  exact ⟨hin, hl.fifoOut.step _ _ _⟩

/-- A write to another register keeps the coefficient. -/
theorem ctrlCoeff_step {c : BurstCycle}
    (hw : c.avs.avsWrite = true → c.avs.avsAddress = 0 ∨ c.avs.avsAddress = 1) :
    (s.step c).engine.ctrlCoeff = s.engine.ctrlCoeff := by
  have hno : (c.avs.avsWrite && c.avs.avsAddress == 7) = false := by
    cases hwr : c.avs.avsWrite with
    | false => rfl
    | true => rcases hw hwr with h | h <;> simp [h]
  change (if c.avs.avsWrite && c.avs.avsAddress == 7 then c.avs.avsWritedata
    else s.engine.ctrlCoeff) = _
  rw [hno]
  rfl

/-- The pipeline takes the oldest word of the input FIFO. -/
theorem held_step (hl : Stores s lin lout) (c : BurstCycle) :
    s.drains.toList ++ Elastic.held P.pipeLatency (Pipeline.op s.engine.ctrlCoeff)
        (s.step c).engine.pipe.stage =
      s.held ++ (if s.feeds then lin.take 1 else []).map
        (Pipeline.scaled s.engine.ctrlCoeff) := by
  have hstage : (s.step c).engine.pipe.stage =
      Elastic.step P.pipeLatency (Pipeline.op s.engine.ctrlCoeff) s.engine.pipe.stage
        (if s.engine.fifoIn.empty then none else some s.engine.fifoIn.rdData)
        s.engine.fifoOut.full := Pipeline.stage_step _ _
  have hout : s.drains =
      Elastic.out P.pipeLatency s.engine.pipe.stage s.engine.fifoOut.full :=
    Pipeline.out_eq.symm
  rw [BurstStream.held, hstage, hout, Elastic.out_append_held]
  congr 1
  have hfeeds : s.feeds = (!s.engine.fifoIn.empty &&
      Elastic.ready P.pipeLatency s.engine.pipe.stage s.engine.fifoOut.full 0) := by
    rw [feeds, Pipeline.fifoInRdEn, Pipeline.pipelineReady_eq]
  rw [hfeeds]
  cases Elastic.ready P.pipeLatency s.engine.pipe.stage s.engine.fifoOut.full 0 with
  | false => simp
  | true =>
      cases he : s.engine.fifoIn.empty with
      | true => simp
      | false =>
          have hne : lin ≠ [] := by
            intro hnil
            rw [hl.fifoIn.empty_iff.2 (by rw [hnil]; rfl)] at he
            exact absurd he (by decide)
          have hhead : lin.take 1 = [s.engine.fifoIn.rdData] := by
            rw [hl.fifoIn.rdData hne]
            rfl
          rw [hhead]
          simp [Pipeline.finish_eq P.pipeLatency_ge]

/-- The engine reads the input FIFO only when it stores a word. -/
theorem feeds_ne_nil (hl : Stores s lin lout) (hf : s.feeds = true) : 0 < lin.length := by
  rw [feeds, Pipeline.fifoInRdEn, Bool.and_eq_true, Bool.not_eq_true'] at hf
  rcases Nat.eq_zero_or_pos lin.length with h0 | hpos
  · rw [hl.fifoIn.empty_iff.2 h0] at hf
    exact absurd hf.1 (by decide)
  · exact hpos

/-- The engine writes the output FIFO only when it is not full. -/
theorem drains_not_full (hl : Stores s lin lout) (hd : s.drains.isSome = true) :
    lout.length ≠ P.fifoDepth := by
  intro hfull
  have hf := hl.fifoOut.full_iff.2 hfull
  have hready : s.engine.pipe.pipelineReady P.pipeLatency s.engine.fifoOut.full
      P.pipeLatency = !s.engine.fifoOut.full := by
    rw [Pipeline.pipelineReady, Nat.sub_self]
    rfl
  rw [drains, Pipeline.fifoOutWrEn, hready, hf, Bool.not_true, Bool.and_false] at hd
  exact absurd hd (by simp)

/-- The data path loses, repeats and reorders nothing. -/
theorem path_step (hl : Stores s lin lout) (c : BurstCycle) {rest : List (BitVec 32)}
    {f : BitVec 32 → BitVec 32} (hf : f = Pipeline.scaled s.engine.ctrlCoeff)
    (hrest : lout ++ s.held ++ lin.map f = rest)
    (hcoeff : (s.step c).engine.ctrlCoeff = s.engine.ctrlCoeff)
    (hroom : (s.bus.returned c).isSome = true → lin.length ≠ P.fifoDepth)
    (hbeat : s.engine.ctl.wm.fifoRdEn c.wmWaitrequest = true → 0 < lout.length) :
    Ring.next P.fifoDepth lout s.drains (s.engine.ctl.wm.fifoRdEn c.wmWaitrequest) ++
        (s.step c).held ++
        (Ring.next P.fifoDepth lin ((s.bus.returned c).map Prod.snd) s.feeds).map f =
      (rest ++ ((s.bus.returned c).map fun w => f w.2).toList).drop
        (s.engine.ctl.wm.fifoRdEn c.wmWaitrequest).toNat := by
  have hheld := held_step hl c
  rw [← hf] at hheld
  have hin : Ring.next P.fifoDepth lin ((s.bus.returned c).map Prod.snd) s.feeds =
      (lin ++ ((s.bus.returned c).map Prod.snd).toList).drop s.feeds.toNat :=
    Ring.next_eq_drop (by rw [Option.isSome_map]; exact hroom) (feeds_ne_nil hl)
  have hout := Ring.next_eq_drop (drains_not_full hl) hbeat
  have hheld' : (s.step c).held = Elastic.held P.pipeLatency
      (Pipeline.op s.engine.ctrlCoeff) (s.step c).engine.pipe.stage := by
    rw [BurstStream.held, hcoeff]
  have hlin : (if s.feeds then lin.take 1 else []) ++ lin.drop s.feeds.toNat = lin := by
    cases s.feeds with
    | false => simp
    | true => exact List.take_append_drop 1 lin
  have hfeed : s.feeds.toNat ≤ lin.length := by
    cases hfd : s.feeds with
    | false => exact Nat.zero_le _
    | true => exact feeds_ne_nil hl hfd
  have htake : (s.engine.ctl.wm.fifoRdEn c.wmWaitrequest).toNat ≤ lout.length := by
    cases hrd : s.engine.ctl.wm.fifoRdEn c.wmWaitrequest with
    | false => exact Nat.zero_le _
    | true => exact hbeat hrd
  have hret : (((s.bus.returned c).map Prod.snd).toList).map f =
      ((s.bus.returned c).map fun w => f w.2).toList := by
    cases s.bus.returned c <;> rfl
  have hpath : lout ++ s.drains.toList ++ (s.step c).held ++
      ((lin ++ ((s.bus.returned c).map Prod.snd).toList).drop s.feeds.toNat).map f =
        rest ++ ((s.bus.returned c).map fun w => f w.2).toList := by
    rw [hheld', List.append_assoc lout, hheld, List.drop_append_of_le_length hfeed,
      List.map_append, hret, ← hrest]
    nth_rewrite 3 [← hlin]
    simp only [List.map_append, List.append_assoc]
  rw [hin, hout, ← hpath]
  simp only [List.append_assoc, List.drop_append_of_le_length htake]

/-- An empty data path that gets and gives no word stays empty. -/
theorem empty_next (hstores : Stores s [] [])
    (hvalid : ∀ g, g ≤ P.pipeLatency → s.engine.pipe.pipelineValid g = false)
    {c : BurstCycle} (hret : s.bus.returned c = none)
    (hrd : s.engine.ctl.wm.fifoRdEn c.wmWaitrequest = false) :
    Stores (s.step c) [] [] ∧
      ∀ g, g ≤ P.pipeLatency → (s.step c).engine.pipe.pipelineValid g = false := by
  have hfeeds : s.feeds = false := by
    cases hf : s.feeds with
    | false => rfl
    | true => exact absurd (feeds_ne_nil hstores hf) (by decide)
  have hdrains : s.drains = none := by
    rw [drains, Pipeline.fifoOutWrEn, hvalid P.pipeLatency (Nat.le_refl _)]
    rfl
  refine ⟨?_, ?_⟩
  · have hnext := stores_step hstores c
    rw [hret, hrd, hfeeds, hdrains] at hnext
    simpa [Ring.next] using hnext
  · have hheld := held_step hstores c
    have hnil : s.held = [] := Pipeline.held_eq_nil.2 hvalid
    rw [hdrains, hfeeds, hnil] at hheld
    exact Pipeline.held_eq_nil.1 (by simpa using hheld)

/-- A clean engine moves no word. -/
theorem Clean.path_next (h : Clean s) (c : BurstCycle) :
    Stores (s.step c) [] [] ∧
      ∀ g, g ≤ P.pipeLatency → (s.step c).engine.pipe.pipelineValid g = false := by
  have hidle : s.engine.ctl.wm.wmFsm = .wIdle := h.quiet.wmFsm
  exact empty_next h.stores h.valid (h.quiet.returned c) (by simp [WriteMaster.fifoRdEn, hidle])

/-- Without a start pulse the engine stays clean. -/
theorem Clean.step_none (h : Clean s) (hs : s.engine.ctl.csr.ctrlStart = false)
    (c : BurstCycle) : Clean (s.step c) := by
  obtain ⟨hstores, hvalid⟩ := h.path_next c
  refine ⟨?_, hstores, hvalid⟩
  rw [bus_step h.stores]
  exact h.quiet.step_none hs c _ _

/-- The start pulse opens the programmed transfer. -/
theorem Clean.step_start (h : Clean s) (hs : s.engine.ctl.csr.ctrlStart = true)
    (hp : BurstBus.Programmed s.engine.ctl.csr) {c : BurstCycle}
    (hdisc : BurstBus.Disciplined s.engine.ctl c.avs) :
    Active (Transfer.ofCsr s.engine.ctl.csr hp) (s.step c) [] 0 0 := by
  have hstart := h.quiet.step_start (P := P.toBurstParams) hs hp hdisc (BitVec.ofNat 32 0)
    (BitVec.ofNat 32 0)
  have hlevels := h.quiet.levels_start (P := P.toBurstParams)
    (T := Transfer.ofCsr s.engine.ctl.csr hp) hs c (BitVec.ofNat 32 0) (BitVec.ofNat 32 0)
  have hbus := bus_step h.stores c
  rw [List.length_nil] at hbus
  rw [← hbus] at hstart hlevels
  obtain ⟨hstores, hvalid⟩ := h.path_next c
  have hheld : (s.step c).held = [] := Pipeline.held_eq_nil.2 hvalid
  refine ⟨hstart, Nat.le_refl _, [], [], hstores, ?_, hlevels.1, hlevels.2⟩
  simp [hheld]

/-- The write side of the engine is the beat of the bus. -/
theorem Active.fifoRdEn (h : Active T s ws q m) (c : BurstCycle) :
    s.engine.ctl.wm.fifoRdEn c.wmWaitrequest = s.bus.takesBeat c := by
  obtain ⟨p, hp⟩ := h.transfer.writer
  exact hp.fifoRdEn c

/-- One cycle before the completion pulse. -/
theorem Active.step (h : Active T s ws q m)
    (hd : s.engine.ctl.wm.internalDonePulse = false) {c : BurstCycle}
    (hdisc : BurstBus.Disciplined s.engine.ctl c.avs) :
    Active T (s.step c) (ws ++ ((s.bus.returned c).map Prod.snd).toList)
      (q + s.bus.commandedWords c) (m + (s.bus.takesBeat c).toNat) := by
  obtain ⟨lin, lout, hstores, hpath, hcredit, hsupply⟩ := h.path
  have hm := h.m_le
  have hcoeff : (s.step c).engine.ctrlCoeff = s.engine.ctrlCoeff :=
    ctrlCoeff_step fun hw => Or.inr (h.transfer.status_only hdisc hw)
  have hlen : (ws ++ ((s.bus.returned c).map Prod.snd).toList).length =
      ws.length + (s.bus.returned c).isSome.toNat := by
    cases s.bus.returned c <;> simp
  have hbeat : s.bus.takesBeat c = true → 0 < lout.length :=
    fun hb => h.transfer.word_of_beat hsupply hb
  have hroom : (s.bus.returned c).isSome = true → lin.length ≠ P.fifoDepth := by
    intro hr
    have := h.transfer.room_of_returned hcredit hr
    omega
  have hm' : m + (s.bus.takesBeat c).toNat ≤ ws.length := by
    cases hb : s.bus.takesBeat c with
    | false => simpa using hm
    | true =>
        have hpos := hbeat hb
        have hlens := congrArg List.length hpath
        simp only [List.length_append, List.length_drop, List.length_map] at hlens
        simp only [Bool.toNat_true]
        omega
  have hpath' :=
    path_step hstores c rfl hpath hcoeff hroom (by rw [h.fifoRdEn c]; exact hbeat)
  have hstores' := stores_step hstores c
  rw [h.fifoRdEn c] at hpath' hstores'
  have hbus := bus_step hstores c
  have hdepth := P.fifoDepth_lt
  have hin := hstores.fifoIn.length_le
  have hout := hstores.fifoOut.length_le
  refine ⟨?_, by rw [hlen]; omega, _, _, hstores', ?_, ?_, ?_⟩
  · rw [hlen, hbus]
    exact h.transfer.step hd hdisc _ _
  · rw [hcoeff, hpath', List.map_append,
      List.drop_append_of_le_length (by rw [List.length_drop, List.length_map]; omega),
      List.drop_append_of_le_length (by rw [List.length_map]; exact hm'), List.drop_drop]
    congr 1
    cases s.bus.returned c <;> rfl
  · rw [hlen, hbus]
    refine h.transfer.credit_step hd hcredit ?_ _
    rw [Ring.length_next]
    split
    · omega
    · rw [Option.isSome_map]
      omega
  · rw [hbus]
    refine h.transfer.supply_step hsupply (by omega) ?_ _
    rw [Ring.length_next]
    cases hb : s.bus.takesBeat c with
    | false => simp
    | true =>
        have := hbeat hb
        simp
        omega

/-- A beat carries the next scaled word. -/
theorem Active.wmWritedata (h : Active T s ws q m) {c : BurstCycle}
    (hbeat : s.bus.takesBeat c = true) :
    (ws[m]?).map (Pipeline.scaled s.engine.ctrlCoeff) = some s.engine.wmWritedata := by
  obtain ⟨lin, lout, hstores, hpath, _, hsupply⟩ := h.path
  have hpos := h.transfer.word_of_beat hsupply hbeat
  have hhead := hstores.fifoOut.rdData (List.length_pos_iff.1 hpos)
  have hget : ((ws.map (Pipeline.scaled s.engine.ctrlCoeff)).drop m)[0]? =
      some s.engine.fifoOut.rdData := by
    rw [← hpath, hhead]
    rfl
  rw [List.getElem?_drop, Nat.add_zero, List.getElem?_map] at hget
  exact hget

/-- The completion pulse leaves the engine clean, and finds it empty. -/
theorem Active.finish (h : Active T s ws q m)
    (hd : s.engine.ctl.wm.internalDonePulse = true) {c : BurstCycle}
    (hdisc : BurstBus.Disciplined s.engine.ctl c.avs) :
    q = T.words ∧ ws.length = T.words ∧ m = T.words ∧
      s.bus.accepted c = none ∧ s.bus.returned c = none ∧ s.bus.takesBeat c = false ∧
        Clean (s.step c) ∧ (s.step c).engine.ctl.csr.ctrlStart = false := by
  obtain ⟨lin, lout, hstores, hpath, _, _⟩ := h.path
  obtain ⟨hq, hn, hm, hacc, hret, hbeat, hquiet, hstart⟩ :=
    h.transfer.finish (P := P.toBurstParams) hd h.m_le hdisc (BitVec.ofNat 32 lin.length)
      (BitVec.ofNat 32 lout.length)
  rw [← bus_step hstores c] at hquiet hstart
  rw [List.drop_eq_nil_of_le (by rw [List.length_map]; omega), List.append_eq_nil_iff,
    List.append_eq_nil_iff, List.map_eq_nil_iff] at hpath
  obtain ⟨⟨rfl, hheld⟩, rfl⟩ := hpath
  obtain ⟨hstores', hvalid'⟩ := empty_next hstores (Pipeline.held_eq_nil.1 hheld) hret
    (by rw [h.fifoRdEn c, hbeat])
  exact ⟨hq, hn, hm, hacc, hret, hbeat, ⟨hquiet, hstores', hvalid'⟩, hstart⟩

/-- `burst_master_4` as a burst engine: words are scaled. -/
def system (P : BurstParams4) : BurstSystem where
  State := BurstStream P
  step := step
  bus := bus
  wmWritedata := fun s => s.engine.wmWritedata
  op := fun s => Pipeline.scaled s.engine.ctrlCoeff
  Clean := Clean
  Active := fun T f s ws q m => Active T s ws q m ∧ f = Pipeline.scaled s.engine.ctrlCoeff
  csr_step := by
    intro s c
    have hctl : (s.step c).engine.ctl =
        s.engine.ctl.step P.toBurstParams (s.engine.ctlInputs (s.inputs c)) :=
      BurstControl.step4_eq_step _ _ _
    rw [bus, hctl]
    rfl
  op_step := by
    intro s c hw
    rw [ctrlCoeff_step hw]
  quiet := fun _ h => h.quiet
  step_none := fun _ c h hs => h.step_none hs c
  step_start := by
    intro s c h hs hp hdisc
    have hact := h.step_start hs hp hdisc
    refine ⟨hact, ?_⟩
    have hstatus : c.avs.avsWrite = true →
        c.avs.avsAddress = 0 ∨ c.avs.avsAddress = 1 := by
      intro hw
      rcases hdisc.1 hw with h1 | h1
      · exact Or.inr h1
      · exact absurd (hs.symm.trans h1.1) (by decide)
    rw [ctrlCoeff_step hstatus]
  transfer := fun _ _ _ _ _ _ h => h.1.transfer
  active_step := by
    intro T f s ws q m c h hd hdisc
    refine ⟨h.1.step hd hdisc, ?_⟩
    rw [ctrlCoeff_step fun hw => Or.inr (h.1.transfer.status_only hdisc hw)]
    exact h.2
  active_finish := fun _ _ _ _ _ _ _ h hd hdisc => h.1.finish hd hdisc
  active_beat := by
    intro T f s ws q m c h hbeat
    rw [h.2]
    exact h.1.wmWritedata hbeat

/-- **`burst_master_4` streams every word through the arithmetic exactly once.**
Take any run from reset of a disciplined software.  From a Start command on, and
as long as no other transfer is started: the accepted read commands cover
`src, src + 4, ...` in order, the words come back in this order, and the taken
beats carry the first of these words, scaled with the coefficient, to
`dst, dst + 4, ...`.  When Done has risen, all `L / 4` words are covered, returned
and written, both FIFOs are empty, no pipeline stage is valid and no read is
pending.  In the whole run neither FIFO is written while it is full. -/
theorem streams_exactly (P : BurstParams4)
    (memIn memOut : BitVec (clog2 P.fifoDepth) → BitVec 32)
    (pre : List BurstCycle) (c0 : BurstCycle) (cs : List BurstCycle)
    (hdisc : ∀ p ∈ log step (init (P := P) memIn memOut) (pre ++ c0 :: cs),
      BurstBus.Disciplined p.1.engine.ctl p.2.avs)
    (hstart : c0.avs.start = true) (hone : ∀ c ∈ cs, c.avs.start = false) :
    let s0 := run step (init (P := P) memIn memOut) pre
    let s1 := run step s0 (c0 :: cs)
    let l := log step s0 (c0 :: cs)
    let csr := s0.engine.ctl.csr
    let words := (BurstBus.returns bus l).map Prod.snd
    (∃ q n m, m ≤ n ∧ n ≤ q ∧ q ≤ csr.ctrlLen.toNat / 4 ∧
      BurstBus.covered bus l = wordAddrs csr.ctrlSrcAddr q ∧
      (BurstBus.returns bus l).map Prod.fst = wordAddrs csr.ctrlSrcAddr n ∧
      BurstBus.beats bus (fun s => s.engine.wmWritedata) l =
        (wordAddrs csr.ctrlDstAddr m).zip
          ((words.map (Pipeline.scaled s0.engine.ctrlCoeff)).take m) ∧
      ((∃ p ∈ l, p.1.engine.ctl.DoneRises (p.1.step p.2).engine.ctl) →
        m = csr.ctrlLen.toNat / 4 ∧ s1.engine.fifoIn.empty = true ∧
          s1.engine.fifoOut.empty = true ∧
          (∀ g, g ≤ P.pipeLatency → s1.engine.pipe.pipelineValid g = false) ∧
          s1.engine.ctl.rm.pendingReads = 0)) ∧
    (∀ p ∈ log step (init (P := P) memIn memOut) (pre ++ c0 :: cs),
      ((p.1.inputs p.2).rmReaddatavalid = true → p.1.engine.fifoIn.full = false) ∧
      (p.1.engine.pipe.fifoOutWrEn P.pipeLatency p.1.engine.fifoOut.full = true →
        p.1.engine.fifoOut.full = false)) := by
  intro s0 s1 l csr words
  refine ⟨?_, ?_⟩
  · obtain ⟨hp, ws, q, m, hmoved, hm, hn, hq, hdone⟩ :=
      BurstSystem.transfer_exact (E := system P) (clean_init memIn memOut) rfl pre c0 cs hdisc
        hstart hone
    have hwords : words = ws := hmoved.words
    refine ⟨q, ws.length, m, hm, hn, hq, hmoved.covered, hmoved.addrs, ?_, ?_⟩
    · rw [hwords]
      exact hmoved.beats
    · intro hrise
      obtain ⟨hall, hclean⟩ := hdone hrise
      have hclean' : Clean s1 := hclean
      exact ⟨hall, hclean'.stores.fifoIn.empty_iff.2 rfl, hclean'.stores.fifoOut.empty_iff.2 rfl,
        hclean'.valid, hclean'.quiet.pending⟩
  · intro p hp
    refine ⟨?_, ?_⟩
    · intro hvalid
      have hret : (p.1.bus.returned p.2).isSome = true := hvalid
      obtain ⟨pre', post, hcs, hs⟩ := (mem_log_iff _ _ _ _).1 hp
      have hsettled : (system P).Settled p.1 := by
        rw [hs]
        refine BurstSystem.settled_run (E := system P) (clean_init memIn memOut) rfl pre' ?_
        intro p' hp'
        refine hdisc p' ?_
        rw [hcs, log_append]
        exact List.mem_append_left _ hp'
      rcases hsettled with ⟨hclean, _⟩ | ⟨T, f, ws, q, m, hact, _⟩
      · have hclean' : Clean p.1 := hclean
        rw [hclean'.quiet.returned p.2] at hret
        exact absurd hret (by decide)
      · obtain ⟨lin, lout, hstores, _, hcredit, _⟩ := hact.path
        have hroom := hact.transfer.room_of_returned hcredit hret
        rw [← Bool.not_eq_true, hstores.fifoIn.full_iff]
        omega
    · intro hwr
      have hready : p.1.engine.pipe.pipelineReady P.pipeLatency p.1.engine.fifoOut.full
          P.pipeLatency = !p.1.engine.fifoOut.full := by
        rw [Pipeline.pipelineReady, Nat.sub_self]
        rfl
      rw [Pipeline.fifoOutWrEn, hready, Bool.and_eq_true, Bool.not_eq_true'] at hwr
      exact hwr.2

/-- The register writes that program a transfer of two words with the coefficient
400. -/
def programTwoWords : List BurstCycle :=
  [BurstCycle.ready (AvsIn.write 5 2) 0, BurstCycle.ready (AvsIn.write 6 1) 0,
    BurstCycle.ready (AvsIn.write 2 0x100) 0, BurstCycle.ready (AvsIn.write 3 0x200) 0,
    BurstCycle.ready (AvsIn.write 4 8) 0, BurstCycle.ready (AvsIn.write 7 400) 0]

/-- A transfer of two words between slaves that do not stall. -/
theorem streams_exactly_two_words :
    let s0 := run step (init (P := BurstParams4.standard) (fun _ => 0) fun _ => 0)
      programTwoWords
    let l := log step s0 (BurstCycle.ready (AvsIn.write 0 1) 0 ::
      (List.range 20).map fun i => BurstCycle.ready AvsIn.none (BitVec.ofNat 32 i))
    BurstBus.covered bus l = wordAddrs 0x100 2 ∧
      BurstBus.beats bus (fun s => s.engine.wmWritedata) l =
        (wordAddrs 0x200 2).zip
          ((((BurstBus.returns bus l).map Prod.snd).map (Pipeline.scaled 400)).take 2) := by
  intro s0 l
  obtain ⟨⟨q, n, m, hmn, hnq, hq, hcov, _, hbeats, hdone⟩, _⟩ :=
    streams_exactly BurstParams4.standard (fun _ => 0) (fun _ => 0) programTwoWords
      (BurstCycle.ready (AvsIn.write 0 1) 0)
      ((List.range 20).map fun i => BurstCycle.ready AvsIn.none (BitVec.ofNat 32 i))
      (by decide +kernel) (by decide) (by decide)
  have hm := (hdone (by decide +kernel)).1
  have hsrc : s0.engine.ctl.csr.ctrlSrcAddr = 0x100 := by decide +kernel
  have hdst : s0.engine.ctl.csr.ctrlDstAddr = 0x200 := by decide +kernel
  have hcoeff : s0.engine.ctrlCoeff = 400 := by decide +kernel
  have hlen : s0.engine.ctl.csr.ctrlLen.toNat / 4 = 2 := by decide +kernel
  rw [hlen] at hm hq
  obtain rfl : m = 2 := hm
  obtain rfl : q = 2 := by omega
  rw [hsrc] at hcov
  rw [hdst, hcoeff] at hbeats
  exact ⟨hcov, hbeats⟩

end BurstStream
end VideoProcessing
