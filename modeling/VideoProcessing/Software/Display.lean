import VideoProcessing.Software.ConsolePanel
import VideoProcessing.Video.StoredFrame

/-!
# From the console to the display

The console and the video pipeline on one board: the user draws the colour bars, selects
the DMA source and switches continuous mode on, in whatever order, and the bars are on
the display.

* `console_step`: an event of the board is an event of `video_pipeline`, with the access
  that the processor makes;
* `ready_run`: what the panel keeps, the registers and the frame buffer keep in every
  cycle;
* `Showing`: the invariant; continuous mode is never switched off, so from the first
  trigger on the registers are as the display needs them;
* `bars_on_display`: every visible position shows the colour of its column;
* `run_away`: an event of `video_pipeline` on the board while the processor is away, with
  which a run of the whole board is put together.
-/

namespace VideoProcessing
namespace Soc

open Lib Console
open VideoPipeline (ClkIn latched)

variable {τ : Type} {P : Platform τ} {t : GammaTables}

section Pipeline

/-- The access as the control registers see it. -/
def accessPort : Access → ClkIn → ClkIn
  | .iordHdmi reg => reads reg
  | .iowrHdmi reg v => writes reg v
  | _ => id

/-- What the processor does to the control registers in an event. -/
def port (P : Platform τ) (c : Soc τ × Nios Menu) (e : Event) : ClkIn → ClkIn :=
  ((served (device P) c e).map fun r => accessPort r.1).getD id

/-- The event of `video_pipeline`. -/
def edge (P : Platform τ) (c : Soc τ × Nios Menu) (e : Event) : VideoPipeline.Event :=
  c.1.event (port P c e) e

/-- The run of `video_pipeline` in a run of the console. -/
def pipelineLog (P : Platform τ) (l : List ((Soc τ × Nios Menu) × Event)) :
    List (VideoPipeline × VideoPipeline.Event) :=
  l.map fun x => (x.1.1.pipeline, edge P x.1 x.2)

variable {c : Soc τ × Nios Menu} {e : Event} {l : List ((Soc τ × Nios Menu) × Event)}

theorem pipelineLog_snoc : pipelineLog P (l ++ [(c, e)]) =
    pipelineLog P l ++ [(c.1.pipeline, edge P c e)] := by
  simp [pipelineLog]

theorem access_step {s s' : Soc τ} {p : Port} {a : Access} {v : BitVec 32}
    (h : s.access P e p a = some (v, s')) :
    ∃ b, s' = { s.step (accessPort a) e with board := b } := by
  cases a with
  | ocmToDdrTest =>
      obtain ⟨r, -, hr⟩ := Option.map_eq_some_iff.1 h
      exact ⟨r.2, (Prod.mk.inj hr).2.symm⟩
  | ddrToDdrTest =>
      obtain ⟨r, -, hr⟩ := Option.map_eq_some_iff.1 h
      exact ⟨r.2, (Prod.mk.inj hr).2.symm⟩
  | _ => exact ⟨_, (Prod.mk.inj (Option.some.inj h)).2.symm⟩

/-- An event of the board is one of `video_pipeline`; memory is behind the processor. -/
theorem console_step (P : Platform τ) (t : GammaTables) (c : Soc τ × Nios Menu)
    (e : Event) :
    ∃ b, (console P t c e).1 = { c.1.step (port P c e) e with board := b } := by
  rw [console, port]
  rcases serve_cases (D := device P) (onKey t) c e with ⟨hstep, -, hserved⟩ |
    ⟨a, k, v, s', -, hact, hstep, -, hserved⟩ | ⟨m, f, x, s', -, -, hpoll, hstep, -, hserved⟩
  · rw [hstep, hserved]
    exact ⟨c.1.board, rfl⟩
  · obtain ⟨p, -, haccess⟩ := act_eq_some hact
    rw [hstep, hserved]
    exact access_step haccess
  · rw [hstep, hserved, poll_eq_some hpoll]
    exact ⟨c.1.board, rfl⟩

theorem console_pipeline (P : Platform τ) (t : GammaTables) (c : Soc τ × Nios Menu)
    (e : Event) :
    (console P t c e).1.pipeline = c.1.pipeline.step (edge P c e) := by
  obtain ⟨b, hb⟩ := console_step P t c e
  rw [hb]
  rfl

end Pipeline

section Panels

/-- The settings with which the display shows the frame buffer, which holds the bars. -/
structure Streams (p : Panel) : Prop where
  mode : p.mode = 8
  bars : p.bars = true

/-- What the panel keeps to: no single start, Cont is never switched off, and while it is
on the display shows the frame buffer. -/
structure Watching (p : Panel) : Prop where
  starts : p.starts = 0
  stops : p.stops = 0
  streams : p.cont = true → Streams p

/-- The same of the registers and the frame buffer. -/
structure Ready (w : View τ) : Prop where
  starts : w.starts = 0
  stops : w.stops = 0
  framePtr : w.framePtr = 0x30000000
  mode : w.cont = true → w.mode = 8
  frame : w.cont = true → w.board.window = 0x30000000 ∧ Painted w.board

variable {p p' : Panel} {c : BitVec 8} {w : View τ}

/-- A character leaves Cont, or it does nothing else than switch it. -/
theorem press_cont (t : GammaTables) (p : Panel) (c : BitVec 8) :
    (p.press t c).cont = p.cont ∨
      p.press t c = { p with cont := !p.cont, stops := p.stops + p.cont.toNat } := by
  cases hp : p.screen with
  | main =>
      rw [Panel.press_main hp]
      left
      split_ifs <;> rfl
  | gamma =>
      rw [Panel.press_gamma hp]
      left
      split_ifs <;> rfl
  | pattern =>
      rw [Panel.press_pattern hp]
      left
      split_ifs <;> rfl
  | dma =>
      rw [Panel.press_dma hp, ← hp]
      split
      · exact Or.inl rfl
      split
      · exact Or.inl rfl
      split
      · exact Or.inr rfl
      split
      · exact Or.inl rfl
      · exact Or.inl rfl
  | quit =>
      rw [Panel.press_quit hp]
      exact Or.inl rfl

/-- While Cont is seen on, the panels before and after the character both stream. -/
theorem Watching.streams_between (hp : Watching p) (hp' : Watching p')
    (hturn : p' = p ∨ ∃ c, p' = p.press t c) (h : Between p p' w) (hc : w.cont = true) :
    Streams p ∧ Streams p' := by
  have hsame : p'.cont = p.cont → Streams p ∧ Streams p' := by
    intro heq
    have hon : p.cont = true := by
      rcases h.cont with hcont | hcont
      · rw [← hcont, hc]
      · rw [← heq, ← hcont, hc]
    exact ⟨hp.streams hon, hp'.streams (heq.trans hon)⟩
  rcases hturn with rfl | ⟨c, rfl⟩
  · exact hsame rfl
  · rcases press_cont t p c with heq | hswitch
    · exact hsame heq
    · have hoff : p.cont = false := by
        have hstops := congrArg Panel.stops hswitch
        rw [hp'.stops, hp.stops] at hstops
        cases hcont : p.cont with
        | false => rfl
        | true =>
            rw [hcont] at hstops
            exact absurd hstops.symm (Nat.succ_ne_zero 0)
      have hon : (p.press t c).cont = true := by
        rw [hswitch, hoff]
        rfl
      have hs := hp'.streams hon
      rw [hswitch] at hs
      exact ⟨⟨hs.mode, hs.bars⟩, hp'.streams hon⟩

theorem ready_of_between (hp : Watching p) (hp' : Watching p')
    (hturn : p' = p ∨ ∃ c, p' = p.press t c) (h : Between p p' w) : Ready w where
  starts := h.starts.elim (fun h => h.trans hp.starts) (fun h => h.trans hp'.starts)
  stops := h.stops.elim (fun h => h.trans hp.stops) (fun h => h.trans hp'.stops)
  framePtr := h.framePtr
  mode hc := by
    obtain ⟨hs, hs'⟩ := hp.streams_between hp' hturn h hc
    exact h.mode.elim (fun h => h.trans hs.mode) (fun h => h.trans hs'.mode)
  frame hc := by
    obtain ⟨hs, hs'⟩ := hp.streams_between hp' hturn h hc
    exact h.frame hs.bars hs'.bars

variable {mem0 : BitVec 9 → BitVec 32} {csr0 : HdmiCsr} {board : Board τ}

theorem typed_append (c : Soc τ × Nios Menu) (es es' : List Event) :
    typed P t c (es ++ es') =
      typed P t c es ++ typed P t (run (console P t) c es) es' := by
  rw [typed, log_append, requests, List.filterMap_append]
  rfl

/-- What the panel keeps after every character, the board keeps in every cycle. -/
theorem ready_run (es : List Event)
    (hpanel : ∀ cs, cs <+: typed P t (init mem0 csr0 board) es →
      Watching (panel t csr0 cs)) :
    Ready (run (console P t) (init mem0 csr0 board) es).1.view := by
  have hb := between_run P t mem0 csr0 board es
  have hlast := hpanel _ List.prefix_rfl
  have hprev := hpanel _ (List.dropLast_prefix _)
  refine ready_of_between (t := t) hprev hlast ?_ hb
  generalize typed P t (init mem0 csr0 board) es = cs
  rcases List.eq_nil_or_concat cs with rfl | ⟨pre, c, rfl⟩
  · exact Or.inl rfl
  · right
    refine ⟨c, ?_⟩
    rw [List.concat_eq_append, List.dropLast_concat, panel, run_snoc]
    rfl

end Panels

section Run

/-- What the clocks and the FIFO must keep to: every `clk_hdmi` period contains a `clk_50`
edge, and from the first trigger on the FIFO is never read empty. -/
structure Smooth (P : Platform τ) (l : List ((Soc τ × Nios Menu) × Event))
    (c : Soc τ × Nios Menu) (e : Event) : Prop where
  covered : VideoPipeline.Covered (pipelineLog P l) c.1.pipeline (edge P c e)
  fed : 0 < (latched (pipelineLog P l)).length → (edge P c e).ticksHdmi = true →
    c.1.pipeline.streamRdEn = true → c.1.pipeline.dmaFifo.fifo.rd.rdempty = false

/-- The word that the frame buffer holds for position `k`. -/
def barWord (k : Nat) : BitVec 32 := barColor (k % width)

/-- The invariant. -/
structure Showing (P : Platform τ) (c : Soc τ × Nios Menu)
    (l : List ((Soc τ × Nios Menu) × Event)) : Prop where
  synced : VideoPipeline.Synced c.1.pipeline (VideoPipeline.seenAfter (pipelineLog P l))
  wired : VideoPipeline.Wired c.1.pipeline (pipelineLog P l)
  displaying : VideoPipeline.Displaying (fun _ => True) c.1.pipeline (pipelineLog P l)
  serves : VideoPipeline.Serves 0x30000000 barWord (pipelineLog P l)
  shadowPtr : c.1.pipeline.csr.shadowPtr = 0x30000000
  cont : 0 < (latched (pipelineLog P l)).length → c.1.view.cont = true

variable {c : Soc τ × Nios Menu} {e : Event} {l : List ((Soc τ × Nios Menu) × Event)}

theorem showing_init (mem0 : BitVec 9 → BitVec 32) (csr0 : HdmiCsr) (board : Board τ) :
    Showing P (init mem0 csr0 board) [] where
  synced := VideoPipeline.synced_reset (VideoPipeline.init mem0 csr0)
  wired := VideoPipeline.wired_init mem0 csr0
  displaying := VideoPipeline.displaying_init mem0 csr0
  serves := VideoPipeline.serves_nil _ _
  shadowPtr := rfl
  cont h := absurd h (Nat.not_lt_zero 0)

theorem clkIn_event (s : Soc τ) (f : ClkIn → ClkIn) (e : Event) :
    (s.event f e).clkIn = e.port.map fun p => f (s.clkIn p) := by
  cases e <;> rfl

/-- The `clk_50` edge of an event of the board. -/
theorem clkIn_edge {i : ClkIn} (hi : (edge P c e).clkIn = some i) :
    ∃ p, e.port = some p ∧ i = port P c e (c.1.clkIn p) := by
  rw [edge, clkIn_event, Option.map_eq_some_iff] at hi
  obtain ⟨p, hp, hpi⟩ := hi
  exact ⟨p, hp, hpi.symm⟩

/-- An access leaves the read slave alone. -/
theorem port_ret (i : ClkIn) : (port P c e i).ret = i.ret := by
  rw [port]
  cases served (device P) c e with
  | none => rfl
  | some r =>
      change (accessPort r.1 i).ret = i.ret
      cases r.1 <;> rfl

/-- Without a start pulse afterwards the processor has written no Start. -/
theorem noStart_of_ready (hr' : Ready (console P t c e).1.view) {i : ClkIn}
    (hi : (edge P c e).clkIn = some i) : i.start = false := by
  obtain ⟨b, hb⟩ := console_step P t c e
  obtain ⟨p, hp, rfl⟩ := clkIn_edge hi
  obtain ⟨vs, hcsr⟩ := c.1.step_csr (port P c e) hp
  have hstarts := hr'.starts
  rw [hb] at hstarts
  change c.1.starts + (e.port.isSome && (c.1.step (port P c e) e).pipeline.csr.dmaStartPulse).toNat
    = 0 at hstarts
  rw [hp, hcsr, Option.isSome_some, Bool.true_and, HdmiCsr.step_dmaStartPulse] at hstarts
  change c.1.starts + (port P c e (c.1.clkIn p)).start.toNat = 0 at hstarts
  cases hstart : (port P c e (c.1.clkIn p)).start with
  | false => rfl
  | true =>
      rw [hstart, Bool.toNat_true] at hstarts
      omega

/-- Cont stays on. -/
theorem cont_of_ready (hr' : Ready (console P t c e).1.view) (hc : c.1.view.cont = true) :
    (console P t c e).1.view.cont = true := by
  obtain ⟨b, hb⟩ := console_step P t c e
  have hstops := hr'.stops
  rw [hb] at hstops ⊢
  change c.1.stops + (c.1.view.cont && !(c.1.step (port P c e) e).view.cont).toNat = 0 at hstops
  change (c.1.step (port P c e) e).view.cont = true
  cases hcont : (c.1.step (port P c e) e).view.cont with
  | true => rfl
  | false =>
      rw [hc, hcont] at hstops
      exact absurd hstops (Nat.succ_ne_zero _)

/-- The slave returns what DDR holds. -/
theorem word_served {i : ClkIn} {a d : BitVec 32} (hi : (edge P c e).clkIn = some i)
    (hret : c.1.pipeline.dmaFifo.bus.returned (c.1.pipeline.busCycle i) = some (a, d)) :
    d = c.1.board.mem.ddr (wordOf a) := by
  obtain ⟨p, -, rfl⟩ := clkIn_edge hi
  have hword : (c.1.pipeline.busCycle (port P c e (c.1.clkIn p))).ret =
      if p.ready then c.1.pipeline.dmaFifo.bus.owed.head?.map
        fun a => c.1.board.mem.ddr (wordOf a)
      else none := port_ret (c.1.clkIn p)
  rw [DmaBus.returned, hword] at hret
  cases howed : c.1.pipeline.dmaFifo.bus.owed with
  | nil =>
      rw [howed] at hret
      exact absurd hret (by simp)
  | cons a' rest =>
      rw [howed] at hret
      cases hready : p.ready with
      | false =>
          rw [hready] at hret
          exact absurd hret (by simp)
      | true =>
          rw [hready] at hret
          obtain ⟨rfl, rfl⟩ := Prod.mk.inj (Option.some.inj hret)
          rfl

/-- The words of the frame buffer. -/
theorem painted_word {b : Board τ} (hwindow : b.window = 0x30000000) (hb : Painted b)
    {k : Nat} (hk : k < 518400) :
    b.mem.ddr (wordOf (0x30000000 + 4 * BitVec.ofNat 32 k)) = barWord k := by
  have haddr : (0x30000000 + 4 * BitVec.ofNat 32 k : BitVec 32) = index b.window k := by
    rw [index, hwindow, BitVec.ofNat_mul]
    rfl
  rw [haddr, wordOf_index]
  exact hb k hk

/-- In a steady cycle the settings are as the display needs them. -/
theorem Showing.steady (h : Showing P c l) (hr : Ready c.1.view)
    (hr' : Ready (console P t c e).1.view) (hs : Smooth P l c e) :
    VideoPipeline.Steady (fun _ => True) (pipelineLog P l) c.1.pipeline (edge P c e) where
  covered := hs.covered
  noStart i hi := noStart_of_ready hr' hi
  held hpos := by
    have hc := h.cont hpos
    have hmode : c.1.pipeline.csr.regMode = 8 := hr.mode hc
    refine ⟨?_, hc, trivial⟩
    rw [HdmiCsr.mode, hmode]
    rfl
  fed := hs.fed

/-- A trigger finds Cont on. -/
theorem Showing.cont_of_triggers (h : Showing P c l)
    (htrig : c.1.pipeline.triggers (edge P c e) = true) : c.1.view.cont = true := by
  rw [VideoPipeline.triggers_eq h.displaying.start] at htrig
  simp only [Bool.and_eq_true] at htrig
  exact htrig.2.1

theorem Showing.step (h : Showing P c l) (hr : Ready c.1.view)
    (hr' : Ready (console P t c e).1.view) (hs : Smooth P l c e) :
    Showing P (console P t c e) (l ++ [(c, e)]) where
  synced := by
    rw [console_pipeline, pipelineLog_snoc, VideoPipeline.seenAfter_snoc]
    exact h.synced.step hs.covered
  wired := by
    rw [console_pipeline, pipelineLog_snoc]
    exact h.wired.step _
  displaying := by
    rw [console_pipeline, pipelineLog_snoc]
    exact h.displaying.step h.wired h.synced (h.steady hr hr' hs)
  serves := by
    rw [pipelineLog_snoc]
    refine h.serves.step (fun _ => h.shadowPtr) ?_
    intro i a d hi hret k hk ha
    obtain ⟨hwindow, hpainted⟩ := hr.frame (h.cont (h.wired.latched_pos hret))
    rw [word_served hi hret, ha]
    exact painted_word hwindow hpainted hk
  shadowPtr := by
    rw [console_pipeline, VideoPipeline.step_shadowPtr]
    split
    · exact hr.framePtr
    · exact h.shadowPtr
  cont hpos := by
    refine cont_of_ready hr' ?_
    rw [pipelineLog_snoc, VideoPipeline.length_latched_snoc] at hpos
    cases htrig : c.1.pipeline.triggers (edge P c e) with
    | true => exact h.cont_of_triggers htrig
    | false =>
        rw [htrig] at hpos
        exact h.cont hpos

theorem showing_run {mem0 : BitVec 9 → BitVec 32} {csr0 : HdmiCsr} {board : Board τ}
    {es : List Event}
    (hpanel : ∀ cs, cs <+: typed P t (init mem0 csr0 board) es →
      Watching (panel t csr0 cs))
    (hsmooth : Guarded (Smooth P) (console P t) (init mem0 csr0 board) es) :
    Showing P (run (console P t) (init mem0 csr0 board) es)
      (log (console P t) (init mem0 csr0 board) es) := by
  have hready : ∀ pre post, es = pre ++ post →
      Ready (run (console P t) (init mem0 csr0 board) pre).1.view := by
    rintro pre post rfl
    refine ready_run pre fun cs hcs => hpanel cs ?_
    rw [typed_append]
    exact hcs.trans (List.prefix_append _ _)
  refine log_invariant_of
    (G := fun l c e =>
      Ready c.1.view ∧ Ready (console P t c e).1.view ∧ Smooth P l c e)
    (showing_init mem0 csr0 board) ?_ es ?_
  · rintro c l e h ⟨hr, hr', hs⟩
    exact h.step hr hr' hs
  · intro pre e post hes
    refine ⟨hready pre _ hes, ?_, hsmooth pre e post hes⟩
    have hnext := hready (pre ++ [e]) post (by rw [hes]; simp)
    rw [run_snoc] at hnext
    exact hnext

/-- The colour bars are on the display, whatever the user types, as long as Cont is
never switched off, nothing is started by hand, and with Cont on the panel shows the DMA
source and the bars are drawn: `hdmi_de` is high exactly at the visible positions, and
from the first trigger on the colour at `(x, y)` is that of column `x`, channel by
channel through the table when gamma is on.  Gamma and the table may change at any time;
what counts are the registers that the last pixel clock found. -/
theorem bars_on_display (P : Platform τ) (t : GammaTables) (mem0 : BitVec 9 → BitVec 32)
    (csr0 : HdmiCsr) (board : Board τ) (es : List Event)
    (hpanel : ∀ cs, cs <+: typed P t (init mem0 csr0 board) es → Watching (panel t csr0 cs))
    (hsmooth : Guarded (Smooth P) (console P t) (init mem0 csr0 board) es) :
    let s := (run (console P t) (init mem0 csr0 board) es).1.pipeline
    let l := pipelineLog P (log (console P t) (init mem0 csr0 board) es)
    (s.pixel.hdmiDe = true ↔ ∃ x y, s.ShownAt x y) ∧
      (0 < (latched l).length → ∀ x y, s.ShownAt x y →
        ∃ c, VideoPipeline.sampled l = some c ∧ s.pixel.hdmiD =
          if c.gammaEn then
            c.lutMem ((barColor x).extractLsb' 16 8) ++
              c.lutMem ((barColor x).extractLsb' 8 8) ++ c.lutMem ((barColor x).extractLsb' 0 8)
          else (barColor x).extractLsb' 0 24) := by
  intro s l
  have h := showing_run hpanel hsmooth
  refine ⟨h.synced.hdmiDe_iff, fun hpos x y hat => ?_⟩
  have hcolumn : barWord (960 * y + x) = barColor x := by
    have heq := column_eq y (hat.x_lt : x < width)
    rw [Nat.mul_comm] at heq
    exact congrArg barColor heq
  obtain ⟨c, hsampled, -, hout⟩ := h.displaying.shown h.wired h.serves hpos hat
  rw [hcolumn, VideoPipeline.outputColor_word] at hout
  exact ⟨c, hsampled, hout⟩

end Run

section Replay

/-!
A run of `video_pipeline` on the board: the processor is away, and the events are those of
the pipeline.  `answered` is computed for them, and `run_away` replays them.
-/

/-- The events of `video_pipeline` in a run of the console. -/
def edges (P : Platform τ) (t : GammaTables) (c : Soc τ × Nios Menu) (es : List Event) :
    List VideoPipeline.Event :=
  (log (console P t) c es).map fun x => edge P x.1 x.2

variable {c : Soc τ × Nios Menu} {s : Soc τ} {es es' : List Event}

theorem pipelineLog_log (c : Soc τ × Nios Menu) (es : List Event) :
    pipelineLog P (log (console P t) c es) =
      log VideoPipeline.step c.1.pipeline (edges P t c es) :=
  (log_project_map (π := fun c : Soc τ × Nios Menu => c.1.pipeline)
    (console_pipeline P t) c es).symm

theorem edges_append : edges P t c (es ++ es') =
    edges P t c es ++ edges P t (run (console P t) c es) es' := by
  rw [edges, log_append, List.map_append]
  rfl

theorem typed_cons (c : Soc τ × Nios Menu) (e : Event) (es : List Event) :
    typed P t c (e :: es) =
      (request (device P) (onKey t) c e).toList ++ typed P t (console P t c e) es := by
  rw [typed, log_cons, requests, List.filterMap_cons]
  cases request (device P) (onKey t) c e <;> rfl

theorem edges_cons (c : Soc τ × Nios Menu) (e : Event) (es : List Event) :
    edges P t c (e :: es) = edge P c e :: edges P t (console P t c e) es := rfl

theorem pipeline_run (c : Soc τ × Nios Menu) (es : List Event) :
    (run (console P t) c es).1.pipeline =
      run VideoPipeline.step c.1.pipeline (edges P t c es) :=
  run_project_map (π := fun c : Soc τ × Nios Menu => c.1.pipeline) (console_pipeline P t) c es

theorem raster_console (h : c.1.pipeline.pixel.Raster VideoPipeline.params)
    (es : List Event) :
    (run (console P t) c es).1.pipeline.pixel.Raster VideoPipeline.params := by
  rw [pipeline_run]
  exact VideoPipeline.raster_run h _

/-- No pixel clock reads the FIFO while it is empty. -/
def fedCheck (x : VideoPipeline × VideoPipeline.Event) : Bool :=
  !(x.2.ticksHdmi && x.1.streamRdEn && x.1.dmaFifo.fifo.rd.rdempty)

theorem fedCheck_quiet (s : VideoPipeline) (x : VideoPipeline × VideoPipeline.Event)
    (_ : true = true) (h : VideoPipeline.Quiet s VideoPipeline.stallIn x) :
    fedCheck x = true := by
  rw [fedCheck, h.noRead, Bool.and_false]
  rfl

theorem smooth_of_edges (hcov : VideoPipeline.coveredRun true (edges P t c es) = true)
    (hfed : ∀ x ∈ log VideoPipeline.step c.1.pipeline (edges P t c es), fedCheck x = true) :
    Guarded (Smooth P) (console P t) c es := by
  intro pre e post hes
  have hsplit : edges P t c es = edges P t c pre ++
      edge P (run (console P t) c pre) e :: edges P t (run (console P t) c (pre ++ [e])) post := by
    rw [hes, edges_append, run_snoc]
    rfl
  refine ⟨?_, fun _ hticks hread => ?_⟩
  · rw [VideoPipeline.Covered, pipelineLog_log, VideoPipeline.seenAfter_log]
    rw [hsplit, VideoPipeline.coveredRun_append, Bool.and_eq_true,
      VideoPipeline.coveredRun, Bool.and_eq_true] at hcov
    exact hcov.2.1
  · have hmem := hfed ((run (console P t) c pre).1.pipeline, edge P (run (console P t) c pre) e)
      ((mem_log_iff _ _ _ _).2 ⟨edges P t c pre, _, hsplit, pipeline_run c pre⟩)
    rw [fedCheck, hticks, hread] at hmem
    simpa using hmem

/-- The event of the board with the processor away. -/
def away : VideoPipeline.Event → Event
  | .clk50 i => .clk50 ⟨i.mWaitrequest, i.ret.isSome, false, none, 0, 0⟩
  | .clkHdmi => .clkHdmi
  | .both i rdMask wrMask vsNew toggleNew =>
      .both ⟨i.mWaitrequest, i.ret.isSome, false, none, 0, 0⟩ rdMask wrMask vsNew toggleNew

/-- No control register is accessed, and the slave returns what memory holds. -/
def answered (ddr : BitVec 30 → BitVec 32) (x : VideoPipeline × VideoPipeline.Event) :
    Bool :=
  x.2.clkIn.all fun i =>
    !i.sRead && !i.sWrite && i.sAddress == 0 && i.sWritedata == 0 &&
      i.ret.all fun d => (x.1.dmaFifo.bus.owed.head?.map fun a => ddr (wordOf a)) == some d

theorem clkIn_answered {i : ClkIn}
    (h : answered s.board.mem.ddr (s.pipeline, .clk50 i) = true) :
    s.clkIn ⟨i.mWaitrequest, i.ret.isSome, false, none, 0, 0⟩ = i := by
  obtain ⟨address, read, write, writedata, waitrequest, ret⟩ := i
  simp only [answered, VideoPipeline.Event.clkIn, Option.all_some, Bool.and_eq_true,
    Bool.not_eq_true', beq_iff_eq] at h
  obtain ⟨⟨⟨⟨rfl, rfl⟩, rfl⟩, rfl⟩, hret⟩ := h
  cases ret with
  | none => rfl
  | some d =>
      rw [Option.all_some, beq_iff_eq] at hret
      exact congrArg (ClkIn.mk 0 false false 0 waitrequest) hret

theorem event_away {e : VideoPipeline.Event}
    (h : answered s.board.mem.ddr (s.pipeline, e) = true) : s.event id (away e) = e := by
  cases e with
  | clk50 i => exact congrArg VideoPipeline.Event.clk50 (clkIn_answered h)
  | clkHdmi => rfl
  | both i rdMask wrMask vsNew toggleNew =>
      exact congrArg (fun i => VideoPipeline.Event.both i rdMask wrMask vsNew toggleNew)
        (clkIn_answered (i := i) h)

/-- An event without an access is an event of the pipeline. -/
theorem idle_eq {e : Event} {e' : VideoPipeline.Event} (h : s.event id e = e') :
    s.idle e = { s with pipeline := s.pipeline.step e' } := by
  have hview := view_idle s e
  have hstarts : (s.idle e).starts = s.starts := congrArg View.starts hview
  have hstops : (s.idle e).stops = s.stops := congrArg View.stops hview
  have hmk : s.idle e = ⟨s.pipeline.step (s.event id e), s.board, (s.idle e).starts,
      (s.idle e).stops⟩ := rfl
  rw [hmk, h, hstarts, hstops]

/-- With the pipeline at rest the board is. -/
theorem idle_still (h : VideoPipeline.still VideoPipeline.stallIn s.pipeline = true)
    (c : Option (BitVec 8)) : s.idle (goEvent c) = s := by
  have hevent : s.event id (goEvent c) = .clk50 VideoPipeline.stallIn := rfl
  rw [idle_eq hevent, VideoPipeline.step_clk50_still h]

theorem console_away {e : VideoPipeline.Event}
    (h : answered c.1.board.mem.ddr (c.1.pipeline, e) = true) :
    console P t c (away e) = ({ c.1 with pipeline := c.1.pipeline.step e }, c.2) ∧
      edge P c (away e) = e ∧ request (device P) (onKey t) c (away e) = none := by
  have hact : ∀ s a, (device P).act s (away e) a = none := by
    intro s a
    cases e <;> rfl
  have hpoll : ∀ s, (device P).poll s (away e) = none := by
    intro s
    cases e <;> rfl
  rcases serve_cases (D := device P) (onKey t) c (away e) with ⟨hstep, hreq, hserved⟩ |
    ⟨a, k, v, s', -, ha, -⟩ | ⟨m, f, x, s', -, -, hp, -⟩
  · refine ⟨?_, ?_, hreq⟩
    · rw [console, hstep]
      exact congrArg (·, c.2) (idle_eq (event_away h))
    · rw [edge, port, hserved]
      exact event_away h
  · exact absurd (ha.symm.trans (hact c.1 a)) (by simp)
  · exact absurd (hp.symm.trans (hpoll c.1)) (by simp)

theorem run_away (es : List VideoPipeline.Event) (c : Soc τ × Nios Menu)
    (h : ∀ x ∈ log VideoPipeline.step c.1.pipeline es, answered c.1.board.mem.ddr x = true) :
    run (console P t) c (es.map away) =
        ({ c.1 with pipeline := run VideoPipeline.step c.1.pipeline es }, c.2) ∧
      edges P t c (es.map away) = es ∧ typed P t c (es.map away) = [] := by
  induction es generalizing c with
  | nil => exact ⟨rfl, rfl, rfl⟩
  | cons e es ih =>
      obtain ⟨hstep, hedge, hreq⟩ :=
        console_away (P := P) (t := t) (h _ List.mem_cons_self)
      obtain ⟨hrun, hedges, htyped⟩ := ih ({ c.1 with pipeline := c.1.pipeline.step e }, c.2)
        fun x hx => h x (List.mem_cons_of_mem _ hx)
      rw [edges] at hedges ⊢
      rw [typed, requests] at htyped ⊢
      rw [List.map_cons, run_cons, log_cons, hstep, List.map_cons, hedge, hedges,
        List.filterMap_cons, hreq]
      exact ⟨hrun, rfl, htyped⟩

/-- The same for a run in pieces. -/
theorem run_away_pieces (hr : c.1.pipeline.pixel.Raster VideoPipeline.params)
    (ps : List VideoPipeline.Piece)
    (h : VideoPipeline.checksAll (answered c.1.board.mem.ddr) (fun _ => true) c.1.pipeline ps =
      true) :
    run (console P t) c ((VideoPipeline.unfoldAll ps).map away) =
        ({ c.1 with pipeline := VideoPipeline.applyAll c.1.pipeline ps }, c.2) ∧
      edges P t c ((VideoPipeline.unfoldAll ps).map away) = VideoPipeline.unfoldAll ps ∧
      typed P t c ((VideoPipeline.unfoldAll ps).map away) = [] := by
  have hquiet : ∀ s x, true = true → VideoPipeline.Quiet s VideoPipeline.stallIn x →
      answered c.1.board.mem.ddr x = true := by
    intro s x _ hx
    rcases hx.event with he | he
    · rw [answered, he]
      rfl
    · rw [answered, he]
      rfl
  obtain ⟨hrun, hall, -⟩ := VideoPipeline.run_pieces hquiet hr ps h
  obtain ⟨hconsole, hedges, htyped⟩ := run_away (P := P) (t := t) _ c hall
  rw [hrun] at hconsole
  exact ⟨hconsole, hedges, htyped⟩

/-- Apart from the control registers the pipeline sees nothing of an access. -/
theorem accessPort_apart {a : Access} (h : Apart a) : accessPort a = id := by
  cases a <;> first | rfl | exact h.elim

/-- The processor makes an access at every edge, and the slave of the video DMA stalls. -/
theorem run_executes {R : Type} {p : Nios R} {r : R} {s' : Soc τ} {n : Nat}
    (h : Executes (device P) (onKey t) Apart p s (List.replicate n (goEvent none)) r s')
    (k : R → Nios Menu) :
    run (console P t) (s, p.bind k) (List.replicate n (goEvent none)) = (s', k r) ∧
      edges P t (s, p.bind k) (List.replicate n (goEvent none)) =
        List.replicate n (.clk50 VideoPipeline.stallIn) ∧
      typed P t (s, p.bind k) (List.replicate n (goEvent none)) = [] := by
  refine ⟨(h k).1, ?_, h.no_request k⟩
  rw [edges, List.eq_replicate_iff, List.length_map, length_log, List.length_replicate]
  refine ⟨rfl, fun y hy => ?_⟩
  obtain ⟨x, hx, rfl⟩ := List.mem_map.1 hy
  obtain ⟨a, v, ha, hserved⟩ := (h k).2 x hx
  have hgo : x.2 = goEvent none := by
    obtain ⟨pre, post, hes, -⟩ := (mem_log_iff _ _ _ _).1 hx
    exact List.eq_of_mem_replicate (hes ▸ List.mem_append_right pre List.mem_cons_self)
  rw [edge, port, hserved, hgo]
  change x.1.1.event (accessPort a) (goEvent none) = _
  rw [accessPort_apart ha]
  rfl

end Replay

section FirstLine

/-!
The user draws the bars; while the first frame is blanked out he switches gamma on,
selects the DMA source and sets Cont, and the first line is shown.  At power-up the
table, which has no reset, holds the complements.
-/

/-- Memory at power-up. -/
def blankBoard : Board Unit := ⟨0, ⟨fun _ => 0, fun _ => 0⟩, ()⟩

/-- Power-up. -/
def atPowerUp : Soc Unit × Nios Menu := init (fun _ => 0) VideoPipeline.rampCsr0 blankBoard

/-- Option 4 of the main menu, with a `clk_50` edge for each access. -/
def drawing : List Event :=
  List.replicate 3 (goEvent none) ++
    goEvent (some (key '4')) :: List.replicate frameWords (goEvent none)

/-- The window is set. -/
def waiting : Soc Unit :=
  { atPowerUp.1 with board := { blankBoard with window := 0x30000000 } }

/-- The bars are drawn. -/
def drawn : Soc Unit × Nios Menu :=
  ({ waiting with board := painted waiting.board }, .ret ⟨.main, false, false, false⟩)

/-- Up to the line before the first VSync. -/
def restUp : List VideoPipeline.Piece :=
  [.events (VideoPipeline.rounds VideoPipeline.stallIn 3), .rest 608137 1100 542]

def atKeys : Soc Unit × Nios Menu :=
  ({ drawn.1 with pipeline := VideoPipeline.applyAll drawn.1.pipeline restUp }, drawn.2)

/-- Gamma on, the DMA source, Cont. -/
def keys : List Event :=
  [goEvent (some (key '6')), goEvent (some (key '1')), goEvent none, goEvent none,
    goEvent (some (key 'b')), goEvent (some (key '8')), goEvent none, goEvent none,
    goEvent (some (key '1')), goEvent none, goEvent none, goEvent none,
    goEvent (some (key '2')), goEvent none, goEvent none, goEvent none, goEvent none]

def afterKeys : Soc Unit × Nios Menu := run (console bench flatTables) atKeys keys

/-- The first frame is triggered, two bursts of it are fetched, and the first line
begins. -/
def showing (last : List VideoPipeline.Event) : List VideoPipeline.Piece :=
  .events (VideoPipeline.rounds VideoPipeline.stallIn 23) ::
    VideoPipeline.afterPulse (VideoPipeline.fetch barWord 2) last

/-- Up to the edge before column `x` is shown. -/
def toColumn (x : Nat) : List VideoPipeline.Event :=
  VideoPipeline.rounds VideoPipeline.stallIn (21 + x) ++ [.clk50 VideoPipeline.stallIn]

/-- The run to column `x`. -/
def barsRun (x : Nat) : List Event :=
  drawing ++ ((VideoPipeline.unfoldAll restUp).map away ++ (keys ++
    (VideoPipeline.unfoldAll (showing (toColumn x ++ [.clkHdmi]))).map away))

/-- The same for `video_pipeline`. -/
def barsPieces (last : List VideoPipeline.Event) : List VideoPipeline.Piece :=
  .hold (4 + frameWords) :: (restUp ++ .events (edges bench flatTables atKeys keys) ::
    showing last)

theorem unfoldAll_barsPieces (es : List VideoPipeline.Event) (e : VideoPipeline.Event) :
    VideoPipeline.unfoldAll (barsPieces (es ++ [e])) =
      VideoPipeline.unfoldAll (barsPieces es) ++ [e] := by
  simp only [barsPieces, restUp, showing, VideoPipeline.afterPulse,
    VideoPipeline.unfoldAll, List.flatMap_cons, List.flatMap_append, List.flatMap_nil,
    VideoPipeline.Piece.unfold, List.append_assoc, List.append_nil]

theorem still_atPowerUp : VideoPipeline.still VideoPipeline.stallIn
    (VideoPipeline.init (fun _ => 0) VideoPipeline.rampCsr0) = true := by
  decide +kernel

/-- `main`, up to the first character. -/
theorem executes_main : Executes (device bench) (onKey flatTables) Apart Console.main
    atPowerUp.1 (List.replicate 3 (goEvent none)) ⟨.main, false, false, false⟩ waiting := by
  have hbase : (device bench).act atPowerUp.1 (goEvent none) (.iowrSpanExtender 0 0x30000000) =
      some (0, { atPowerUp.1.idle (goEvent none) with
        board := { blankBoard with window := 0x30000000 } }) := rfl
  have hupper : (device bench).act waiting (goEvent none) (.iowrSpanExtender 4 0) =
      some (0, waiting.idle (goEvent none)) := rfl
  have hlocked : (device bench).act waiting (goEvent none) .iordPllLocked =
      some (0, waiting.idle (goEvent none)) := rfl
  rw [idle_still still_atPowerUp] at hbase
  rw [idle_still still_atPowerUp] at hupper hlocked
  exact executes_act hbase trivial (executes_act hupper trivial (executes_act hlocked trivial
    (executes_ret _ _)))

/-- The bars are drawn before the first pixel clock. -/
theorem run_drawing :
    run (console bench flatTables) atPowerUp drawing = drawn ∧
      edges bench flatTables atPowerUp drawing =
        List.replicate (4 + frameWords) (.clk50 VideoPipeline.stallIn) ∧
      typed bench flatTables atPowerUp drawing = [key '4'] := by
  let menu : Menu := ⟨.main, false, false, false⟩
  obtain ⟨hmain, hmainEdges, hmainTyped⟩ := run_executes executes_main .ret
  have hstart : (atPowerUp.1, Console.main.bind .ret) = atPowerUp :=
    congrArg (atPowerUp.1, ·) (Prog.bind_ret _)
  rw [hstart] at hmain hmainEdges hmainTyped
  have hkey : console bench flatTables (waiting, .ret menu) (goEvent (some (key '4'))) =
      (waiting.idle (goEvent (some (key '4'))), generateColorBarPattern.bind fun _ => .ret menu) :=
    rfl
  rw [idle_still still_atPowerUp] at hkey
  obtain ⟨hdraw, hdrawEdges, hdrawTyped⟩ := run_executes (executes_generateColorBarPattern
    (P := bench) (t := flatTables) waiting (idle_still still_atPowerUp none)) fun _ => .ret menu
  refine ⟨?_, ?_, ?_⟩
  · rw [drawing, run_append, hmain, run_cons, hkey, hdraw]
    rfl
  · have hfirst : edge bench (waiting, .ret menu) (goEvent (some (key '4'))) =
        .clk50 VideoPipeline.stallIn := rfl
    rw [drawing, edges_append, hmain, hmainEdges, edges_cons, hkey, hdrawEdges, hfirst,
      ← List.replicate_succ, List.replicate_append_replicate, ← Nat.add_assoc,
      Nat.add_right_comm]
  · have htaken : request (device bench) (onKey flatTables) (waiting, .ret menu)
        (goEvent (some (key '4'))) = some (key '4') := rfl
    rw [drawing, typed_append, hmain, hmainTyped, List.nil_append, typed_cons, hkey,
      hdrawTyped, htaken]
    rfl

/-- Two columns, one of the first bar and one of the second. -/
def columns : List Nat := [0, 120]

theorem answered_barsRun :
    VideoPipeline.checksAll (answered drawn.1.board.mem.ddr) (fun _ => true) drawn.1.pipeline
        restUp = true ∧
      ∀ x ∈ columns, VideoPipeline.checksAll (answered afterKeys.1.board.mem.ddr) (fun _ => true)
        afterKeys.1.pipeline (showing (toColumn x ++ [.clkHdmi])) = true := by
  decide +kernel

theorem facts_barsRun : ∀ x ∈ columns,
    let s :=
      VideoPipeline.applyAll atPowerUp.1.pipeline (barsPieces (toColumn x ++ [.clkHdmi]))
    VideoPipeline.checksAll fedCheck (fun _ => true) atPowerUp.1.pipeline
        (barsPieces (toColumn x ++ [.clkHdmi])) = true ∧
      (barsPieces (toColumn x ++ [.clkHdmi])).all VideoPipeline.Piece.covered = true ∧
      x < 960 ∧ s.pixel.hCnt.toNat = x + 2 ∧ s.pixel.vCnt.toNat = 0 ∧
      s.csr.gammaEn = true ∧ s.csr.lutMem 0xFF = 0x00 ∧ s.csr.lutMem 0x00 = 0xFF ∧
      latched (VideoPipeline.activeAll atPowerUp.1.pipeline
        (barsPieces (toColumn x ++ [.clkHdmi]))) = [0x30000000] := by
  decide +kernel

theorem raster_atPowerUp : atPowerUp.1.pipeline.pixel.Raster VideoPipeline.params :=
  HdmiPixel.raster_reset VideoPipeline.params

/-- The edges of the run, and the characters. -/
theorem edges_barsRun {x : Nat} (hx : x ∈ columns) :
    edges bench flatTables atPowerUp (barsRun x) =
        VideoPipeline.unfoldAll (barsPieces (toColumn x ++ [.clkHdmi])) ∧
      typed bench flatTables atPowerUp (barsRun x) =
        [key '4', key '6', key '1', key 'b', key '8', key '1', key '2'] := by
  obtain ⟨hdraw, hdrawEdges, hdrawTyped⟩ := run_drawing
  obtain ⟨hup, hupEdges, hupTyped⟩ := run_away_pieces (P := bench) (t := flatTables) (c := drawn)
    raster_atPowerUp restUp answered_barsRun.1
  have hat : run (console bench flatTables) drawn ((VideoPipeline.unfoldAll restUp).map away) =
      atKeys := hup
  have hafter : run (console bench flatTables) atKeys keys = afterKeys := rfl
  have hraster : afterKeys.1.pipeline.pixel.Raster VideoPipeline.params := by
    have hup' := raster_console (P := bench) (t := flatTables) (c := drawn) raster_atPowerUp
      ((VideoPipeline.unfoldAll restUp).map away)
    rw [hat] at hup'
    exact raster_console hup' keys
  obtain ⟨-, hshowEdges, hshowTyped⟩ := run_away_pieces (P := bench) (t := flatTables)
    (c := afterKeys) hraster _ (answered_barsRun.2 x hx)
  have hkeys : typed bench flatTables atKeys keys =
      [key '6', key '1', key 'b', key '8', key '1', key '2'] := by
    decide +kernel
  constructor
  · rw [barsRun, edges_append, hdraw, hdrawEdges, edges_append, hat, hupEdges,
      edges_append, hafter, hshowEdges]
    simp only [barsPieces, VideoPipeline.unfoldAll, List.flatMap_cons, List.flatMap_append,
      VideoPipeline.Piece.unfold]
  · rw [barsRun, typed_append, hdraw, hdrawTyped, typed_append, hat, hupTyped,
      typed_append, hafter, hshowTyped, hkeys]
    rfl

theorem sampled_clkHdmi (s : VideoPipeline) (es : List VideoPipeline.Event) :
    VideoPipeline.sampled (log VideoPipeline.step s (es ++ [.clkHdmi])) =
      some (run VideoPipeline.step s (es ++ [.clkHdmi])).csr := by
  rw [log_snoc, VideoPipeline.sampled_snoc, run_snoc]
  rfl

/-- Where the run ends, what the pipeline sees last, and that a frame has been
triggered. -/
theorem run_barsRun {x : Nat} (hx : x ∈ columns) :
    let s := (run (console bench flatTables) atPowerUp (barsRun x)).1.pipeline
    let l := pipelineLog bench (log (console bench flatTables) atPowerUp (barsRun x))
    s.ShownAt x 0 ∧ 0 < (latched l).length ∧
      ∃ c, VideoPipeline.sampled l = some c ∧ c.gammaEn = true ∧ c.lutMem 0xFF = 0x00 ∧
        c.lutMem 0x00 = 0xFF := by
  intro s l
  obtain ⟨hfed, -, hlt, hh, hv, hgamma, hwhite, hblack, hlatched⟩ := facts_barsRun x hx
  obtain ⟨hrun, -, hlog⟩ := VideoPipeline.run_pieces fedCheck_quiet raster_atPowerUp _ hfed
  have hl : l = log VideoPipeline.step atPowerUp.1.pipeline
      (VideoPipeline.unfoldAll (barsPieces (toColumn x ++ [.clkHdmi]))) := by
    rw [← (edges_barsRun hx).1]
    exact pipelineLog_log _ _
  have hs : s = VideoPipeline.applyAll atPowerUp.1.pipeline
      (barsPieces (toColumn x ++ [.clkHdmi])) := by
    rw [← hrun, ← (edges_barsRun hx).1]
    exact pipeline_run atPowerUp (barsRun x)
  refine ⟨?_, ?_, _, ?_, hgamma, hwhite, hblack⟩
  · rw [hs]
    exact ⟨hlt, by decide, hh, hv⟩
  · rw [hl, latched, hlog _ fun s x hq => by rw [hq.noTrigger]; rfl, ← latched, hlatched]
    decide
  · rw [hl, unfoldAll_barsPieces, sampled_clkHdmi, ← unfoldAll_barsPieces, hrun]

instance (p : Panel) : Decidable (Watching p) :=
  decidable_of_iff (p.starts = 0 ∧ p.stops = 0 ∧ (p.cont = true → p.mode = 8 ∧ p.bars = true))
    ⟨fun ⟨h1, h2, h3⟩ => ⟨h1, h2, fun hc => ⟨(h3 hc).1, (h3 hc).2⟩⟩,
      fun h => ⟨h.starts, h.stops, fun hc => ⟨(h.streams hc).mode, (h.streams hc).bars⟩⟩⟩

theorem watching_barsRun {x : Nat} (hx : x ∈ columns) :
    ∀ cs, cs <+: typed bench flatTables atPowerUp (barsRun x) →
      Watching (panel flatTables VideoPipeline.rampCsr0 cs) := by
  have hall : ∀ cs ∈ [key '4', key '6', key '1', key 'b', key '8', key '1', key '2'].inits,
      Watching (panel flatTables VideoPipeline.rampCsr0 cs) := by
    decide +kernel
  intro cs hcs
  rw [(edges_barsRun hx).2] at hcs
  exact hall cs ((List.mem_inits _ _).2 hcs)

theorem smooth_barsRun {x : Nat} (hx : x ∈ columns) :
    Guarded (Smooth bench) (console bench flatTables) atPowerUp (barsRun x) := by
  obtain ⟨hfed, hcov, -⟩ := facts_barsRun x hx
  obtain ⟨-, hall, -⟩ := VideoPipeline.run_pieces fedCheck_quiet raster_atPowerUp _ hfed
  refine smooth_of_edges ?_ ?_
  · rw [(edges_barsRun hx).1]
    exact VideoPipeline.coveredRun_pieces _ hcov true
  · rw [(edges_barsRun hx).1]
    exact hall

/-- The first column of the first bar and of the second one, with gamma on. -/
theorem bars_on_display_first_line :
    (run (console bench flatTables) atPowerUp (barsRun 0)).1.pipeline.pixel.hdmiDe = true ∧
      (run (console bench flatTables) atPowerUp (barsRun 0)).1.pipeline.pixel.hdmiD = 0x000000 ∧
      (run (console bench flatTables) atPowerUp (barsRun 120)).1.pipeline.pixel.hdmiDe = true ∧
      (run (console bench flatTables) atPowerUp (barsRun 120)).1.pipeline.pixel.hdmiD =
        0x0000FF := by
  have hinit : init (fun _ => 0) VideoPipeline.rampCsr0 blankBoard = atPowerUp := rfl
  have hshown : ∀ x ∈ columns,
      (run (console bench flatTables) atPowerUp (barsRun x)).1.pipeline.pixel.hdmiDe = true ∧
      ∃ lut : BitVec 8 → BitVec 8, lut 0xFF = 0x00 ∧ lut 0x00 = 0xFF ∧
        (run (console bench flatTables) atPowerUp (barsRun x)).1.pipeline.pixel.hdmiD =
          lut ((barColor x).extractLsb' 16 8) ++ lut ((barColor x).extractLsb' 8 8) ++
            lut ((barColor x).extractLsb' 0 8) := by
    intro x hx
    obtain ⟨hat, hpos, c, hc, hgamma, hwhite, hblack⟩ := run_barsRun hx
    obtain ⟨hde, hd⟩ := bars_on_display bench flatTables (fun _ => 0) VideoPipeline.rampCsr0
      blankBoard (barsRun x) (watching_barsRun hx) (smooth_barsRun hx)
    rw [hinit] at hde hd
    refine ⟨hde.2 ⟨x, 0, hat⟩, ?_⟩
    obtain ⟨c', hc', hd⟩ := hd hpos x 0 hat
    obtain rfl : c = c' := Option.some.inj (hc.symm.trans hc')
    rw [if_pos hgamma] at hd
    exact ⟨c.lutMem, hwhite, hblack, hd⟩
  have hfirst : barColor 0 = 0xFFFFFF := by decide
  have hsecond : barColor 120 = 0xFFFF00 := by decide
  obtain ⟨hde0, lut, hwhite, -, hd0⟩ := hshown 0 (by decide)
  obtain ⟨hde120, lut', hwhite', hblack', hd120⟩ := hshown 120 (by decide)
  refine ⟨hde0, hd0.trans ?_, hde120, hd120.trans ?_⟩
  · rw [hfirst]
    change lut 0xFF ++ lut 0xFF ++ lut 0xFF = 0x000000#24
    rw [hwhite]
    rfl
  · rw [hsecond]
    change lut' 0xFF ++ lut' 0xFF ++ lut' 0x00 = 0x0000FF#24
    rw [hwhite', hblack']
    rfl

end FirstLine

end Soc
end VideoProcessing
