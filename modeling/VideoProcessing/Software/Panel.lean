import VideoProcessing.Software.ColorBars

/-!
# The control panel behind the console

`Panel` is what the user of the console works with: the screen and the settings of the
video output, with `press` for a typed character.  It knows no registers, no static
variables and no time.

`Shows` says that the menu, the registers and the frame buffer are those of a panel, and
`Between` what is seen of them while a character is worked on: every field is as the
panel before the character or the panel after it has it.
-/

namespace VideoProcessing

open Lib Console

/-- The screen and the settings of the video output. -/
structure Panel where
  screen : Screen
  mode : BitVec 32
  gamma : Bool
  cont : Bool
  lut : BitVec 8 → BitVec 8
  bitmap : BitVec 4 → BitVec 16
  /-- The start pulses so far. -/
  starts : Nat
  /-- How often Cont was switched off. -/
  stops : Nat
  /-- The frame buffer holds the colour bars. -/
  bars : Bool

namespace Panel

/-- The character of `load_char_bitmap`. -/
def glyph (row : BitVec 4) : BitVec 16 := Console.bitmap.getD row.toNat 0

/-- A gamma table as the LUT shows it. -/
def curve (table : Nat → BitVec 8) (a : BitVec 8) : BitVec 8 := table a.toNat

/-- A character is typed.  The self-tests write to DDR, over the bars. -/
def press (t : GammaTables) (p : Panel) (c : BitVec 8) : Panel :=
  match p.screen with
  | .main =>
      if c = key '1' ∨ c = key '2' then { p with bars := false }
      else if c = key '4' then { p with bars := true }
      else if c = key '5' then { p with screen := .pattern }
      else if c = key '6' then { p with screen := .gamma }
      else if c = key '8' then { p with screen := .dma }
      else if c = key 'C' ∨ c = key 'c' then { p with bitmap := glyph }
      else if c = key 'r' then { p with mode := 0 }
      else if c = key 'q' then { p with screen := .quit }
      else p
  | .gamma =>
      if c = key 'b' then { p with screen := .main }
      else if c = key '1' then { p with gamma := !p.gamma }
      else if c = key '2' then { p with lut := curve t.gamma22 }
      else if c = key '3' then { p with lut := curve t.srgb }
      else if c = key '4' then { p with lut := curve t.inverse }
      else p
  | .pattern =>
      if c = key 'b' then { p with screen := .main }
      else if key '0' ≤ c ∧ c ≤ key '7' then { p with mode := (c - key '0').setWidth 32 }
      else p
  | .dma =>
      if c = key 'b' then { p with screen := .main }
      else if c = key '1' then { p with mode := if p.mode = 8 then 0 else 8 }
      else if c = key '2' then { p with cont := !p.cont, stops := p.stops + p.cont.toNat }
      else if c = key '3' then { p with starts := p.starts + 1 }
      else p
  | .quit => p

/-- The panel after power-up; the LUT is not reset. -/
def init (lut : BitVec 8 → BitVec 8) : Panel where
  screen := .main
  mode := 0
  gamma := false
  cont := false
  lut := lut
  bitmap := fun _ => 0
  starts := 0
  stops := 0
  bars := false

/-- The panels before and after the last character. -/
def turn (t : GammaTables) (q : Panel × Panel) (c : BitVec 8) : Panel × Panel :=
  (q.2, q.2.press t c)

theorem run_turn (t : GammaTables) (p : Panel) (cs : List (BitVec 8)) :
    run (turn t) (p, p) cs = (run (press t) p cs.dropLast, run (press t) p cs) := by
  induction cs using List.reverseRecOn with
  | nil => rfl
  | append_singleton cs c ih => rw [run_snoc, run_snoc, ih, List.dropLast_concat, turn]

section Press

variable {t : GammaTables} {p : Panel} {c : BitVec 8}

theorem press_main (hp : p.screen = .main) :
    p.press t c =
      if c = key '1' ∨ c = key '2' then { p with bars := false }
      else if c = key '4' then { p with bars := true }
      else if c = key '5' then { p with screen := .pattern }
      else if c = key '6' then { p with screen := .gamma }
      else if c = key '8' then { p with screen := .dma }
      else if c = key 'C' ∨ c = key 'c' then { p with bitmap := glyph }
      else if c = key 'r' then { p with mode := 0 }
      else if c = key 'q' then { p with screen := .quit }
      else p := by
  rw [press, hp]

/-- The other characters of the main menu. -/
theorem press_main_other (hp : p.screen = .main)
    (h : ∀ k ∈ ['1', '2', '4', '5', '6', '8', 'C', 'c', 'r', 'q'], c ≠ key k) :
    p.press t c = p := by
  rw [press_main hp]
  simp only [List.mem_cons, List.not_mem_nil, or_false, forall_eq_or_imp, forall_eq] at h
  simp only [h, or_self, if_false]

theorem press_gamma (hp : p.screen = .gamma) :
    p.press t c =
      if c = key 'b' then { p with screen := .main }
      else if c = key '1' then { p with gamma := !p.gamma }
      else if c = key '2' then { p with lut := curve t.gamma22 }
      else if c = key '3' then { p with lut := curve t.srgb }
      else if c = key '4' then { p with lut := curve t.inverse }
      else p := by
  rw [press, hp]

theorem press_pattern (hp : p.screen = .pattern) :
    p.press t c =
      if c = key 'b' then { p with screen := .main }
      else if key '0' ≤ c ∧ c ≤ key '7' then { p with mode := (c - key '0').setWidth 32 }
      else p := by
  rw [press, hp]

theorem press_dma (hp : p.screen = .dma) :
    p.press t c =
      if c = key 'b' then { p with screen := .main }
      else if c = key '1' then { p with mode := if p.mode = 8 then 0 else 8 }
      else if c = key '2' then { p with cont := !p.cont, stops := p.stops + p.cont.toNat }
      else if c = key '3' then { p with starts := p.starts + 1 }
      else p := by
  rw [press, hp]

theorem press_quit (hp : p.screen = .quit) : p.press t c = p := by
  rw [press, hp]

end Press

end Panel

namespace Soc

variable {τ : Type} {m : Menu} {p p' : Panel} {w : View τ} {b b' : Board τ}

/-- The frame buffer holds the colour bars. -/
def Painted (b : Board τ) : Prop :=
  ∀ k, k < frameWords → b.windowWord k = barColor (k % width)

/-- Drawing the bars again leaves them. -/
theorem Bars.painted {n : Nat} (h : Bars b b' n) (hb : Painted b) : Painted b' := by
  intro k hk
  by_cases hkn : k < n
  · exact h.drawn k hkn
  · have hplace : (wordOf b.window + BitVec.ofNat 30 k - wordOf b.window).toNat = k := by
      rw [BitVec.add_comm, BitVec.add_sub_cancel, BitVec.toNat_ofNat]
      have hframe : frameWords = 518400 := rfl
      omega
    rw [← hb k hk, Board.windowWord, Board.windowWord, h.window]
    exact h.rest _ (by omega)

/-- The menu, the registers and the frame buffer are those of the panel; the address and
data registers through which the two tables are loaded are not part of it. -/
structure Shows (m : Menu) (p : Panel) (w : View τ) : Prop where
  screen : m.screen = p.screen
  mode : w.mode = p.mode
  gamma : w.gamma = p.gamma
  cont : w.cont = p.cont
  lut : w.lut = p.lut
  bitmap : w.bitmap = p.bitmap
  starts : w.starts = p.starts
  stops : w.stops = p.stops
  framePtr : w.framePtr = 0x30000000
  window : w.board.window = 0x30000000
  painted : p.bars = true → Painted w.board
  gammaEn : m.gammaEn = p.gamma
  dmaModeActive : p.screen = .dma → m.dmaModeActive = (p.mode == 8)
  contActive : p.screen = .dma → m.contActive = p.cont

/-- The registers and the frame buffer are those of one panel or the other, field by
field. -/
structure Between (p p' : Panel) (w : View τ) : Prop where
  mode : w.mode = p.mode ∨ w.mode = p'.mode
  gamma : w.gamma = p.gamma ∨ w.gamma = p'.gamma
  cont : w.cont = p.cont ∨ w.cont = p'.cont
  lut : ∀ a, w.lut a = p.lut a ∨ w.lut a = p'.lut a
  bitmap : ∀ a, w.bitmap a = p.bitmap a ∨ w.bitmap a = p'.bitmap a
  starts : w.starts = p.starts ∨ w.starts = p'.starts
  stops : w.stops = p.stops ∨ w.stops = p'.stops
  framePtr : w.framePtr = 0x30000000
  frame : p.bars = true → p'.bars = true →
    w.board.window = 0x30000000 ∧ Painted w.board

/-- Before the character has changed anything. -/
theorem Shows.before (h : Shows m p w) (p' : Panel) : Between p p' w where
  mode := Or.inl h.mode
  gamma := Or.inl h.gamma
  cont := Or.inl h.cont
  lut a := Or.inl (congrFun h.lut a)
  bitmap a := Or.inl (congrFun h.bitmap a)
  starts := Or.inl h.starts
  stops := Or.inl h.stops
  framePtr := h.framePtr
  frame hbars _ := ⟨h.window, h.painted hbars⟩

/-- When the character has been worked on. -/
theorem Shows.after (h : Shows m p' w) (p : Panel) : Between p p' w where
  mode := Or.inr h.mode
  gamma := Or.inr h.gamma
  cont := Or.inr h.cont
  lut a := Or.inr (congrFun h.lut a)
  bitmap a := Or.inr (congrFun h.bitmap a)
  starts := Or.inr h.starts
  stops := Or.inr h.stops
  framePtr := h.framePtr
  frame _ hbars := ⟨h.window, h.painted hbars⟩

end Soc
end VideoProcessing
