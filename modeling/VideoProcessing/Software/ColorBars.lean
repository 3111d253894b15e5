import VideoProcessing.Software.Registers

/-!
# The colour bars in DDR

`generate_color_bar_pattern` stores 960 words for each of 540 lines through the window.
`Bars` is what the first `n` stores leave: the bar colours in the first `n` words of the
window, and the rest of memory as it was.

* `does_generateColorBarPattern`: the program ends there with `n = 518400`, whatever the
  video DMA reads in the meantime;
* `executes_generateColorBarPattern`: it takes 518400 edges of `clk_50` when each of them
  serves a store.
-/

namespace VideoProcessing

open Lib Console

namespace Soc

variable {τ : Type} {P : Platform τ} {b b' : Board τ} {n : Nat}

/-- The words of a frame. -/
def frameWords : Nat := height * width

/-- The first `n` words of the window hold the colours of their columns; nothing else in
`b'` differs from `b`. -/
structure Bars (b b' : Board τ) (n : Nat) : Prop where
  window : b'.window = b.window
  dma : b'.dma = b.dma
  ocm : b'.mem.ocm = b.mem.ocm
  drawn : ∀ k, k < n → b'.windowWord k = barColor (k % width)
  rest : ∀ a, n ≤ (a - wordOf b.window).toNat → b'.mem.ddr a = b.mem.ddr a

theorem bars_zero (b : Board τ) : Bars b b 0 :=
  ⟨rfl, rfl, rfl, fun k hk => absurd hk (Nat.not_lt_zero k), fun _ _ => rfl⟩

/-- The next store. -/
theorem Bars.store (h : Bars b b' n) (hn : n < 2 ^ 25) :
    Bars b (b'.store (index ddr3WindowBase n) (barColor (n % width))) (n + 1) where
  window := by rw [Board.window_store, h.window]
  dma := by
    rw [b'.store_window hn]
    exact h.dma
  ocm := by rw [b'.ocm_store_window hn, h.ocm]
  drawn k hk := by
    rw [b'.windowWord_store_window (by omega) hn]
    split
    · next heq => rw [heq]
    · next hne => exact h.drawn k (by omega)
  rest a ha := by
    rw [b'.ddr_store_window hn, h.window, if_neg (by omega)]
    exact h.rest a (by omega)

/-- Column `x` of line `y` is word `960 * y + x`. -/
theorem column_eq {x : Nat} (y : Nat) (hx : x < width) : (y * width + x) % width = x := by
  rw [Nat.mul_comm, Nat.mul_add_mod, Nat.mod_eq_of_lt hx]

variable {I : View τ → Prop} {w : View τ}

/-- Option 4 of the main menu draws the bars. -/
theorem does_generateColorBarPattern
    (hI : ∀ b n, Bars w.board b n → I { w with board := b }) :
    Does P I generateColorBarPattern w fun _ w' =>
      ∃ b, w' = { w with board := b } ∧ Bars w.board b frameWords := by
  have hwidth : width = 960 := rfl
  have hheight : height = 540 := rfl
  have hline : ∀ y w', y < height →
      (∃ b, w' = { w with board := b } ∧ Bars w.board b (y * width)) →
      Does P I (Prog.upTo width fun x =>
        Nios.store (index ddr3WindowBase (y * width + x)) (barColor x)) w' fun _ w' =>
          ∃ b, w' = { w with board := b } ∧ Bars w.board b ((y + 1) * width) := by
    intro y w' hy hw'
    rw [Nat.succ_mul]
    refine does_upTo (fun x w' =>
      ∃ b, w' = { w with board := b } ∧ Bars w.board b (y * width + x)) ?_ ?_ ?_
    · rintro _ ⟨b, rfl, hbars⟩
      exact hI b _ hbars
    · rintro x _ hx ⟨b, rfl, hbars⟩
      have hlt : y * width + x < 2 ^ 25 := by
        rw [hwidth] at hx ⊢
        omega
      have hstore := hbars.store hlt
      rw [column_eq y hx, Nat.add_assoc] at hstore
      exact does_store (k := .ret) (hI b _ hbars) (does_ret (hI _ _ hstore) ⟨_, rfl, hstore⟩)
    · rw [Nat.add_zero]
      exact hw'
  rw [generateColorBarPattern, frameWords]
  refine does_upTo (fun y w' =>
    ∃ b, w' = { w with board := b } ∧ Bars w.board b (y * width)) ?_ ?_ ?_
  · rintro _ ⟨b, rfl, hbars⟩
    exact hI b _ hbars
  · exact hline
  · rw [Nat.zero_mul]
    exact ⟨w.board, rfl, bars_zero _⟩

section Execution

/-- What `n` stores leave. -/
def paint (b : Board τ) : Nat → Board τ
  | 0 => b
  | n + 1 => (paint b n).store (index ddr3WindowBase n) (barColor (n % width))

theorem bars_paint (b : Board τ) {n : Nat} (hn : n ≤ 2 ^ 25) : Bars b (paint b n) n := by
  induction n with
  | zero => exact bars_zero b
  | succ n ih => exact (ih (Nat.le_of_succ_le hn)).store (Nat.lt_of_succ_le hn)

/-- The window holds the bars. -/
def painted (b : Board τ) : Board τ :=
  { b with
    mem := { b.mem with
      ddr := fun a =>
        if (a - wordOf b.window).toNat < frameWords then
          barColor ((a - wordOf b.window).toNat % width)
        else b.mem.ddr a } }

theorem paint_eq (b : Board τ) : paint b frameWords = painted b := by
  have hbars := bars_paint b (n := frameWords) (by decide)
  have hddr : (paint b frameWords).mem.ddr = (painted b).mem.ddr := by
    funext a
    change _ = if (a - wordOf b.window).toNat < frameWords then _ else _
    split
    · next hlt =>
        have hword := hbars.drawn _ hlt
        rw [Board.windowWord, hbars.window, BitVec.ofNat_toNat, BitVec.setWidth_eq,
          BitVec.add_comm, BitVec.sub_add_cancel] at hword
        exact hword
    · next hge => exact hbars.rest a (Nat.le_of_not_lt hge)
  have hmem : (paint b frameWords).mem = (painted b).mem := by
    have hocm := hbars.ocm
    generalize paint b frameWords = b' at hddr hocm ⊢
    obtain ⟨w, ⟨ocm, ddr⟩, d⟩ := b'
    exact congrArg₂ SharedMemory.mk hocm hddr
  have hwindow := hbars.window
  have hdma := hbars.dma
  generalize paint b frameWords = b' at hmem hwindow hdma ⊢
  obtain ⟨w, m, d⟩ := b'
  obtain rfl : w = b.window := hwindow
  obtain rfl : d = b.dma := hdma
  exact congrArg (fun m => Board.mk b.window m b.dma) hmem

/-- An access that leaves the control registers alone. -/
def Apart : Access → Prop
  | .iordHdmi _ => False
  | .iowrHdmi _ _ => False
  | _ => True

/-- The processor, at each edge of `clk_50`, makes the next store of the bars; nothing else
happens on the board. -/
theorem executes_generateColorBarPattern {t : GammaTables} (s : Soc τ)
    (hidle : s.idle (goEvent none) = s) :
    Executes (device P) (onKey t) Apart generateColorBarPattern s
      (List.replicate frameWords (goEvent none)) () { s with board := painted s.board } := by
  let S (n : Nat) : Soc τ := { s with board := paint s.board n }
  have hstay : ∀ n, (S n).idle (goEvent none) = S n := fun n =>
    congrArg (fun s' : Soc τ => { s' with board := paint s.board n }) hidle
  have hstore : ∀ n, Executes (device P) (onKey t) Apart
      (Nios.store (index ddr3WindowBase n) (barColor (n % width))) (S n) [goEvent none] ()
        (S (n + 1)) := by
    intro n
    have hact : (device P).act (S n) (goEvent none)
        (.store (index ddr3WindowBase n) (barColor (n % width))) =
        some (0, { (S n).idle (goEvent none) with
          board := (S n).board.store (index ddr3WindowBase n) (barColor (n % width)) }) := rfl
    rw [hstay] at hact
    exact executes_act hact trivial (executes_ret () _)
  have hall := executes_upTo_upTo S (n := height) (m := width) fun y x _ hx => by
    have hone := hstore (y * width + x)
    rw [column_eq y hx] at hone
    exact hone
  have hlast : S (height * width) = { s with board := painted s.board } := by
    change { s with board := paint s.board frameWords } = _
    rw [paint_eq]
  rw [hlast, List.flatten_replicate_singleton] at hall
  exact hall

end Execution

end Soc
end VideoProcessing
