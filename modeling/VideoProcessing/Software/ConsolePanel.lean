import VideoProcessing.Software.Panel

/-!
# The console is a control panel

* `does_update`, `does_loadLut`, `does_loadCharBitmap`: what the functions of
  `hdmi_control.c` do;
* `presses_onMain` to `presses_onDma`: the program that runs after a character does what
  `press` says, and on the way shows nothing but the panels before and after it;
* `console_follows_panel`: whenever the console waits for a character, the menu, the
  registers and the frame buffer are those of the panel after the characters typed so
  far; in every other cycle the registers are, one by one, those of the panel before or
  after the last character.
-/

namespace VideoProcessing
namespace Soc

open Lib Console

variable {τ : Type} {P : Platform τ} {I : View τ → Prop} {w : View τ} {t : GammaTables}
  {m : Menu} {p : Panel} {c : BitVec 8}

section Functions

/-- What a read-modify-write function changes. -/
def updated (op : HdmiControl.Op) (w : View τ) : View τ :=
  { w with
    gamma := op.gamma.getD w.gamma
    cont := op.cont.getD w.cont
    starts := w.starts + op.starts.toNat
    stops := w.stops + (w.cont && !op.cont.getD w.cont).toNat }

/-- A read-modify-write function of `hdmi_control.c`. -/
theorem does_update (op : HdmiControl.Op) (hI : I w) (hI' : I (updated op w)) :
    Does P I ((Nios.iordHdmi regDmaCtrl).bind fun ctrl => Nios.iowrHdmi regDmaCtrl (op.value ctrl))
      w fun _ w' => w' = updated op w := by
  refine does_iordCtrl hI fun ctrl hctrl => ?_
  obtain ⟨h0, h1, h2, -⟩ := op.value_bits ctrl
  rw [hctrl.gamma] at h0
  rw [hctrl.cont] at h1
  rw [hctrl.start, Bool.or_false] at h2
  have hview : w.iowr regDmaCtrl (op.value ctrl) = updated op w := by
    change ({ w with
      gamma := (op.value ctrl).getLsbD 0
      cont := (op.value ctrl).getLsbD 1
      starts := w.starts + ((op.value ctrl).getLsbD 2).toNat
      stops := w.stops + (w.cont && !(op.value ctrl).getLsbD 1).toNat } : View τ) = _
    rw [h0, h1, h2, updated]
  refine does_iowr (k := .ret) hI ?_
  rw [hview]
  exact does_ret hI' rfl

/-- A memory whose first `n` entries come from `f`, the others from `g`. -/
def loaded {aw dw : Nat} (f : Nat → BitVec dw) (g : BitVec aw → BitVec dw) (n : Nat)
    (x : BitVec aw) : BitVec dw :=
  if x.toNat < n then f x.toNat else g x

/-- The next entry. -/
theorem update_loaded {aw dw : Nat} (f : Nat → BitVec dw) (g : BitVec aw → BitVec dw)
    {a : BitVec aw} {i : Nat} (ha : a.toNat = i) :
    Function.update (loaded f g i) a (f i) = loaded f g (i + 1) := by
  funext x
  have hiff : x = a ↔ x.toNat = i := by rw [← BitVec.toNat_inj, ha]
  rw [Function.update_apply, loaded, loaded]
  by_cases hx : x.toNat = i
  · rw [if_pos (hiff.2 hx), if_pos (by omega), hx]
  · rw [if_neg (mt hiff.1 hx)]
    by_cases hlt : x.toNat < i
    · rw [if_pos hlt, if_pos (by omega)]
    · rw [if_neg hlt, if_neg (by omega)]

theorem loaded_or {aw dw : Nat} (f : Nat → BitVec dw) (g : BitVec aw → BitVec dw) (n : Nat)
    (x : BitVec aw) : loaded f g n x = g x ∨ loaded f g n x = f x.toNat := by
  rw [loaded]
  split
  · exact Or.inr rfl
  · exact Or.inl rfl

/-- An index fits the address registers. -/
theorem toNat_index (aw : Nat) {i : Nat} (haw : aw ≤ 32) (hi : i < 2 ^ aw) :
    ((BitVec.ofNat 32 i).setWidth aw).toNat = i := by
  have hle : 2 ^ aw ≤ 2 ^ 32 := Nat.pow_le_pow_right (by decide) haw
  rw [BitVec.toNat_setWidth, BitVec.toNat_ofNat, Nat.mod_eq_of_lt (by omega : i < 2 ^ 32),
    Nat.mod_eq_of_lt hi]

/-- Loading a table through an address and a data register: whatever the memory held, it
holds the table. -/
theorem does_loadTable {aw dw : Nat} {addr data : BitVec 3} (haw : aw ≤ 32) (hdw : dw ≤ 32)
    (put : BitVec aw → (BitVec aw → BitVec dw) → View τ)
    (haddr : ∀ a g v, (put a g).iowr addr v = put (v.setWidth aw) g)
    (hdata : ∀ a g v, (put a g).iowr data v = put a (Function.update g a (v.setWidth dw)))
    (val : Nat → BitVec dw) {a₀ : BitVec aw} {g₀ : BitVec aw → BitVec dw}
    (hI : ∀ a i, I (put a (loaded val g₀ i))) :
    Does P I (loadTable addr data (2 ^ aw) fun i => (val i).setWidth 32) (put a₀ g₀)
      fun _ w' => ∃ a, w' = put a fun x => val x.toNat := by
  have hzero : loaded val g₀ 0 = g₀ := funext fun x => if_neg (Nat.not_lt_zero _)
  have hall : loaded val g₀ (2 ^ aw) = fun x => val x.toNat :=
    funext fun x => if_pos x.isLt
  rw [← hall]
  refine does_upTo (fun i w' => ∃ a, w' = put a (loaded val g₀ i)) ?_ ?_ ⟨a₀, by rw [hzero]⟩
  · rintro _ ⟨a, rfl⟩
    exact hI a 0
  · rintro i _ hi ⟨a, rfl⟩
    have hval : ((val i).setWidth 32).setWidth dw = val i := by
      rw [BitVec.setWidth_setWidth_of_le _ hdw, BitVec.setWidth_eq]
    have hnext := update_loaded val g₀ (toNat_index aw haw hi)
    refine does_iowr (hI a i) ?_
    rw [haddr]
    refine does_iowr (k := .ret) (hI _ i) ?_
    rw [hdata, hval, hnext]
    exact does_ret (hI _ _) ⟨_, rfl⟩

/-- Loading the LUT. -/
theorem does_loadLut (val : Nat → BitVec 8)
    (hI : ∀ a i, I { w with lutAddr := a, lut := loaded val w.lut i }) :
    Does P I (loadTable regLutAddr regLutData 256 fun i => (val i).setWidth 32) w fun _ w' =>
      ∃ a, w' = { w with lutAddr := a, lut := Panel.curve val } :=
  does_loadTable (by decide : 8 ≤ 32) (by decide)
    (fun a g => { w with lutAddr := a, lut := g }) (fun _ _ _ => rfl) (fun _ _ _ => rfl) val hI

/-- Loading the character. -/
theorem does_loadCharBitmap
    (hI : ∀ a i, I { w with
      bitmapAddr := a
      bitmap := loaded (fun i => Console.bitmap.getD i 0) w.bitmap i }) :
    Does P I loadCharBitmap w fun _ w' =>
      ∃ a, w' = { w with bitmapAddr := a, bitmap := Panel.glyph } :=
  does_loadTable (by decide : 4 ≤ 32) (by decide)
    (fun a g => { w with bitmapAddr := a, bitmap := g }) (fun _ _ _ => rfl) (fun _ _ _ => rfl)
    (fun i => Console.bitmap.getD i 0) hI

end Functions

section Handlers

/-- The test of the Cont bit in the word read. -/
theorem and_asDmaContMsk (ctrl : BitVec 32) :
    decide (ctrl &&& asDmaContMsk ≠ 0) = ctrl.getLsbD 1 := by
  have hmsk : asDmaContMsk = BitVec.twoPow 32 1 := by decide
  rw [hmsk, BitVec.and_twoPow]
  cases ctrl.getLsbD 1 <;> decide

/-- The head of the loop of the DMA submenu reads the two variables. -/
theorem does_dmaPrompt (hI : I w) :
    Does P I (dmaPrompt m) w fun m' w' => w' = w ∧ m' = { m with
      screen := .dma
      dmaModeActive := w.mode == 8
      contActive := w.cont } := by
  refine does_iordCtrl hI fun ctrl hctrl => ?_
  refine does_iordMode hI (does_ret hI ⟨rfl, ?_⟩)
  have hcont : decide (ctrl &&& asDmaContMsk ≠ 0) = w.cont := by
    rw [and_asDmaContMsk, hctrl.cont]
  rw [← hcont]

/-- A handler does what `press` says, and shows nothing but the panels before and after. -/
def Presses (P : Platform τ) (t : GammaTables) (body : Menu → BitVec 8 → Nios Menu)
    (s : Screen) :
    Prop :=
  ∀ m p w c, Shows m p w → p.screen = s →
    Does P (Between p (p.press t c)) (body m c) w fun m' w' => Shows m' (p.press t c) w'

/-- A program that has come to its end. -/
theorem Shows.ret {p' : Panel} (h : Shows m p' w) : Does P (Between p p') (.ret m) w
    fun m' w' => Shows m' p' w' :=
  does_ret (h.after p) h

theorem does_ite {R : Type} {b : Prop} [Decidable b] {q q' : Nios R}
    {Q : R → View τ → Prop} (h : b → Does P I q w Q) (h' : ¬ b → Does P I q' w Q) :
    Does P I (if b then q else q') w Q := by
  split
  · next hb => exact h hb
  · next hb => exact h' hb

/-- A self-test between two settings of the window. -/
theorem does_selfTest {a : Access} (ha : a = .ocmToDdrTest ∨ a = .ddrToDdrTest)
    (h : Shows m p w) :
    Does P (Between p { p with bars := false })
      ((Nios.iowrSpanExtender 0 0x20000000).bind fun _ => (Prog.access a).bind fun _ =>
        (Nios.iowrSpanExtender 0 0x30000000).bind fun _ => .ret m) w
      fun m' w' => Shows m' { p with bars := false } w' := by
  have hboard : ∀ b : Board τ, Between p { p with bars := false } { w with board := b } :=
    fun b => { h.before { p with bars := false } with frame := fun _ h => nomatch h }
  refine does_window (hboard _) (does_test ha (hboard _) fun _ b => ?_)
  refine does_window (hboard b) (Shows.ret ?_)
  exact { h with window := rfl, painted := fun h => nomatch h }

/-- `run_interactive_menu`. -/
theorem presses_onMain (P : Platform τ) (t : GammaTables) : Presses P t onMain .main := by
  intro m p w c h hp
  rw [onMain]
  refine does_ite (fun hlow => ?_) fun _ => ?_
  · have hpress : p.press t c = p := by
      refine Panel.press_main_other hp ?_
      simp only [List.mem_cons, List.not_mem_nil, or_false, forall_eq_or_imp, forall_eq]
      refine ⟨?_, ?_, ?_, ?_, ?_, ?_, ?_, ?_, ?_, ?_⟩ <;>
        · rintro rfl
          exact absurd hlow (by decide)
    rw [hpress]
    exact h.ret
  refine does_ite (fun hc => ?_) fun h2 => ?_
  · have hpress : p.press t c = { p with bars := false } := by
      rw [Panel.press_main hp, hc]; rfl
    rw [hpress]
    exact does_selfTest (Or.inl rfl) h
  refine does_ite (fun hc => ?_) fun h3 => ?_
  · have hpress : p.press t c = { p with bars := false } := by
      rw [Panel.press_main hp, hc]; rfl
    rw [hpress]
    exact does_selfTest (Or.inr rfl) h
  refine does_ite (fun hc => ?_) fun _ => ?_
  · have hpress : p.press t c = p := by rw [Panel.press_main hp, hc]; rfl
    rw [hpress]
    refine does_bind ((does_asks hdmiInit_only (h.before p)).mono (fun _ h => h) ?_)
    rintro _ _ rfl
    exact h.ret
  refine does_ite (fun hc => ?_) fun h5 => ?_
  · have hpress : p.press t c = { p with bars := true } := by
      rw [Panel.press_main hp, hc]; rfl
    have hdraw : ∀ b n, Bars w.board b n →
        Between p { p with bars := true } { w with board := b } := by
      intro b n hbars
      exact { h.before { p with bars := true } with
        frame := fun hp _ => ⟨hbars.window.trans h.window, hbars.painted (h.painted hp)⟩ }
    rw [hpress]
    refine does_bind ((does_generateColorBarPattern hdraw).mono (fun _ h => h) ?_)
    rintro _ _ ⟨b, rfl, hbars⟩
    refine Shows.ret ?_
    exact { h with window := hbars.window.trans h.window, painted := fun _ => hbars.drawn }
  refine does_ite (fun hc => ?_) fun h6 => ?_
  · have hpress : p.press t c = { p with screen := .pattern } := by
      rw [Panel.press_main hp, hc]; rfl
    rw [hpress]
    exact Shows.ret { h with screen := rfl, dmaModeActive := nofun, contActive := nofun }
  refine does_ite (fun hc => ?_) fun h7 => ?_
  · have hpress : p.press t c = { p with screen := .dma } := by
      rw [Panel.press_main hp, hc]; rfl
    rw [hpress]
    refine (does_dmaPrompt (h.before _)).mono (fun _ h => h) ?_
    rintro _ _ ⟨rfl, rfl⟩
    exact { h with
      screen := rfl
      dmaModeActive := fun _ => by rw [h.mode]
      contActive := fun _ => h.cont }
  refine does_ite (fun hc => ?_) fun h8 => ?_
  · have hpress : p.press t c = { p with screen := .gamma } := by
      rw [Panel.press_main hp, hc]; rfl
    rw [hpress]
    exact Shows.ret { h with screen := rfl, dmaModeActive := nofun, contActive := nofun }
  refine does_ite (fun hc => ?_) fun h9 => ?_
  · have hpress : p.press t c = { p with bitmap := Panel.glyph } := by
      rw [Panel.press_main hp]
      rcases hc with hc | hc <;>
      · rw [hc]
        rfl
    have hload : ∀ a i, Between p { p with bitmap := Panel.glyph } { w with
        bitmapAddr := a
        bitmap := loaded (fun i => Console.bitmap.getD i 0) w.bitmap i } := by
      intro a i
      exact { h.before { p with bitmap := Panel.glyph } with
        bitmap := fun x => by
          rw [← h.bitmap]
          exact loaded_or (fun i => Console.bitmap.getD i 0) w.bitmap i x }
    rw [hpress]
    refine does_bind ((does_loadCharBitmap hload).mono (fun _ h => h) ?_)
    rintro _ _ ⟨a, rfl⟩
    exact Shows.ret { h with bitmap := rfl }
  refine does_ite (fun hc => ?_) fun h10 => ?_
  · have hpress : p.press t c = { p with mode := 0 } := by
      rw [Panel.press_main hp, hc]; rfl
    have hmain : p.screen ≠ .dma := by rw [hp]; decide
    rw [hpress]
    refine does_iowr (h.before _) (Shows.ret ?_)
    exact { h with mode := rfl, dmaModeActive := fun h => absurd h hmain }
  refine does_ite (fun hc => ?_) fun h11 => ?_
  · have hpress : p.press t c = { p with screen := .quit } := by
      rw [Panel.press_main hp, hc]; rfl
    rw [hpress]
    exact Shows.ret { h with screen := rfl, dmaModeActive := nofun, contActive := nofun }
  · have hpress : p.press t c = p := by
      refine Panel.press_main_other hp ?_
      simp only [List.mem_cons, List.not_mem_nil, or_false, forall_eq_or_imp, forall_eq]
      exact ⟨h2, h3, h5, h6, h8, h7, fun h => h9 (Or.inl h), fun h => h9 (Or.inr h), h10,
        h11⟩
    rw [hpress]
    exact h.ret

/-- Loading one of the tables. -/
theorem does_table (val : Nat → BitVec 8) (h : Shows m p w) :
    Does P (Between p { p with lut := Panel.curve val })
      ((loadTable regLutAddr regLutData 256 fun i => (val i).setWidth 32).bind fun _ => .ret m) w
      fun m' w' => Shows m' { p with lut := Panel.curve val } w' := by
  have hload : ∀ a i, Between p { p with lut := Panel.curve val } { w with
      lutAddr := a
      lut := loaded val w.lut i } := by
    intro a i
    exact { h.before { p with lut := Panel.curve val } with
      lut := fun x => by
        rw [← h.lut]
        exact loaded_or val w.lut i x }
  refine does_bind ((does_loadLut val hload).mono (fun _ h => h) ?_)
  rintro _ _ ⟨a, rfl⟩
  exact Shows.ret { h with lut := rfl }

/-- `run_gamma_submenu`. -/
theorem presses_onGamma (P : Platform τ) (t : GammaTables) :
    Presses P t (onGamma t) .gamma := by
  intro m p w c h hp
  rw [Panel.press_gamma hp, onGamma]
  split
  · exact Shows.ret { h with screen := rfl, dmaModeActive := nofun, contActive := nofun }
  split
  · have hgamma : decide ((!m.gammaEn).toInt ≠ 0) = !p.gamma := by
      rw [h.gammaEn]
      cases p.gamma <;> rfl
    have hdma : p.screen ≠ .dma := by rw [hp]; decide
    have hafter : Shows { m with gammaEn := !m.gammaEn } { p with gamma := !p.gamma }
        (updated (.setGammaEnable (!m.gammaEn).toInt) w) :=
      { h with
        gamma := hgamma
        stops := by
          change w.stops + (w.cont && !w.cont).toNat = p.stops
          rw [Bool.and_not_self]
          exact h.stops
        gammaEn := by rw [h.gammaEn]
        dmaModeActive := fun h => absurd h hdma
        contActive := fun h => absurd h hdma }
    refine does_bind ((does_update (.setGammaEnable (!m.gammaEn).toInt) (h.before _)
      (hafter.after p)).mono (fun _ h => h) ?_)
    rintro _ _ rfl
    exact hafter.ret
  split
  · exact does_table t.gamma22 h
  split
  · exact does_table t.srgb h
  split
  · exact does_table t.inverse h
  · exact h.ret

/-- The test `mode <= 7` on the unsigned difference accepts the eight digits. -/
theorem digit_iff : ∀ c : BitVec 8,
    c.signExtend 32 - (key '0').signExtend 32 ≤ 7 ↔ key '0' ≤ c ∧ c ≤ key '7' := by
  decide +kernel

theorem digit_eq : ∀ c : BitVec 8, key '0' ≤ c ∧ c ≤ key '7' →
    c.signExtend 32 - (key '0').signExtend 32 = (c - key '0').setWidth 32 := by
  decide +kernel

/-- `change_rtl_pattern`. -/
theorem presses_onPattern (P : Platform τ) (t : GammaTables) :
    Presses P t onPattern .pattern := by
  intro m p w c h hp
  have hdma : p.screen ≠ .dma := by rw [hp]; decide
  rw [Panel.press_pattern hp, onPattern]
  split
  · exact Shows.ret { h with screen := rfl, dmaModeActive := nofun, contActive := nofun }
  by_cases hdigit : key '0' ≤ c ∧ c ≤ key '7'
  · rw [if_pos hdigit, if_pos ((digit_iff c).2 hdigit)]
    refine does_iowr (h.before _) (Shows.ret ?_)
    exact { h with
      mode := digit_eq c hdigit
      dmaModeActive := fun h => absurd h hdma
      contActive := fun h => absurd h hdma }
  · rw [if_neg hdigit, if_neg (mt (digit_iff c).1 hdigit)]
    exact h.ret

/-- The loop of the DMA submenu goes round: the two variables are read again. -/
theorem Shows.again {p' : Panel}
    (h : Shows ⟨.dma, m.gammaEn, p'.mode == 8, p'.cont⟩ p' w) :
    Does P (Between p p') (dmaPrompt m) w fun m' w' => Shows m' p' w' := by
  refine (does_dmaPrompt (h.after p)).mono (fun _ h => h) ?_
  rintro _ _ ⟨rfl, rfl⟩
  rw [h.mode, h.cont]
  exact h

/-- `run_dma_debug_submenu`. -/
theorem presses_onDma (P : Platform τ) (t : GammaTables) : Presses P t onDma .dma := by
  intro m p w c h hp
  have hscreen : Screen.dma = p.screen := hp.symm
  rw [Panel.press_dma hp, onDma]
  split
  · exact Shows.ret { h with screen := rfl, dmaModeActive := nofun, contActive := nofun }
  split
  · have hmode : (if (!m.dmaModeActive) = true then (8 : BitVec 32) else 0) =
        if p.mode = 8 then 0 else 8 := by
      rw [h.dmaModeActive hp]
      by_cases h8 : p.mode = 8
      · rw [if_pos h8, h8]
        rfl
      · rw [if_neg h8, beq_eq_false_iff_ne.2 h8]
        rfl
    refine does_iowr (h.before _) (Shows.again ?_)
    exact { h with
      screen := hscreen
      mode := hmode
      dmaModeActive := fun _ => rfl
      contActive := fun _ => rfl }
  split
  · have hcont : decide ((!m.contActive).toInt ≠ 0) = !p.cont := by
      rw [h.contActive hp]
      cases p.cont <;> rfl
    have hafter : Shows ⟨.dma, m.gammaEn, p.mode == 8, !p.cont⟩
        { p with cont := !p.cont, stops := p.stops + p.cont.toNat }
        (updated (.dmaSetContinuous (!m.contActive).toInt) w) :=
      { h with
        screen := hscreen
        cont := hcont
        stops := by
          change w.stops + (w.cont && !decide ((!m.contActive).toInt ≠ 0)).toNat = _
          rw [hcont, h.stops, h.cont, Bool.not_not, Bool.and_self]
        dmaModeActive := fun _ => rfl
        contActive := fun _ => rfl }
    refine does_bind ((does_update (.dmaSetContinuous (!m.contActive).toInt) (h.before _)
      (hafter.after p)).mono (fun _ h => h) ?_)
    rintro _ _ rfl
    exact hafter.again
  split
  · have hafter : Shows ⟨.dma, m.gammaEn, p.mode == 8, p.cont⟩
        { p with starts := p.starts + 1 } (updated .dmaStartSingle w) :=
      { h with
        screen := hscreen
        starts := congrArg (· + 1) h.starts
        stops := by
          change w.stops + (w.cont && !w.cont).toNat = p.stops
          rw [Bool.and_not_self]
          exact h.stops
        dmaModeActive := fun _ => rfl
        contActive := fun _ => rfl }
    refine does_bind ((does_update .dmaStartSingle (h.before _) (hafter.after p)).mono
      (fun _ h => h) ?_)
    rintro _ _ rfl
    exact hafter.again
  have hsame : Shows ⟨.dma, m.gammaEn, p.mode == 8, p.cont⟩ p w :=
    { h with
      screen := hscreen
      dmaModeActive := fun _ => rfl
      contActive := fun _ => rfl }
  split
  · exact does_iordCtrl (h.before p) fun _ _ => hsame.again
  · exact hsame.again

end Handlers

section Console

/-- The console waits where the panel is. -/
def Waits (m : Menu) (q : Panel × Panel) (s : Soc τ) : Prop := Shows m q.2 s.view

/-- What is seen of the panels before and after the last character. -/
def Seen (q : Panel × Panel) (s : Soc τ) : Prop := Between q.1 q.2 s.view

/-- Every handler does what `press` says. -/
theorem handles (P : Platform τ) (t : GammaTables) :
    Handles (device P) (onKey t) Seen Waits (Panel.turn t) := by
  intro m q f s e c s' hshows _ hbody hpoll
  have hview : s'.view = s.view := by rw [poll_eq_some hpoll, view_idle]
  change Shows m q.2 s.view at hshows
  refine Does.start (I := Between q.2 (q.2.press t c))
    (Q := fun m' w' => Shows m' (q.2.press t c) w') ?_ s' hview
  rw [onKey, hshows.screen] at hbody
  cases hp : q.2.screen with
  | main =>
      rw [hp] at hbody
      rw [← Option.some.inj hbody]
      exact presses_onMain P t m q.2 _ c hshows hp
  | gamma =>
      rw [hp] at hbody
      rw [← Option.some.inj hbody]
      exact presses_onGamma P t m q.2 _ c hshows hp
  | pattern =>
      rw [hp] at hbody
      rw [← Option.some.inj hbody]
      exact presses_onPattern P t m q.2 _ c hshows hp
  | dma =>
      rw [hp] at hbody
      rw [← Option.some.inj hbody]
      exact presses_onDma P t m q.2 _ c hshows hp
  | quit =>
      rw [hp] at hbody
      exact absurd hbody (by simp)

/-- `main` opens the panel. -/
theorem following_init (P : Platform τ) (mem0 : BitVec 9 → BitVec 32) (csr0 : HdmiCsr)
    (board : Board τ) :
    Following (device P) Seen Waits (Panel.init csr0.lutMem, Panel.init csr0.lutMem)
      (init mem0 csr0 board) := by
  have hgamma : csr0.reset.gammaEn = false := by simp [HdmiCsr.gammaEn, HdmiCsr.reset]
  have hcont : csr0.reset.dmaContEn = false := by simp [HdmiCsr.dmaContEn, HdmiCsr.reset]
  have hbars : (Panel.init csr0.lutMem).bars ≠ true := Bool.false_ne_true
  have hscreen : (Panel.init csr0.lutMem).screen ≠ .dma :=
    show Screen.main ≠ .dma by decide
  have hseen : ∀ b : Board τ, Between (Panel.init csr0.lutMem) (Panel.init csr0.lutMem)
      { (init mem0 csr0 board).1.view with board := b } :=
    fun b => ⟨Or.inl rfl, Or.inl hgamma, Or.inl hcont, fun _ => Or.inl rfl, fun _ => Or.inl rfl,
      Or.inl rfl, Or.inl rfl, rfl, fun h => absurd h hbars⟩
  refine Does.start (I := Between (Panel.init csr0.lutMem) (Panel.init csr0.lutMem))
    (Q := fun m w => Shows m (Panel.init csr0.lutMem) w) ?_ _ rfl
  refine does_window (hseen _) (does_windowHigh (hseen _) ?_)
  refine does_ask (fun s e p _ => ⟨_, rfl⟩) (hseen _) fun v => does_ret (hseen _) ?_
  exact ⟨rfl, rfl, hgamma, hcont, rfl, rfl, rfl, rfl, rfl, rfl, fun h => absurd h hbars, rfl,
    fun h => absurd h hscreen, fun h => absurd h hscreen⟩

/-- The panel after the characters. -/
def panel (t : GammaTables) (csr0 : HdmiCsr) (cs : List (BitVec 8)) : Panel :=
  run (Panel.press t) (Panel.init csr0.lutMem) cs

theorem between_run (P : Platform τ) (t : GammaTables) (mem0 : BitVec 9 → BitVec 32)
    (csr0 : HdmiCsr) (board : Board τ) (es : List Event) :
    Between (panel t csr0 (typed P t (init mem0 csr0 board) es).dropLast)
      (panel t csr0 (typed P t (init mem0 csr0 board) es))
      (run (console P t) (init mem0 csr0 board) es).1.view := by
  have h := (handles P t).inv (following_init P mem0 csr0 board) es
  rw [Panel.run_turn] at h
  exact h

/-- In every cycle the mode, the control bits, the entries of both tables, the counts of
start pulses and of stops and the frame pointer are those of the panel before or after
the last character that was read, and so is the frame buffer; whenever the console waits
for a character, they and the menu are those of the panel after all of them.  The
address and data registers of the tables are left out. -/
theorem console_follows_panel (P : Platform τ) (t : GammaTables)
    (mem0 : BitVec 9 → BitVec 32) (csr0 : HdmiCsr) (board : Board τ) (es : List Event) :
    let c := run (console P t) (init mem0 csr0 board) es
    let cs := typed P t (init mem0 csr0 board) es
    Between (panel t csr0 cs.dropLast) (panel t csr0 cs) c.1.view ∧
      ∀ m, c.2 = .ret m → Shows m (panel t csr0 cs) c.1.view := by
  intro c cs
  refine ⟨between_run P t mem0 csr0 board es, fun m hwait => ?_⟩
  have h := (handles P t).follows (following_init P mem0 csr0 board) es hwait
  rw [Panel.run_turn] at h
  exact h

end Console

end Soc
end VideoProcessing
