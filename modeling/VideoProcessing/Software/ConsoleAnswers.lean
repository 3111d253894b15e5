import VideoProcessing.Software.Soc

/-!
# The console comes back

Nothing that the rest of the board does keeps the console from asking for the next
character: every loop of its programs is bounded, also where they wait for the I2C
controller or for the PLL.  The self-tests, which wait for a burst engine without a
bound, are the exception.

* `Short`: a program makes at most so many accesses, all of which one cycle serves;
* `short_onKey`: so do all programs that run after a character;
* `console_answers`: after as many cycles in which the processor gets to its access the
  console waits again.
-/

namespace VideoProcessing

open Lib

/-- An access that one cycle serves: not a self-test. -/
def Access.Single : Access → Prop
  | .ocmToDdrTest => False
  | .ddrToDdrTest => False
  | _ => True

namespace Console

open Nios

/-- At most `n` accesses, none of them a self-test. -/
structure Short (n : Nat) {R : Type} (p : Nios R) : Prop where
  within : p.Within n
  single : p.Only Access.Single

section Rules

variable {n k : Nat} {R S : Type} {p : Nios R} {f : R → Nios S}

theorem short_ret (n : Nat) (r : R) : Short n (.ret r : Nios R) where
  within := by simp [Prog.Within]
  single := trivial

theorem short_act {a : Access} (ha : a.Single) {q : BitVec 32 → Nios R}
    (h : ∀ v, Short n (q v)) : Short (n + 1) (.act a q) where
  within v := (h v).within
  single := ⟨ha, fun v => (h v).single⟩

theorem Short.mono (h : Short n p) (hle : n ≤ k) : Short k p where
  within := h.within.mono hle
  single := h.single

theorem Short.bind (h : Short n p) (hf : ∀ r, Short k (f r)) :
    Short (n + k) (p.bind f) where
  within := h.within.bind fun r => (hf r).within
  single := h.single.bind fun r => (hf r).single

theorem Short.upTo {body : Nat → Nios Unit} (h : ∀ i, Short k (body i)) (n : Nat) :
    Short (n * k) (Prog.upTo n body) where
  within := Prog.Within.upTo (fun i => (h i).within) n
  single := Prog.Only.upTo (fun i => (h i).single) n

end Rules

/-- What `hdmi_init` may come to when the I2C controller never has room; nothing else
takes as long. -/
def answerBound : Nat := 6001921010

section Handlers

variable (t : GammaTables) (m : Menu) (c : BitVec 8)

theorem short_hdmiInit : Short answerBound hdmiInit where
  within := hdmiInit_within
  single := hdmiInit_only.mono fun a ha => by cases a <;> trivial

theorem short_iowrHdmi (reg : BitVec 3) (v : BitVec 32) : Short 1 (iowrHdmi reg v) :=
  short_act (a := .iowrHdmi reg v) trivial fun _ => short_ret 0 ()

/-- Two accesses: a read-modify-write. -/
theorem short_update (reg : BitVec 3) (f : BitVec 32 → BitVec 32) :
    Short 2 ((iordHdmi reg).bind fun r => iowrHdmi reg (f r)) :=
  short_act (a := .iordHdmi reg) trivial fun r => short_iowrHdmi reg (f r)

theorem short_loadTable (addr data : BitVec 3) (n : Nat) (val : Nat → BitVec 32) :
    Short (n * 2) (loadTable addr data n val) :=
  Short.upTo (fun i => (short_iowrHdmi addr _).bind fun _ => short_iowrHdmi data (val i)) n

theorem short_generateColorBarPattern :
    Short (height * (width * 1)) generateColorBarPattern :=
  Short.upTo (fun y => Short.upTo (fun x =>
    short_act (a := .store (index ddr3WindowBase (y * width + x)) (barColor x)) trivial
      fun _ => short_ret 0 ()) width) height

theorem short_dmaPrompt : Short 2 (dmaPrompt m) :=
  short_act (a := .iordHdmi regDmaCtrl) trivial fun _ =>
    short_act (a := .iordHdmi regPatternMode) trivial fun _ => short_ret 0 _

/-- A short program, and then the menu. -/
theorem Short.thenMenu {n : Nat} {R : Type} {p : Nios R} (h : Short n p)
    (hn : n ≤ answerBound) (m : Menu) : Short answerBound (p.bind fun _ => .ret m) :=
  (h.bind (k := 0) fun _ => short_ret 0 m).mono hn

theorem short_onMain (hc : c ≠ key '1' ∧ c ≠ key '2') :
    Short answerBound (onMain m c) := by
  have hret : ∀ m : Menu, Short answerBound (.ret m : Nios Menu) := short_ret answerBound
  rw [onMain]
  split
  · exact hret m
  rw [if_neg hc.1, if_neg hc.2]
  split
  · exact short_hdmiInit.thenMenu (Nat.le_refl _) m
  split
  · exact short_generateColorBarPattern.thenMenu (by decide) m
  split
  · exact hret _
  split
  · exact (short_dmaPrompt m).mono (by decide)
  split
  · exact hret _
  split
  · exact (short_loadTable _ _ 16 _).thenMenu (by decide) m
  split
  · exact (short_iowrHdmi _ _).thenMenu (by decide) m
  split
  · exact hret _
  · exact hret m

theorem short_onGamma : Short answerBound (onGamma t m c) := by
  rw [onGamma]
  split
  · exact short_ret _ _
  split
  · exact (short_update _ _).thenMenu (by decide) _
  split
  · exact (short_loadTable _ _ 256 _).thenMenu (by decide) m
  split
  · exact (short_loadTable _ _ 256 _).thenMenu (by decide) m
  split
  · exact (short_loadTable _ _ 256 _).thenMenu (by decide) m
  · exact short_ret _ m

theorem short_onPattern : Short answerBound (onPattern m c) := by
  rw [onPattern]
  split
  · exact short_ret _ _
  · dsimp only
    split
    · exact (short_iowrHdmi _ _).thenMenu (by decide) m
    · exact short_ret _ m

theorem short_onDma : Short answerBound (onDma m c) := by
  rw [onDma]
  split
  · exact short_ret _ _
  split
  · exact ((short_iowrHdmi _ _).bind fun _ => short_dmaPrompt m).mono (by decide)
  split
  · exact ((short_update _ _).bind fun _ => short_dmaPrompt m).mono (by decide)
  split
  · exact ((short_update _ _).bind fun _ => short_dmaPrompt m).mono (by decide)
  split
  · exact (short_act (a := .iordHdmi regDmaCtrl) trivial fun _ => short_dmaPrompt m).mono
      (by decide)
  · exact (short_dmaPrompt m).mono (by decide)

/-- Every program after a character, but the self-tests. -/
theorem short_onKey {f : BitVec 8 → Nios Menu} (hf : onKey t m = some f)
    (hc : m.screen = .main → c ≠ key '1' ∧ c ≠ key '2') : Short answerBound (f c) := by
  rw [onKey] at hf
  cases hs : m.screen with
  | main =>
      rw [hs] at hf
      rw [← Option.some.inj hf]
      exact short_onMain m c (hc hs)
  | gamma =>
      rw [hs] at hf
      rw [← Option.some.inj hf]
      exact short_onGamma t m c
  | pattern =>
      rw [hs] at hf
      rw [← Option.some.inj hf]
      exact short_onPattern m c
  | dma =>
      rw [hs] at hf
      rw [← Option.some.inj hf]
      exact short_onDma m c
  | quit =>
      rw [hs] at hf
      exact absurd hf (by simp)

end Handlers

end Console

namespace Soc

open Console

variable {τ : Type}

/-- The processor gets to its next access. -/
def Event.gets (e : Event) : Bool := e.port.any fun p => p.go

/-- An access that is no self-test is served when the processor gets to it. -/
theorem act_isSome (P : Platform τ) (s : Soc τ) (e : Event) (a : Access) (ha : a.Single)
    (he : e.gets = true) : ((device P).act s e a).isSome = true := by
  rw [Event.gets] at he
  cases hp : e.port with
  | none =>
      rw [hp] at he
      exact absurd he (by simp)
  | some p =>
      rw [hp] at he
      have hgo : p.go = true := he
      simp only [device, hp, hgo, if_true]
      cases a <;> first | rfl | exact ha.elim

/-- After a character, but for the two self-tests, the console waits for the next one by
the time of `answerBound` cycles in which the processor gets to its access, from any state
of the board and whatever the I2C controller and the PIO answer; and its accesses are
those of the program that runs after the character. -/
theorem console_answers (P : Platform τ) (t : GammaTables) (m : Menu)
    (f : BitVec 8 → Nios Menu) (hf : onKey t m = some f) (c : BitVec 8)
    (hc : m.screen = .main → c ≠ key '1' ∧ c ≠ key '2') (s : Soc τ) (es : List Event)
    (hes : answerBound ≤ es.countP Event.gets) :
    ∃ pre m', pre <+: es ∧ (run (console P t) (s, f c) pre).2 = .ret m' ∧
      (f c).Path (accesses (device P) (log (console P t) (s, f c) pre)) m' := by
  have hshort := short_onKey t m c hf hc
  exact returns_of_served (act_isSome P) (f c) hshort.within hshort.single s es hes

/-- Option 3 of the main menu comes back. -/
theorem console_answers_hdmi_init :
    ∃ pre m', pre <+: List.replicate answerBound (goEvent none) ∧
      (run (console bench flatTables)
        (powerUp.1, onMain ⟨.main, false, false, false⟩ (key '3')) pre).2 = .ret m' ∧
      (onMain ⟨.main, false, false, false⟩ (key '3')).Path
        (accesses (device bench) (log (console bench flatTables)
          (powerUp.1, onMain ⟨.main, false, false, false⟩ (key '3')) pre)) m' := by
  have hes : answerBound ≤
      (List.replicate answerBound (goEvent none)).countP Event.gets := by
    rw [List.countP_replicate]
    exact Nat.le_refl answerBound
  exact console_answers bench flatTables ⟨.main, false, false, false⟩ _ rfl (key '3')
    (fun _ => by decide) powerUp.1 _ hes

end Soc
end VideoProcessing
