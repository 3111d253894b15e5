import VideoProcessing.Lib.Run

/-!
# Programs of accesses and servers

A `Prog` is a program that makes accesses, one at a time, and goes on with their
answers.  A `Device` is what it runs on: in every event the device either serves
the access at hand or goes its own way (`idle`), so any number of events may pass
before an access and between two of them.

A *server* waits for a request, runs the program of that request, and waits again;
`serve` is one event of a server on a device.

Main rules:
* `wp`: the weakest precondition of a program under arbitrary idle events, with an
  invariant that has to hold all along; `wp_act`, `wp_bind`, `wp_upTo` and `wp_keeps`
  are its rules;
* `Handles.follows`: when every handler takes the server where the abstract server goes
  with its request, the server follows it in every run;
* `Handles.inv`: the invariant of the handlers holds in every state of a run;
* `returns_of_served`: a program of at most `n` accesses has returned by the time of `n`
  events that serve them;
* `Executes`: where a program ends when every event serves it; `executes_act`,
  `executes_bind`, `executes_upTo` and `executes_upTo_upTo` are the rules.
-/

namespace VideoProcessing
namespace Lib

universe u v w x y z

/-- A program that makes accesses `A`, gets answers `V` and returns an `R`. -/
inductive Prog (A : Type u) (V : Type v) (R : Type w) : Type (max u v w)
  | ret (r : R)
  | act (a : A) (k : V → Prog A V R)

namespace Prog

variable {A : Type u} {V : Type v} {R : Type w} {S : Type x}

/-- One program after another. -/
def bind : Prog A V R → (R → Prog A V S) → Prog A V S
  | .ret r, f => f r
  | .act a k, f => .act a fun v => (k v).bind f

theorem bind_assoc {S' : Type*} (p : Prog A V R) (f : R → Prog A V S)
    (g : S → Prog A V S') :
    (p.bind f).bind g = p.bind fun r => (f r).bind g := by
  induction p with
  | ret r => rfl
  | act a k ih => exact congrArg (Prog.act a) (funext ih)

theorem bind_ret (p : Prog A V R) : p.bind .ret = p := by
  induction p with
  | ret r => rfl
  | act a k ih => exact congrArg (Prog.act a) (funext ih)

/-- A single access. -/
def access (a : A) : Prog A V V := .act a .ret

instance : Monad (Prog A V) where
  pure := .ret
  bind := bind

/-- `for (i = 0; i < n; i++) body(i)`. -/
def upTo : Nat → (Nat → Prog A V Unit) → Prog A V Unit
  | 0, _ => .ret ()
  | n + 1, body => (upTo n body).bind fun _ => body n

/-- Makes the access until its answer passes, at most `n` times; whether it passed. -/
def pollFor (a : A) (ok : V → Bool) : Nat → Prog A V Bool
  | 0 => .ret false
  | n + 1 => .act a fun v => if ok v then .ret true else pollFor a ok n

/-- Runs the program again while `again` says so, at most `n` more times. -/
def retry (again : R → Bool) (p : Prog A V R) : Nat → Prog A V R
  | 0 => p
  | n + 1 => p.bind fun r => if again r then retry again p n else .ret r

/-- The program makes only accesses in `S`. -/
def Only (S : A → Prop) : Prog A V R → Prop
  | .ret _ => True
  | .act a k => S a ∧ ∀ v, (k v).Only S

theorem Only.mono {T T' : A → Prop} {p : Prog A V R} (h : p.Only T)
    (hT : ∀ a, T a → T' a) :
    p.Only T' := by
  induction p with
  | ret r => trivial
  | act a k ih => exact ⟨hT a h.1, fun v => ih v (h.2 v)⟩

theorem Only.bind {T : A → Prop} {p : Prog A V R} {f : R → Prog A V S} (h : p.Only T)
    (hf : ∀ r, (f r).Only T) : (p.bind f).Only T := by
  induction p with
  | ret r => exact hf r
  | act a k ih => exact ⟨h.1, fun v => ih v (h.2 v)⟩

theorem Only.upTo {T : A → Prop} {body : Nat → Prog A V Unit} (h : ∀ i, (body i).Only T)
    (n : Nat) : (upTo n body).Only T := by
  induction n with
  | zero => trivial
  | succ n ih => exact ih.bind fun _ => h n

theorem Only.pollFor {T : A → Prop} {a : A} (h : T a) (ok : V → Bool) (n : Nat) :
    (pollFor a ok n).Only T := by
  induction n with
  | zero => trivial
  | succ n ih =>
      refine ⟨h, fun v => ?_⟩
      change Only T (if ok v then .ret true else Prog.pollFor a ok n)
      split
      · trivial
      · exact ih

theorem Only.retry {T : A → Prop} {p : Prog A V R} (h : p.Only T) (again : R → Bool)
    (n : Nat) :
    (retry again p n).Only T := by
  induction n with
  | zero => exact h
  | succ n ih =>
      refine h.bind fun r => ?_
      split
      · exact ih
      · trivial

/-- The program makes at most `n` accesses, whatever the answers. -/
def Within : Nat → Prog A V R → Prop
  | _, .ret _ => True
  | 0, .act _ _ => False
  | n + 1, .act _ k => ∀ v, (k v).Within n

theorem Within.mono {n m : Nat} {p : Prog A V R} (h : p.Within n) (hle : n ≤ m) :
    p.Within m := by
  induction p generalizing n m with
  | ret r => simp [Within]
  | act a k ih =>
      cases n with
      | zero => exact h.elim
      | succ n =>
          cases m with
          | zero => exact absurd hle (Nat.not_succ_le_zero n)
          | succ m => exact fun v => ih v (h v) (Nat.le_of_succ_le_succ hle)

theorem Within.bind {n m : Nat} {p : Prog A V R} {f : R → Prog A V S} (h : p.Within n)
    (hf : ∀ r, (f r).Within m) : (p.bind f).Within (n + m) := by
  induction p generalizing n with
  | ret r => exact (hf r).mono (Nat.le_add_left m n)
  | act a k ih =>
      cases n with
      | zero => exact h.elim
      | succ n =>
          rw [Nat.succ_add]
          exact fun v => ih v (h v)

theorem Within.upTo {m : Nat} {body : Nat → Prog A V Unit} (h : ∀ i, (body i).Within m)
    (n : Nat) : (upTo n body).Within (n * m) := by
  induction n with
  | zero => simp [Prog.upTo, Within]
  | succ n ih =>
      rw [Nat.succ_mul]
      exact ih.bind fun _ => h n

theorem Within.pollFor (a : A) (ok : V → Bool) (n : Nat) : (pollFor a ok n).Within n := by
  induction n with
  | zero => trivial
  | succ n ih =>
      intro v
      change Within n (if ok v then .ret true else Prog.pollFor a ok n)
      split
      · simp [Within]
      · exact ih

theorem Within.retry {m : Nat} {p : Prog A V R} (h : p.Within m) (again : R → Bool)
    (n : Nat) :
    (retry again p n).Within ((n + 1) * m) := by
  induction n with
  | zero => simpa [Prog.retry] using h
  | succ n ih =>
      rw [Nat.succ_mul, Nat.add_comm]
      refine h.bind fun r => ?_
      split
      · exact ih
      · simp [Within]

/-- The accesses of a program that returns `r`, each with its answer. -/
def Path : Prog A V R → List (A × V) → R → Prop
  | .ret r, l, r' => l = [] ∧ r = r'
  | .act a k, l, r => ∃ v l', l = (a, v) :: l' ∧ (k v).Path l' r

theorem path_bind {p : Prog A V R} {f : R → Prog A V S} {l : List (A × V)} {t : S} :
    (p.bind f).Path l t ↔ ∃ l₁ l₂ r, l = l₁ ++ l₂ ∧ p.Path l₁ r ∧ (f r).Path l₂ t := by
  induction p generalizing l with
  | ret r =>
      constructor
      · exact fun h => ⟨[], l, r, rfl, ⟨rfl, rfl⟩, h⟩
      · rintro ⟨l₁, l₂, r', rfl, ⟨rfl, rfl⟩, h⟩
        exact h
  | act a k ih =>
      constructor
      · rintro ⟨v, l', rfl, h⟩
        obtain ⟨l₁, l₂, r, rfl, h₁, h₂⟩ := (ih v).1 h
        exact ⟨(a, v) :: l₁, l₂, r, rfl, ⟨v, l₁, rfl, h₁⟩, h₂⟩
      · rintro ⟨l₁, l₂, r, rfl, ⟨v, l₁', rfl, h₁⟩, h₂⟩
        exact ⟨v, l₁' ++ l₂, rfl, (ih v).2 ⟨l₁', l₂, r, rfl, h₁, h₂⟩⟩

/-- The path of a program that gets the same answer to an access every time. -/
def replies (f : A → V) : Prog A V R → List (A × V) × R
  | .ret r => ([], r)
  | .act a k => ((a, f a) :: (replies f (k (f a))).1, (replies f (k (f a))).2)

theorem path_replies (f : A → V) (p : Prog A V R) :
    p.Path (p.replies f).1 (p.replies f).2 := by
  induction p with
  | ret r => exact ⟨rfl, rfl⟩
  | act a k ih => exact ⟨f a, _, rfl, ih (f a)⟩

/-- A poll sees answers that fail, and then one that passes or too many. -/
theorem path_pollFor {a : A} {ok : V → Bool} {n : Nat} {l : List (A × V)} {b : Bool} :
    (pollFor a ok n).Path l b ↔
      ∃ vs : List V, (∀ v ∈ vs, ok v = false) ∧
        ((b = false ∧ vs.length = n ∧ l = vs.map (Prod.mk a)) ∨
          (b = true ∧ vs.length < n ∧ ∃ v, ok v = true ∧
            l = vs.map (Prod.mk a) ++ [(a, v)])) := by
  induction n generalizing l with
  | zero =>
      constructor
      · rintro ⟨rfl, rfl⟩
        exact ⟨[], by simp, Or.inl ⟨rfl, rfl, rfl⟩⟩
      · rintro ⟨vs, -, ⟨rfl, hlen, rfl⟩ | ⟨-, hlen, -⟩⟩
        · rw [List.length_eq_zero_iff.1 hlen]
          exact ⟨rfl, rfl⟩
        · exact absurd hlen (Nat.not_lt_zero _)
  | succ n ih =>
      constructor
      · rintro ⟨v, l', rfl, h⟩
        change Path (if ok v then .ret true else pollFor a ok n) l' b at h
        cases hv : ok v with
        | true =>
            rw [hv, if_pos rfl] at h
            obtain ⟨rfl, rfl⟩ := h
            exact ⟨[], by simp, Or.inr ⟨rfl, Nat.succ_pos n, v, hv, rfl⟩⟩
        | false =>
            rw [hv, if_neg Bool.false_ne_true] at h
            obtain ⟨vs, hvs, hcase⟩ := ih.1 h
            refine ⟨v :: vs, by simpa [hv] using hvs, ?_⟩
            rcases hcase with ⟨hb, hlen, rfl⟩ | ⟨hb, hlen, w, hw, rfl⟩
            · exact Or.inl ⟨hb, congrArg Nat.succ hlen, rfl⟩
            · exact Or.inr ⟨hb, Nat.succ_lt_succ hlen, w, hw, rfl⟩
      · rintro ⟨vs, hvs, hcase⟩
        have hnext : ∀ v l', Path (if ok v then .ret true else pollFor a ok n) l' b →
            (pollFor a ok (n + 1)).Path ((a, v) :: l') b := fun v l' h => ⟨v, l', rfl, h⟩
        cases vs with
        | nil =>
            rcases hcase with ⟨-, hlen, -⟩ | ⟨rfl, -, v, hv, rfl⟩
            · exact absurd hlen (Nat.succ_ne_zero n).symm
            · refine hnext v [] ?_
              rw [hv, if_pos rfl]
              exact ⟨rfl, rfl⟩
        | cons v vs =>
            have hv : ok v = false := hvs v List.mem_cons_self
            have hrest : ∀ w ∈ vs, ok w = false :=
              fun w hw => hvs w (List.mem_cons_of_mem _ hw)
            rcases hcase with ⟨hb, hlen, rfl⟩ | ⟨hb, hlen, w, hw, rfl⟩
            · refine hnext v _ ?_
              rw [hv, if_neg Bool.false_ne_true]
              exact ih.2 ⟨vs, hrest, Or.inl ⟨hb, Nat.succ.inj hlen, rfl⟩⟩
            · refine hnext v _ ?_
              rw [hv, if_neg Bool.false_ne_true]
              exact ih.2 ⟨vs, hrest, Or.inr ⟨hb, Nat.lt_of_succ_lt_succ hlen, w, hw, rfl⟩⟩

section Observations

variable {O : Type*} {obs : A × V → Option O}

/-- What the accesses of the program show, and what it returns, satisfy `P`. -/
def Observes (obs : A × V → Option O) (p : Prog A V R) (P : List O → R → Prop) : Prop :=
  ∀ l r, p.Path l r → P (l.filterMap obs) r

theorem observes_ret {r : R} {P : List O → R → Prop} (h : P [] r) :
    Observes obs (.ret r : Prog A V R) P := by
  rintro l r' ⟨rfl, rfl⟩
  exact h

theorem observes_act {a : A} {k : V → Prog A V R} {P : List O → R → Prop}
    (h : ∀ v, Observes obs (k v) fun o => P ((obs (a, v)).toList ++ o)) :
    Observes obs (.act a k) P := by
  rintro l r ⟨v, l', rfl, hp⟩
  have hv := h v l' r hp
  cases ho : obs (a, v) <;> simpa [List.filterMap_cons, ho] using hv

theorem observes_bind {p : Prog A V R} {f : R → Prog A V S} {P : List O → R → Prop}
    {Q : List O → S → Prop} (hp : Observes obs p P)
    (hf : ∀ o r, P o r → Observes obs (f r) fun o' => Q (o ++ o')) :
    Observes obs (p.bind f) Q := by
  intro l t h
  obtain ⟨l₁, l₂, r, rfl, h₁, h₂⟩ := path_bind.1 h
  rw [List.filterMap_append]
  exact hf _ r (hp l₁ r h₁) l₂ t h₂

theorem Observes.mono {p : Prog A V R} {P Q : List O → R → Prop} (h : Observes obs p P)
    (hPQ : ∀ o r, P o r → Q o r) : Observes obs p Q :=
  fun l r hp => hPQ _ r (h l r hp)

/-- A poll of something that is not observed. -/
theorem observes_pollFor {a : A} (ha : ∀ v, obs (a, v) = none) (ok : V → Bool) (n : Nat)
    {P : List O → Bool → Prop} (h : ∀ b, P [] b) : Observes obs (pollFor a ok n) P := by
  induction n with
  | zero => exact observes_ret (h false)
  | succ n ih =>
      refine observes_act fun v => ?_
      rw [ha v, Option.toList_none]
      change Observes obs (if ok v then .ret true else pollFor a ok n) P
      split
      · exact observes_ret (h true)
      · exact ih

/-- The attempts of a retried program, the last of which gives the result. -/
theorem observes_retry {again : R → Bool} {p : Prog A V R} {P : List O → R → Prop}
    (hp : Observes obs p P) (n : Nat) :
    Observes obs (retry again p n) fun o r => ∃ (os : List (List O)) (last : List O),
      o = os.flatten ++ last ∧ os.length ≤ n ∧
        (∀ x ∈ os, ∃ r', again r' = true ∧ P x r') ∧ P last r := by
  induction n with
  | zero => exact hp.mono fun o r h => ⟨[], o, rfl, Nat.le_refl 0, by simp, h⟩
  | succ n ih =>
      refine observes_bind hp ?_
      intro o r hr
      split
      · next hagain =>
          refine ih.mono ?_
          rintro o' r' ⟨os, last, rfl, hlen, hos, hlast⟩
          refine ⟨o :: os, last, by simp, Nat.succ_le_succ hlen, ?_, hlast⟩
          intro x hx
          rcases List.mem_cons.1 hx with rfl | hx
          · exact ⟨r, hagain, hr⟩
          · exact hos x hx
      · exact observes_ret ⟨[], o, by simp, Nat.zero_le _, by simp, hr⟩

end Observations

end Prog

/-- A device with state `σ` and events `ε`: what it does by itself, whether and how it
serves an access, and whether a request arrives. -/
structure Device (σ : Type u) (ε A V C : Type v) where
  idle : σ → ε → σ
  act : σ → ε → A → Option (V × σ)
  poll : σ → ε → Option (C × σ)

variable {σ : Type u} {ε A V C : Type v} {R M : Type w} {S : Type x} (D : Device σ ε A V C)

section WeakestPrecondition

/-- An assertion that idle events keep. -/
def Stable (P : σ → Prop) : Prop := ∀ s e, P s → P (D.idle s e)

variable {D}

theorem Stable.run {P : σ → Prop} (h : Stable D P) {s : σ} (hs : P s) (es : List ε) :
    P (run D.idle s es) :=
  run_invariant hs h es

variable (D)

/-- From this state the program keeps `I` while it runs and returns into `Q`, whatever
idle events come in between. -/
def wp (I : σ → Prop) (Q : R → σ → Prop) : Prog A V R → σ → Prop
  | .ret r, s => ∀ es, I (run D.idle s es) ∧ Q r (run D.idle s es)
  | .act a k, s => ∀ es, I (run D.idle s es) ∧
      ∀ e v s', D.act (run D.idle s es) e a = some (v, s') → wp I Q (k v) s'

variable {D} {I I' P : σ → Prop} {Q Q' : R → σ → Prop} {p : Prog A V R} {s : σ}

theorem wp_idle (h : wp D I Q p s) (e : ε) : wp D I Q p (D.idle s e) := by
  cases p with
  | ret r => exact fun es => h (e :: es)
  | act a k => exact fun es => h (e :: es)

theorem wp_inv (h : wp D I Q p s) : I s := by
  cases p with
  | ret r => exact (h []).1
  | act a k => exact (h []).1

theorem wp_mono (hI : ∀ s, I s → I' s) (hQ : ∀ r s, Q r s → Q' r s) (h : wp D I Q p s) :
    wp D I' Q' p s := by
  induction p generalizing s with
  | ret r => exact fun es => ⟨hI _ (h es).1, hQ r _ (h es).2⟩
  | act a k ih =>
      intro es
      refine ⟨hI _ (h es).1, ?_⟩
      intro e v s' hact
      exact ih v ((h es).2 e v s' hact)

/-- A program that has returned. -/
theorem wp_ret {r : R} (hI : Stable D I) (hQ : Stable D (Q r)) (hIs : I s) (hQs : Q r s) :
    wp D I Q (.ret r) s :=
  fun es => ⟨hI.run hIs es, hQ.run hQs es⟩

/-- One access: before it, idle events keep `P`. -/
theorem wp_act {a : A} {k : V → Prog A V R} (hP : Stable D P) (hI : ∀ s, P s → I s)
    (hact : ∀ s e v s', P s → D.act s e a = some (v, s') → wp D I Q (k v) s') (hs : P s) :
    wp D I Q (.act a k) s := by
  intro es
  have hPs := hP.run hs es
  exact ⟨hI _ hPs, fun e v s' h => hact _ e v s' hPs h⟩

/-- One program after another. -/
theorem wp_bind {f : R → Prog A V S} {Q : S → σ → Prop}
    (h : wp D I (fun r => wp D I Q (f r)) p s) : wp D I Q (p.bind f) s := by
  induction p generalizing s with
  | ret r => exact (h []).2
  | act a k ih =>
      intro es
      refine ⟨(h es).1, ?_⟩
      intro e v s' hact
      exact ih v ((h es).2 e v s' hact)

/-- A counting loop: `P i` holds before pass `i`. -/
theorem wp_upTo {body : Nat → Prog A V Unit} (P : Nat → σ → Prop) {n : Nat}
    (hret : ∀ s, P 0 s → wp D I (fun _ => P 0) (.ret () : Prog A V Unit) s)
    (hbody : ∀ i s, i < n → P i s → wp D I (fun _ => P (i + 1)) (body i) s) (hs : P 0 s) :
    wp D I (fun _ => P n) (Prog.upTo n body) s := by
  induction n with
  | zero => exact hret s hs
  | succ n ih =>
      refine wp_bind (wp_mono (fun _ h => h) ?_ (ih ?_))
      · exact fun _ s hPs => hbody n s (Nat.lt_succ_self n) hPs
      · exact fun i s hi => hbody i s (Nat.lt_succ_of_lt hi)

/-- What idle events and all the accesses of a program keep holds all along. -/
theorem wp_keeps {T : A → Prop} (hidle : Stable D P)
    (hact : ∀ s e a v s', T a → P s → D.act s e a = some (v, s') → P s') (hp : p.Only T)
    (hs : P s) : wp D P (fun _ => P) p s := by
  induction p generalizing s with
  | ret r => exact wp_ret hidle hidle hs hs
  | act a k ih =>
      refine wp_act hidle (fun _ h => h) ?_ hs
      intro s e v s' hs h
      exact ih v (hp.2 v) (hact s e a v s' hp.1 hs h)

end WeakestPrecondition

section Serving

/-- One event of a server: in mode `m` it waits for a request if `body m` is a handler;
a program that returns `m` goes on in mode `m`. -/
def serve (body : M → Option (C → Prog A V M)) (c : σ × Prog A V M) (e : ε) :
    σ × Prog A V M :=
  match c.2 with
  | .ret m =>
      match body m, D.poll c.1 e with
      | some f, some (x, s') => (s', f x)
      | _, _ => (D.idle c.1 e, .ret m)
  | .act a k =>
      match D.act c.1 e a with
      | some (v, s') => (s', k v)
      | none => (D.idle c.1 e, .act a k)

/-- The request taken in an event. -/
def request (body : M → Option (C → Prog A V M)) (c : σ × Prog A V M) (e : ε) : Option C :=
  match c.2 with
  | .ret m => if (body m).isSome then (D.poll c.1 e).map Prod.fst else none
  | .act _ _ => none

/-- The access served in an event, with its answer. -/
def served (c : σ × Prog A V M) (e : ε) : Option (A × V) :=
  match c.2 with
  | .ret _ => none
  | .act a _ => (D.act c.1 e a).map fun r => (a, r.1)

/-- The requests of a run, oldest first. -/
def requests (body : M → Option (C → Prog A V M)) (l : List ((σ × Prog A V M) × ε)) :
    List C :=
  l.filterMap fun p => request D body p.1 p.2

/-- The accesses of a run, oldest first. -/
def accesses (l : List ((σ × Prog A V M) × ε)) : List (A × V) :=
  l.filterMap fun p => served D p.1 p.2

variable {D} {body : M → Option (C → Prog A V M)} {c : σ × Prog A V M} {e : ε}

theorem requests_snoc (l : List ((σ × Prog A V M) × ε)) (c : σ × Prog A V M) (e : ε) :
    requests D body (l ++ [(c, e)]) =
      requests D body l ++ (request D body c e).toList := by
  rw [requests, List.filterMap_append]
  cases h : request D body c e <;> simp [h, requests]

/-- What an event of a server can do: the device is idle, an access is served, or a
request is taken. -/
theorem serve_cases (body : M → Option (C → Prog A V M)) (c : σ × Prog A V M) (e : ε) :
    (serve D body c e = (D.idle c.1 e, c.2) ∧ request D body c e = none ∧
      served D c e = none) ∨
    (∃ a k v s', c.2 = .act a k ∧ D.act c.1 e a = some (v, s') ∧
      serve D body c e = (s', k v) ∧ request D body c e = none ∧
      served D c e = some (a, v)) ∨
    (∃ m f x s', c.2 = .ret m ∧ body m = some f ∧ D.poll c.1 e = some (x, s') ∧
      serve D body c e = (s', f x) ∧ request D body c e = some x ∧
        served D c e = none) := by
  obtain ⟨s, p⟩ := c
  cases p with
  | ret m =>
      cases hb : body m with
      | none => exact Or.inl ⟨by simp [serve, hb], by simp [request, hb], rfl⟩
      | some f =>
          cases hp : D.poll s e with
          | none => exact Or.inl ⟨by simp [serve, hb, hp], by simp [request, hb, hp], rfl⟩
          | some r =>
              exact Or.inr (Or.inr ⟨m, f, r.1, r.2, rfl, hb, rfl, by simp [serve, hb, hp],
                by simp [request, hb, hp], rfl⟩)
  | act a k =>
      cases ha : D.act s e a with
      | none => exact Or.inl ⟨by simp [serve, ha], rfl, by simp [served, ha]⟩
      | some r =>
          exact Or.inr (Or.inl ⟨a, k, r.1, r.2, rfl, ha, by simp [serve, ha], rfl,
            by simp [served, ha]⟩)

variable {T : Type x}

/-- The invariant of a server: the program at hand keeps `I` and ends where the abstract
server is. -/
def Following (D : Device σ ε A V C) (I : T → σ → Prop) (J : M → T → σ → Prop) (t : T)
    (c : σ × Prog A V M) : Prop :=
  wp D (I t) (fun m s => J m t s) c.2 c.1

variable {I : T → σ → Prop} {J : M → T → σ → Prop} {spec : T → C → T} {t₀ : T}
  {c₀ : σ × Prog A V M}

/-- Every handler takes the server where the abstract server goes with its request. -/
def Handles (D : Device σ ε A V C) (body : M → Option (C → Prog A V M)) (I : T → σ → Prop)
    (J : M → T → σ → Prop) (spec : T → C → T) : Prop :=
  ∀ m t f s e x s', J m t s → I t s → body m = some f → D.poll s e = some (x, s') →
    wp D (I (spec t x)) (fun m' s => J m' (spec t x) s) (f x) s'

theorem Handles.following (h : Handles D body I J spec) (h₀ : Following D I J t₀ c₀)
    (es : List ε) :
    Following D I J (run spec t₀ (requests D body (log (serve D body) c₀ es)))
      (run (serve D body) c₀ es) := by
  refine log_invariant (P := fun c l => Following D I J (run spec t₀ (requests D body l)) c)
    h₀ ?_ es
  intro c l e hc
  rw [requests_snoc]
  rcases serve_cases body c e with ⟨hstep, hreq, -⟩ | ⟨a, k, v, s', hp, hact, hstep, hreq, -⟩ |
    ⟨m, f, x, s', hp, hb, hpoll, hstep, hreq, -⟩
  · rw [hstep, hreq, Option.toList_none, List.append_nil]
    exact wp_idle hc e
  · rw [hstep, hreq, Option.toList_none, List.append_nil]
    rw [Following, hp] at hc
    exact (hc []).2 e v s' hact
  · rw [hstep, hreq, Option.toList_some, run_snoc]
    rw [Following, hp] at hc
    exact h m _ f c.1 e x s' (hc []).2 (hc []).1 hb hpoll

/-- Whenever the server waits, it is where the abstract server is. -/
theorem Handles.follows (h : Handles D body I J spec) (h₀ : Following D I J t₀ c₀)
    (es : List ε) {m : M} (hwait : (run (serve D body) c₀ es).2 = .ret m) :
    J m (run spec t₀ (requests D body (log (serve D body) c₀ es)))
      (run (serve D body) c₀ es).1 := by
  have hf := h.following h₀ es
  rw [Following, hwait] at hf
  exact (hf []).2

/-- What the programs keep holds in every state of a run. -/
theorem Handles.inv (h : Handles D body I J spec) (h₀ : Following D I J t₀ c₀)
    (es : List ε) :
    I (run spec t₀ (requests D body (log (serve D body) c₀ es)))
      (run (serve D body) c₀ es).1 :=
  wp_inv (h.following h₀ es)

end Serving

section Progress

variable {D} {body : M → Option (C → Prog A V M)} {ready : ε → Bool} {T : A → Prop}

/-- A program of at most `n` accesses has returned by the time of `n` events that serve
them, and the accesses that it has made are a path of it. -/
theorem returns_of_served
    (hready : ∀ s e a, T a → ready e = true → (D.act s e a).isSome = true) {n : Nat}
    (p : Prog A V M) (hp : p.Within n) (hT : p.Only T) (s : σ) (es : List ε)
    (hn : n ≤ es.countP ready) :
    ∃ pre m, pre <+: es ∧ (run (serve D body) (s, p) pre).2 = .ret m ∧
      p.Path (accesses D (log (serve D body) (s, p) pre)) m := by
  induction es generalizing n s p with
  | nil =>
      cases p with
      | ret m => exact ⟨[], m, List.prefix_rfl, rfl, rfl, rfl⟩
      | act a k =>
          rw [List.countP_nil, Nat.le_zero] at hn
          rw [hn] at hp
          exact hp.elim
  | cons e es ih =>
      cases p with
      | ret m => exact ⟨[], m, List.nil_prefix, rfl, rfl, rfl⟩
      | act a k =>
          cases n with
          | zero => exact hp.elim
          | succ n =>
              cases hact : D.act s e a with
              | none =>
                  have hnot : ready e = false := by
                    cases hr : ready e with
                    | false => rfl
                    | true => exact absurd (hready s e a hT.1 hr) (by simp [hact])
                  rw [List.countP_cons_of_neg (by simp [hnot])] at hn
                  obtain ⟨pre, m, hpre, hret, hpath⟩ := ih (.act a k) hp hT (D.idle s e) hn
                  have hstep : serve D body (s, .act a k) e = (D.idle s e, .act a k) := by
                    simp [serve, hact]
                  have hserved : served D (s, .act a k) e = none := by simp [served, hact]
                  refine ⟨e :: pre, m, List.cons_prefix_cons.2 ⟨rfl, hpre⟩, ?_, ?_⟩
                  · rw [run_cons, hstep]
                    exact hret
                  · rw [log_cons, hstep, accesses, List.filterMap_cons, hserved]
                    exact hpath
              | some r =>
                  have hle : n ≤ es.countP ready := by
                    have hcons := List.countP_cons (p := ready) (a := e) (l := es)
                    split at hcons <;> omega
                  obtain ⟨pre, m, hpre, hret, hpath⟩ :=
                    ih (k r.1) (hp r.1) (hT.2 r.1) r.2 hle
                  have hstep : serve D body (s, .act a k) e = (r.2, k r.1) := by
                    simp [serve, hact]
                  have hserved : served D (s, .act a k) e = some (a, r.1) := by
                    simp [served, hact]
                  refine ⟨e :: pre, m, List.cons_prefix_cons.2 ⟨rfl, hpre⟩, ?_, ?_⟩
                  · rw [run_cons, hstep]
                    exact hret
                  · rw [log_cons, hstep, accesses, List.filterMap_cons, hserved]
                    exact ⟨r.1, _, rfl, hpath⟩

end Progress

section Execution

variable {body : M → Option (C → Prog A V M)} {T : A → Prop} {Q : Type y} {Q' : Type z}

/-- Each of the events serves an access in `T` of the program, which ends in state `s'` and
returns `r`. -/
def Executes (body : M → Option (C → Prog A V M)) (T : A → Prop) (p : Prog A V Q) (s : σ)
    (es : List ε) (r : Q) (s' : σ) : Prop :=
  ∀ k : Q → Prog A V M, run (serve D body) (s, p.bind k) es = (s', k r) ∧
    ∀ x ∈ log (serve D body) (s, p.bind k) es, ∃ a v, T a ∧ served D x.1 x.2 = some (a, v)

variable {D}

theorem executes_ret (r : Q) (s : σ) : Executes D body T (.ret r) s [] r s :=
  fun _ => ⟨rfl, fun _ hx => absurd hx List.not_mem_nil⟩

theorem executes_act {a : A} {k : V → Prog A V Q} {s s₁ s' : σ} {e : ε} {es : List ε}
    {v : V} {r : Q} (hact : D.act s e a = some (v, s₁)) (hT : T a)
    (h : Executes D body T (k v) s₁ es r s') :
    Executes D body T (.act a k) s (e :: es) r s' := by
  intro f
  have hstep : serve D body (s, (Prog.act a k).bind f) e = (s₁, (k v).bind f) := by
    simp [serve, Prog.bind, hact]
  rw [run_cons, log_cons, hstep]
  refine ⟨(h f).1, fun x hx => ?_⟩
  rcases List.mem_cons.1 hx with rfl | hx
  · exact ⟨a, v, hT, by simp [served, Prog.bind, hact]⟩
  · exact (h f).2 x hx

theorem executes_bind {p : Prog A V Q} {f : Q → Prog A V Q'} {s s₁ s' : σ}
    {es es' : List ε} {r : Q} {t : Q'} (hp : Executes D body T p s es r s₁)
    (hf : Executes D body T (f r) s₁ es' t s') :
    Executes D body T (p.bind f) s (es ++ es') t s' := by
  intro k
  obtain ⟨hrun, hlog⟩ := hp fun r => (f r).bind k
  rw [Prog.bind_assoc, run_append, log_append, hrun]
  refine ⟨(hf k).1, fun x hx => ?_⟩
  rcases List.mem_append.1 hx with hx | hx
  · exact hlog x hx
  · exact (hf k).2 x hx

/-- A counting loop whose pass `i` leads from state `P i` to state `P (i + 1)`. -/
theorem executes_upTo {b : Nat → Prog A V Unit} (P : Nat → σ) {es : List ε} {n : Nat}
    (h : ∀ i, i < n → Executes D body T (b i) (P i) es () (P (i + 1))) :
    Executes D body T (Prog.upTo n b) (P 0) (List.replicate n es).flatten () (P n) := by
  induction n with
  | zero => exact executes_ret () (P 0)
  | succ n ih =>
      rw [List.replicate_succ', List.flatten_append, List.flatten_singleton]
      exact executes_bind (ih fun i hi => h i (Nat.lt_succ_of_lt hi)) (h n (Nat.lt_succ_self n))

/-- Two nested loops whose pass `(i, j)` leads from state `P (i * m + j)` to the next. -/
theorem executes_upTo_upTo {b : Nat → Nat → Prog A V Unit} (P : Nat → σ) {es : List ε}
    {n m : Nat}
    (h : ∀ i j, i < n → j < m →
      Executes D body T (b i j) (P (i * m + j)) es () (P (i * m + j + 1))) :
    Executes D body T (Prog.upTo n fun i => Prog.upTo m (b i)) (P 0)
      (List.replicate (n * m) es).flatten () (P (n * m)) := by
  have hline : ∀ i, i < n → Executes D body T (Prog.upTo m (b i)) (P (i * m))
      (List.replicate m es).flatten () (P ((i + 1) * m)) := by
    intro i hi
    rw [Nat.succ_mul]
    exact executes_upTo (fun j => P (i * m + j)) (h i · hi)
  have hall := executes_upTo (fun i => P (i * m)) hline
  rw [Nat.zero_mul] at hall
  have hevents : (List.replicate n (List.replicate m es).flatten).flatten =
      (List.replicate (n * m) es).flatten := by
    rw [← List.flatten_replicate_replicate, List.flatten_flatten, List.map_replicate]
  rw [← hevents]
  exact hall

/-- No request is taken meanwhile. -/
theorem Executes.no_request {p : Prog A V Q} {s s' : σ} {es : List ε} {r : Q}
    (h : Executes D body T p s es r s') (k : Q → Prog A V M) :
    requests D body (log (serve D body) (s, p.bind k) es) = [] := by
  rw [requests, List.filterMap_eq_nil_iff]
  intro x hx
  obtain ⟨a, v, -, hserved⟩ := (h k).2 x hx
  rcases serve_cases body x.1 x.2 with ⟨-, -, hnone⟩ | ⟨-, -, -, -, -, -, -, hreq, -⟩ |
    ⟨-, -, -, -, -, -, -, -, -, hnone⟩
  · exact absurd (hnone.symm.trans hserved) (by simp)
  · exact hreq
  · exact absurd (hnone.symm.trans hserved) (by simp)

end Execution

end Lib
end VideoProcessing
