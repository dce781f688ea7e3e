import Embr.Lib.Prog

/-!
# Invariants and postconditions of interactive programs

`Sat E I X p Q s` says that every run of `p` from `s` keeps `I` at each point
it passes, ends normally only in `Q` and by an exception only in `X`. At a call
`I` is told which call is about to be made, elsewhere it is given `none`. Loops
carry their own invariant, so the rules below compose over the text of a
program; `Sat.reaches` is what they mean for its runs.
-/

namespace Interact

variable {Γ : Iface} {α β γ σ : Type}

/-- The call a program is about to make, if that is what it does next. -/
def Prog.head : Prog Γ α → Option Γ.Op
  | .call o _ => some o
  | _ => none

def Sat (E : Env Γ) (I : Option Γ.Op → Γ.Store → Prop) (X : Γ.Exc → Γ.Store → Prop) {α : Type} :
    Prog Γ α → (α → Γ.Store → Prop) → Γ.Store → Prop
  | .ret a, Q, s => I none s ∧ Q a s
  | .raise e, _, s => I none s ∧ X e s
  | .act f k, Q, s => I none s ∧ Sat E I X (k (f s).1) Q (f s).2
  | .call o k, Q, s => I (some o) s ∧ ∀ r s', E o s r s' → Sat E I X (k r) Q s'
  | .loop body x k, Q, s => ∃ J : _ → Γ.Store → Prop, J x s ∧ ∀ y t, J y t → I none t ∧
      Sat E I X (body y) (fun r u => r.elim (fun y' => J y' u) (fun b => Sat E I X (k b) Q u)) t

section rules
variable {E F : Env Γ} {I I' : Option Γ.Op → Γ.Store → Prop} {X X' : Γ.Exc → Γ.Store → Prop}
  {Q R : α → Γ.Store → Prop} {s t : Γ.Store}

theorem Sat.here {p : Prog Γ α} (h : Sat E I X p Q s) : I p.head s := by
  cases p with
  | ret a => exact h.1
  | raise e => exact h.1
  | act f k => exact h.1
  | call o k => exact h.1
  | loop body x k =>
    obtain ⟨J, hx, hJ⟩ := h
    exact (hJ x s hx).1

theorem Sat.mono {p : Prog Γ α} (hE : ∀ o s r s', F o s r s' → E o s r s')
    (hI : ∀ o s, I o s → I' o s) (hX : ∀ e s, X e s → X' e s) (hQ : ∀ a s, Q a s → R a s)
    (h : Sat E I X p Q s) : Sat F I' X' p R s := by
  induction p generalizing s with
  | ret a => exact ⟨hI _ _ h.1, hQ _ _ h.2⟩
  | raise e => exact ⟨hI _ _ h.1, hX _ _ h.2⟩
  | act f k ih => exact ⟨hI _ _ h.1, ih _ hQ h.2⟩
  | call o k ih => exact ⟨hI _ _ h.1, fun r s' hr => ih r hQ (h.2 r s' (hE _ _ _ _ hr))⟩
  | loop body x k ihb ihk =>
    obtain ⟨J, hx, hJ⟩ := h
    refine ⟨J, hx, fun y t hy => ⟨hI _ _ (hJ y t hy).1, ihb y ?_ (hJ y t hy).2⟩⟩
    rintro (y' | b) u hu
    · exact hu
    · exact ihk b hQ hu

theorem Sat.weaken {p : Prog Γ α} (h : Sat E I X p Q s) (hQ : ∀ a t, Q a t → R a t) :
    Sat E I X p R s :=
  h.mono (fun _ _ _ _ hr => hr) (fun _ _ hi => hi) (fun _ _ hx => hx) hQ

theorem Sat.env {p : Prog Γ α} (h : Sat E I X p Q s)
    (hE : ∀ o s r s', F o s r s' → E o s r s') : Sat F I X p Q s :=
  h.mono hE (fun _ _ hi => hi) (fun _ _ hx => hx) (fun _ _ hq => hq)

theorem Sat.bind {p : Prog Γ α} {g : α → Prog Γ β} {Q : β → Γ.Store → Prop}
    (h : Sat E I X p (fun a t => Sat E I X (g a) Q t) s) : Sat E I X (p >>= g) Q s := by
  change Sat E I X (p.bind g) Q s
  induction p generalizing s with
  | ret a => exact h.2
  | raise e => exact h
  | act f k ih => exact ⟨h.1, ih _ h.2⟩
  | call o k ih => exact ⟨h.1, fun r s' hr => ih r (h.2 r s' hr)⟩
  | loop body x k _ ihk =>
    obtain ⟨J, hx, hJ⟩ := h
    refine ⟨J, hx, fun y t hy => ⟨(hJ y t hy).1, (hJ y t hy).2.weaken ?_⟩⟩
    rintro (y' | b) u hu
    · exact hu
    · exact ihk b hu

theorem Sat.andThen {p : Prog Γ α} {g : α → Prog Γ β} {Q : β → Γ.Store → Prop}
    (h : Sat E I X p R s) (hg : ∀ a t, R a t → Sat E I X (g a) Q t) :
    Sat E I X (p >>= g) Q s :=
  Sat.bind (h.weaken hg)

theorem Sat.inside {p : Prog Γ α} (h : Sat E I X p Q s) (hI : ∀ o t, I o t → I' o t) :
    Sat E I' X p Q s :=
  h.mono (fun _ _ _ _ hr => hr) hI (fun _ _ hx => hx) (fun _ _ hq => hq)

theorem Sat.top (p : Prog Γ α) (s : Γ.Store) :
    Sat E (fun _ _ => True) (fun _ _ => True) p (fun _ _ => True) s := by
  induction p generalizing s with
  | ret a => exact ⟨trivial, trivial⟩
  | raise e => exact ⟨trivial, trivial⟩
  | act f k ih => exact ⟨trivial, ih _ _⟩
  | call o k ih => exact ⟨trivial, fun r s' _ => ih r s'⟩
  | loop body x k ihb ihk =>
    refine ⟨fun _ _ => True, trivial, fun y t _ => ⟨trivial, (ihb y t).weaken ?_⟩⟩
    intro r u _
    cases r with
    | inl z => trivial
    | inr b => exact ihk b u

theorem Sat.ends {p : Prog Γ α} (h : Sat E I X p Q s) :
    Sat E I (fun e t => I none t ∧ X e t) p (fun a t => I none t ∧ Q a t) s := by
  induction p generalizing s with
  | ret a => exact ⟨h.1, h⟩
  | raise e => exact ⟨h.1, h⟩
  | act f k ih => exact ⟨h.1, ih _ h.2⟩
  | call o k ih => exact ⟨h.1, fun r s' hr => ih r (h.2 r s' hr)⟩
  | loop body x k ihb ihk =>
    obtain ⟨J, hx, hJ⟩ := h
    refine ⟨J, hx, fun y t hy => ⟨(hJ y t hy).1, (ihb y (hJ y t hy).2).weaken ?_⟩⟩
    intro r u hu
    cases r with
    | inl z => exact hu.2
    | inr b => exact ihk b hu.2

theorem Sat.throws {p : Prog Γ α} (h : Sat E I X p Q s) (hX : ∀ e t, X e t → X' e t) :
    Sat E I X' p Q s :=
  h.mono (fun _ _ _ _ hr => hr) (fun _ _ hi => hi) hX (fun _ _ hq => hq)

theorem Sat.seq {p : Prog Γ α} {g : α → Prog Γ β} {Q : β → Γ.Store → Prop}
    (h : Sat E I X p R s) (hI : ∀ o t, I o t → I' o t)
    (hg : ∀ a t, R a t → Sat E I' X (g a) Q t) : Sat E I' X (p >>= g) Q s :=
  Sat.andThen (h.inside hI) hg

@[simp] theorem sat_pure {a : α} : Sat E I X (pure a) Q s ↔ I none s ∧ Q a s := Iff.rfl

@[simp] theorem sat_raise {e : Γ.Exc} : Sat E I X (.raise e) Q s ↔ I none s ∧ X e s := Iff.rfl

@[simp] theorem sat_raise_bind {e : Γ.Exc} {g : β → Prog Γ α} :
    Sat E I X (.raise e >>= g) Q s ↔ I none s ∧ X e s := Iff.rfl

@[simp] theorem sat_get_bind {g : Γ.Store → Prog Γ α} :
    Sat E I X (Prog.get >>= g) Q s ↔ I none s ∧ Sat E I X (g s) Q s := Iff.rfl

@[simp] theorem sat_modify_bind {f : Γ.Store → Γ.Store} {g : Unit → Prog Γ α} :
    Sat E I X (Prog.modify f >>= g) Q s ↔ I none s ∧ Sat E I X (g ()) Q (f s) := Iff.rfl

@[simp] theorem sat_modify {f : Γ.Store → Γ.Store} {Q : Unit → Γ.Store → Prop} :
    Sat E I X (Prog.modify f) Q s ↔ I none s ∧ I none (f s) ∧ Q () (f s) := Iff.rfl

@[simp] theorem sat_ask_bind {o : Γ.Op} {g : Γ.Reply o → Prog Γ α} :
    Sat E I X (Prog.ask o >>= g) Q s ↔
      I (some o) s ∧ ∀ r s', E o s r s' → Sat E I X (g r) Q s' := Iff.rfl

@[simp] theorem sat_ask {o : Γ.Op} {Q : Γ.Reply o → Γ.Store → Prop} :
    Sat E I X (Prog.ask o) Q s ↔
      I (some o) s ∧ ∀ r s', E o s r s' → I none s' ∧ Q r s' := Iff.rfl

theorem Sat.when {c : Prop} [Decidable c] {p : Prog Γ Unit} {Q : Unit → Γ.Store → Prop}
    (hp : c → Sat E I X p Q s) (hskip : ¬ c → I none s ∧ Q () s) :
    Sat E I X (Prog.when c p) Q s := by
  by_cases hc : c
  · rw [Prog.when, if_pos hc]
    exact hp hc
  · rw [Prog.when, if_neg hc]
    exact hskip hc

theorem Sat.round {body : σ → Prog Γ (σ ⊕ β)} {x : σ} {Q : β → Γ.Store → Prop}
    (J : σ → Γ.Store → Prop) (hx : J x s)
    (hJ : ∀ y t, J y t → I none t ∧ Sat E I X (body y)
      (fun r u => r.elim (fun y' => J y' u) (fun b => I none u ∧ Q b u)) t) :
    Sat E I X (Prog.repeatUntil body x) Q s := ⟨J, hx, hJ⟩

theorem Sat.attempt {Y : Γ.Exc → Γ.Store → Prop} {p : Prog Γ α} (h : Sat E I X p Q s) :
    Sat E I Y p.attempt (fun r t => I none t ∧
      match r with
      | .ok a => Q a t
      | .error e => X e t) s := by
  induction p generalizing s with
  | ret a => exact ⟨h.1, h⟩
  | raise e => exact ⟨h.1, h⟩
  | act f k ih => exact ⟨h.1, ih _ h.2⟩
  | call o k ih => exact ⟨h.1, fun r s' hr => ih r (h.2 r s' hr)⟩
  | loop body x k ihb ihk =>
    obtain ⟨J, hx, hJ⟩ := h
    rw [Prog.attempt]
    refine ⟨J, hx, fun y t hy => ⟨(hJ y t hy).1, Sat.andThen (ihb y (hJ y t hy).2) ?_⟩⟩
    intro r u hu
    obtain ⟨hI, hu⟩ := hu
    cases r with
    | error e => exact ⟨hI, hI, hI, hu⟩
    | ok r =>
      cases r with
      | inl z => exact ⟨hI, hu⟩
      | inr b => exact ⟨hI, ihk b hu⟩

theorem Sat.and {p : Prog Γ α} (h : Sat E I X p Q s) (h' : Sat E I' X' p R s) :
    Sat E (fun o t => I o t ∧ I' o t) (fun e t => X e t ∧ X' e t) p (fun a t => Q a t ∧ R a t) s := by
  induction p generalizing s with
  | ret a => exact ⟨⟨h.1, h'.1⟩, h.2, h'.2⟩
  | raise e => exact ⟨⟨h.1, h'.1⟩, h.2, h'.2⟩
  | act f k ih => exact ⟨⟨h.1, h'.1⟩, ih _ h.2 h'.2⟩
  | call o k ih => exact ⟨⟨h.1, h'.1⟩, fun r s' hr => ih r (h.2 r s' hr) (h'.2 r s' hr)⟩
  | loop body x k ihb ihk =>
    obtain ⟨J, hx, hJ⟩ := h
    obtain ⟨J', hx', hJ'⟩ := h'
    refine ⟨fun y t => J y t ∧ J' y t, ⟨hx, hx'⟩, fun y t hy => ?_⟩
    obtain ⟨hI, hbody⟩ := hJ y t hy.1
    obtain ⟨hI', hbody'⟩ := hJ' y t hy.2
    refine ⟨⟨hI, hI'⟩, (ihb y hbody hbody').weaken fun r u hu => ?_⟩
    cases r with
    | inl z => exact hu
    | inr b => exact ihk b hu.1 hu.2

theorem Sat.again {body : σ → Prog Γ (σ ⊕ β)} {x : σ} {k : β → Prog Γ α}
    (h : Sat E I X (.loop body x k) Q s) :
    Sat E I X ((body x).bind (Prog.again body k)) Q s := by
  obtain ⟨J, hx, hJ⟩ := h
  refine Sat.bind ((hJ x s hx).2.weaken ?_)
  rintro (y | b) u hu
  · exact ⟨J, hu, hJ⟩
  · exact hu

theorem Sat.step {p q : Prog Γ α} (h : Sat E I X p Q s) (hs : Step E (p, s) (q, t)) :
    Sat E I X q Q t := by
  cases hs with
  | act f k => exact h.2
  | call hr => exact h.2 _ _ hr
  | loop body x k => exact h.again

theorem Sat.reaches {p q : Prog Γ α} (h : Sat E I X p Q s) (hr : Reaches E (p, s) (q, t)) :
    Sat E I X q Q t := by
  generalize hd : (q, t) = d at hr
  induction hr generalizing q t with
  | refl =>
    cases hd
    exact h
  | @tail b c _ hs ih =>
    subst hd
    exact (ih rfl).step hs

theorem Sat.reaching {c : Config Γ β} {p : Prog Γ α} {g : α → Prog Γ β} (h : Sat E I X p Q s)
    (hr : Reaches E c (p.bind g, s)) :
    Sat E I X p (fun a t => Q a t ∧ Reaches E c (g a, t)) s := by
  induction p generalizing s with
  | ret a => exact ⟨h.1, h.2, hr⟩
  | raise e => exact h
  | act f k ih => exact ⟨h.1, ih _ h.2 (hr.tail (.act _ _ _))⟩
  | call o k ih => exact ⟨h.1, fun r s' hs => ih r (h.2 r s' hs) (hr.tail (.call hs))⟩
  | loop body x k ihb ihk =>
    obtain ⟨J, hx, hJ⟩ := h
    refine ⟨fun y t => J y t ∧ Reaches E c ((Prog.loop body y k).bind g, t), ⟨hx, hr⟩, ?_⟩
    intro y t hy
    refine ⟨(hJ y t hy.1).1, (ihb y (hJ y t hy.1).2 (hy.2.tail (.loop _ _ _ _))).weaken ?_⟩
    intro r u hu
    cases r with
    | inl z => exact hu
    | inr b => exact ihk b hu.1 hu.2

theorem Sat.reached {p : Prog Γ α} (h : Sat E I X p Q s) :
    Sat E I X p (fun a t => Q a t ∧ Reaches E (p, s) (.ret a, t)) s := by
  have hself : Reaches E (p, s) (p.bind .ret, s) := by
    rw [Prog.bind_ret]
  exact h.reaching hself

theorem Sat.returned {p : Prog Γ α} {a : α} (h : Sat E I X p Q s)
    (hr : Reaches E (p, s) (.ret a, t)) : Q a t := (h.reaches hr).2

theorem Sat.raised {p : Prog Γ α} {e : Γ.Exc} (h : Sat E I X p Q s)
    (hr : Reaches E (p, s) (.raise e, t)) : X e t := (h.reaches hr).2

theorem Sat.visited {p q : Prog Γ α} (h : Sat E I X p Q s)
    (hr : Reaches E (p, s) (q, t)) : I q.head t := (h.reaches hr).here

end rules

section keeps
variable {E : Env Γ} {P : Γ.Store → Prop} {s t : Γ.Store}

def Prog.Keeps (E : Env Γ) (P : Γ.Store → Prop) {α : Type} : Prog Γ α → Prop
  | .ret _ => True
  | .raise _ => True
  | .act f k => (∀ s, P s → P (f s).2) ∧ ∀ b, (k b).Keeps E P
  | .call o k => (∀ s r s', P s → E o s r s' → P s') ∧ ∀ r, (k r).Keeps E P
  | .loop body _ k => (∀ y, (body y).Keeps E P) ∧ ∀ b, (k b).Keeps E P

namespace Prog.Keeps

theorem bind {p : Prog Γ α} {g : α → Prog Γ β} (hp : p.Keeps E P) (hg : ∀ a, (g a).Keeps E P) :
    (p >>= g).Keeps E P := by
  change (p.bind g).Keeps E P
  induction p with
  | ret a => exact hg a
  | raise e => trivial
  | act f k ih => exact ⟨hp.1, fun b => ih b (hp.2 b) hg⟩
  | call o k ih => exact ⟨hp.1, fun r => ih r (hp.2 r) hg⟩
  | loop body x k _ ih => exact ⟨hp.1, fun b => ih b (hp.2 b) hg⟩

theorem pure (a : α) : (Pure.pure a : Prog Γ α).Keeps E P := trivial

theorem raise (e : Γ.Exc) : (Prog.raise e : Prog Γ α).Keeps E P := trivial

theorem get_bind {g : Γ.Store → Prog Γ α} (hg : ∀ s, (g s).Keeps E P) :
    (Prog.get >>= g).Keeps E P := ⟨fun _ hs => hs, hg⟩

theorem ask {o : Γ.Op} (ho : ∀ s r s', P s → E o s r s' → P s') :
    (Prog.ask o : Prog Γ (Γ.Reply o)).Keeps E P := ⟨ho, fun _ => trivial⟩

theorem repeatUntil {body : σ → Prog Γ (σ ⊕ β)} {x : σ} (h : ∀ y, (body y).Keeps E P) :
    (Prog.repeatUntil body x).Keeps E P := ⟨h, fun _ => trivial⟩

theorem ite {c : Prop} [Decidable c] {p q : Prog Γ α} (hp : p.Keeps E P) (hq : q.Keeps E P) :
    (if c then p else q).Keeps E P := by
  split
  · exact hp
  · exact hq

theorem attempt {p : Prog Γ α} (hp : p.Keeps E P) : p.attempt.Keeps E P := by
  induction p with
  | ret a => trivial
  | raise e => trivial
  | act f k ih => exact ⟨hp.1, fun b => ih b (hp.2 b)⟩
  | call o k ih => exact ⟨hp.1, fun r => ih r (hp.2 r)⟩
  | loop body x k ihb ihk =>
    rw [Prog.attempt_loop]
    refine ⟨fun y => Keeps.bind (ihb y (hp.1 y)) fun r => ?_, fun r => ?_⟩
    · cases r with
      | error e => trivial
      | ok r => cases r <;> trivial
    · cases r with
      | error e => trivial
      | ok b => exact ihk b (hp.2 b)

theorem step {p q : Prog Γ α} (hp : p.Keeps E P) (h : Step E (p, s) (q, t)) : q.Keeps E P := by
  cases h with
  | act f k => exact hp.2 _
  | call hr => exact hp.2 _
  | loop body x k =>
    refine Keeps.bind (hp.1 x) fun r => ?_
    cases r with
    | inl y => exact ⟨hp.1, hp.2⟩
    | inr b => exact hp.2 b

theorem after {p q : Prog Γ α} (hp : p.Keeps E P) (h : Reaches E (p, s) (q, t)) : q.Keeps E P := by
  generalize hd : (q, t) = d at h
  induction h generalizing q t with
  | refl =>
    cases hd
    exact hp
  | @tail c d _ hstep ih =>
    subst hd
    exact (ih rfl).step hstep

theorem sat {p : Prog Γ α} (hp : p.Keeps E P) (hs : P s) :
    Sat E (fun _ => P) (fun _ => P) p (fun _ => P) s := by
  induction p generalizing s with
  | ret a => exact ⟨hs, hs⟩
  | raise e => exact ⟨hs, hs⟩
  | act f k ih => exact ⟨hs, ih _ (hp.2 _) (hp.1 _ hs)⟩
  | call o k ih => exact ⟨hs, fun r s' hr => ih r (hp.2 r) (hp.1 _ _ _ hs hr)⟩
  | loop body x k ihb ihk =>
    refine ⟨fun _ => P, hs, fun y t ht => ⟨ht, (ihb y (hp.1 y) ht).weaken ?_⟩⟩
    intro r u hu
    cases r with
    | inl z => exact hu
    | inr b => exact ihk b (hp.2 b) hu

theorem reaches {p q : Prog Γ α} (hp : p.Keeps E P) (hs : P s) (h : Reaches E (p, s) (q, t)) :
    P t := (hp.sat hs).visited h

end Prog.Keeps

end keeps

/-- The program has returned or raised. -/
def Prog.Done : Prog Γ α → Prop
  | .ret _ => True
  | .raise _ => True
  | _ => False

/-- The stores left behind by a sequence of programs of `ops`, each stopped at
a point of its run that `stop` admits before the next one starts. -/
inductive Session (E : Env Γ) (ops : Prog Γ α → Prop) (stop : Prog Γ α → Prop)
    (init : Γ.Store → Prop) : Γ.Store → Prop where
  | start {s : Γ.Store} : init s → Session E ops stop init s
  | next {s t : Γ.Store} {p q : Prog Γ α} : Session E ops stop init s → ops p →
      Reaches E (p, s) (q, t) → stop q → Session E ops stop init t

namespace Session
variable {E : Env Γ} {ops stop : Prog Γ α → Prop} {init Inv : Γ.Store → Prop}
  {I : Option Γ.Op → Γ.Store → Prop} {s t : Γ.Store}

theorem inv (h : Session E ops Prog.Done init s) (hinit : ∀ s, init s → Inv s)
    (hops : ∀ p, ops p → ∀ s, Inv s → Sat E I (fun _ => Inv) p (fun _ => Inv) s) : Inv s := by
  induction h with
  | start hs => exact hinit _ hs
  | @next s t p q _ hp hr hq ih =>
    have hsat := (hops p hp s ih).reaches hr
    cases q with
    | ret a => exact hsat.2
    | raise e => exact hsat.2
    | act f k => exact hq.elim
    | call o k => exact hq.elim
    | loop body x k => exact hq.elim

theorem crash_inv (h : Session E ops stop init s) (hinit : ∀ s, init s → Inv s)
    (hops : ∀ p, ops p → ∀ s, Inv s →
      ∃ Q, Sat E (fun _ => Inv) (fun _ _ => True) p Q s) : Inv s := by
  induction h with
  | start hs => exact hinit _ hs
  | @next s t p q _ hp hr _ ih =>
    obtain ⟨Q, hsat⟩ := hops p hp s ih
    exact hsat.visited hr

end Session

end Interact
