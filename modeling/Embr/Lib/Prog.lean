import Mathlib.Logic.Basic
import Mathlib.Logic.Relation
import Mathlib.Data.Nat.Notation

/-!
# Interactive programs and their executions

A program over an interface reads and updates its own store, raises
exceptions, calls the outside world and loops. A call is answered by an
environment, which may move the store as well. `Step` is one step of a
program, `Reaches` a finite run, and an unfinished run is a run like any other.
-/

namespace Interact

/-- The store a program works on, its exceptions, and its calls with the type
of each reply. -/
structure Iface where
  Store : Type
  Exc : Type
  Op : Type
  Reply : Op → Type

inductive Prog (Γ : Iface) : Type → Type 1 where
  | ret {α : Type} (a : α) : Prog Γ α
  | raise {α : Type} (e : Γ.Exc) : Prog Γ α
  | act {α β : Type} (f : Γ.Store → β × Γ.Store) (k : β → Prog Γ α) : Prog Γ α
  | call {α : Type} (o : Γ.Op) (k : Γ.Reply o → Prog Γ α) : Prog Γ α
  | loop {α β σ : Type} (body : σ → Prog Γ (σ ⊕ β)) (x : σ) (k : β → Prog Γ α) : Prog Γ α

/-- Which replies a call may get in a store, and the store it leaves behind. -/
abbrev Env (Γ : Iface) := (o : Γ.Op) → Γ.Store → Γ.Reply o → Γ.Store → Prop

namespace Prog
variable {Γ : Iface} {α β γ σ : Type}

def bind {α β : Type} : Prog Γ α → (α → Prog Γ β) → Prog Γ β
  | .ret a, g => g a
  | .raise e, _ => .raise e
  | .act f k, g => .act f (fun b => bind (k b) g)
  | .call o k, g => .call o (fun r => bind (k r) g)
  | .loop body x k, g => .loop body x (fun b => bind (k b) g)

instance : Monad (Prog Γ) where
  pure := .ret
  bind := bind

def get : Prog Γ Γ.Store := .act (fun s => (s, s)) .ret
def modify (f : Γ.Store → Γ.Store) : Prog Γ Unit := .act (fun s => ((), f s)) .ret
def ask (o : Γ.Op) : Prog Γ (Γ.Reply o) := .call o .ret

def when (c : Prop) [Decidable c] (p : Prog Γ Unit) : Prog Γ Unit := if c then p else .ret ()

def repeatUntil (body : σ → Prog Γ (σ ⊕ β)) (x : σ) : Prog Γ β := .loop body x .ret

def settle : Except Γ.Exc (σ ⊕ β) → Prog Γ (σ ⊕ Except Γ.Exc β)
  | .ok (.inl x) => .ret (.inl x)
  | .ok (.inr b) => .ret (.inr (.ok b))
  | .error e => .ret (.inr (.error e))

def attempt {α : Type} : Prog Γ α → Prog Γ (Except Γ.Exc α)
  | .ret a => .ret (.ok a)
  | .raise e => .ret (.error e)
  | .act f k => .act f fun b => attempt (k b)
  | .call o k => .call o fun r => attempt (k r)
  | .loop body x k => .loop (fun y => (attempt (body y)).bind settle) x fun r =>
    match r with
    | .ok b => attempt (k b)
    | .error e => .ret (.error e)

def again (body : σ → Prog Γ (σ ⊕ β)) (k : β → Prog Γ α) : σ ⊕ β → Prog Γ α
  | .inl x => .loop body x k
  | .inr b => k b

theorem bind_again (body : σ → Prog Γ (σ ⊕ β)) (k : β → Prog Γ α) (g : α → Prog Γ γ) (r : σ ⊕ β) :
    (again body k r).bind g = again body (fun b => (k b).bind g) r := by
  cases r <;> rfl

theorem bind_assoc (p : Prog Γ α) (g : α → Prog Γ β) (h : β → Prog Γ γ) :
    (p.bind g).bind h = p.bind (fun a => (g a).bind h) := by
  induction p with
  | ret a => rfl
  | raise e => rfl
  | act f k ih => simp only [bind, ih]
  | call o k ih => simp only [bind, ih]
  | loop body x k _ ih => simp only [bind, ih]

def resume (g : α → Prog Γ β) : Except Γ.Exc α → Prog Γ (Except Γ.Exc β)
  | .ok a => attempt (g a)
  | .error e => .ret (.error e)

theorem attempt_bind (p : Prog Γ α) (g : α → Prog Γ β) :
    (p.bind g).attempt = p.attempt.bind (resume g) := by
  induction p with
  | ret a => rfl
  | raise e => rfl
  | act f k ih => simp only [bind, attempt, ih]
  | call o k ih => simp only [bind, attempt, ih]
  | loop body x k _ ih =>
    simp only [bind, attempt, ih]
    congr 1
    funext r
    cases r <;> rfl

theorem attempt_loop (body : σ → Prog Γ (σ ⊕ β)) (x : σ) (k : β → Prog Γ α) :
    (Prog.loop body x k).attempt =
      .loop (fun y => (attempt (body y)).bind settle) x (resume k) := by
  rw [attempt]
  congr 1

theorem attempt_again (body : σ → Prog Γ (σ ⊕ β)) (k : β → Prog Γ α) (p : Prog Γ (σ ⊕ β)) :
    p.attempt.bind (resume (again body k)) =
      (p.attempt.bind settle).bind (again (fun y => (attempt (body y)).bind settle) (resume k)) := by
  rw [bind_assoc]
  congr 1
  funext r
  cases r with
  | error e => rfl
  | ok r =>
    cases r with
    | inr b => rfl
    | inl x =>
      exact attempt_loop body x k

theorem bind_ret (p : Prog Γ α) : p.bind .ret = p := by
  induction p with
  | ret a => rfl
  | raise e => rfl
  | act f k ih => simp only [bind, ih]
  | call o k ih => simp only [bind, ih]
  | loop body x k _ ih => simp only [bind, ih]

instance : LawfulMonad (Prog Γ) :=
  LawfulMonad.mk' _ (fun p => bind_ret p) (fun _ _ => rfl) bind_assoc

end Prog

abbrev Config (Γ : Iface) (α : Type) := Prog Γ α × Γ.Store

variable {Γ : Iface} {α β γ σ : Type}

inductive Step (E : Env Γ) : Config Γ α → Config Γ α → Prop where
  | act {β : Type} (f : Γ.Store → β × Γ.Store) (k : β → Prog Γ α) (s : Γ.Store) :
      Step E (.act f k, s) (k (f s).1, (f s).2)
  | call {o : Γ.Op} {k : Γ.Reply o → Prog Γ α} {s s' : Γ.Store} {r : Γ.Reply o} :
      E o s r s' → Step E (.call o k, s) (k r, s')
  | loop {β σ : Type} (body : σ → Prog Γ (σ ⊕ β)) (x : σ) (k : β → Prog Γ α) (s : Γ.Store) :
      Step E (.loop body x k, s) ((body x).bind (Prog.again body k), s)

abbrev Reaches (E : Env Γ) : Config Γ α → Config Γ α → Prop := Relation.ReflTransGen (Step E)

def Returns (E : Env Γ) (p : Prog Γ α) (Q : α → Γ.Store → Prop) (s : Γ.Store) : Prop :=
  ∃ a t, Reaches E (p, s) (.ret a, t) ∧ Q a t

namespace Step

theorem mono {E F : Env Γ} {c d : Config Γ α} (h : ∀ o r s', E o c.2 r s' → F o c.2 r s')
    (hs : Step E c d) : Step F c d := by
  cases hs with
  | act f k s => exact .act f k s
  | call hr => exact .call (h _ _ _ hr)
  | loop body x k s => exact .loop body x k s

theorem bind {E : Env Γ} {p q : Prog Γ α} {s t : Γ.Store} (h : Step E (p, s) (q, t))
    (g : α → Prog Γ β) : Step E (p.bind g, s) (q.bind g, t) := by
  cases h with
  | act f k => exact .act f _ s
  | call hr => exact .call hr
  | loop body x k =>
    have hstep := Step.loop (E := E) body x (fun b => (k b).bind g) s
    simpa only [Prog.bind_assoc, Prog.bind_again, Prog.bind] using hstep

theorem not_ret {E : Env Γ} {a : α} {s : Γ.Store} {c : Config Γ α} : ¬ Step E (.ret a, s) c := by
  intro h
  cases h

theorem not_raise {E : Env Γ} {e : Γ.Exc} {s : Γ.Store} {c : Config Γ α} :
    ¬ Step E (.raise e, s) c := by
  intro h
  cases h

theorem of_bind {E : Env Γ} {p : Prog Γ α} {g : α → Prog Γ β} {q : Prog Γ β} {s t : Γ.Store}
    (h : Step E (p.bind g, s) (q, t)) :
    (∃ a, p = .ret a) ∨ ∃ p', q = p'.bind g ∧ Step E (p, s) (p', t) := by
  cases p with
  | ret a => exact .inl ⟨a, rfl⟩
  | raise e => exact (not_raise h).elim
  | act f k =>
    cases h
    exact .inr ⟨_, rfl, .act f k s⟩
  | call o k =>
    cases h with
    | call hr => exact .inr ⟨_, rfl, .call hr⟩
  | loop body x k =>
    cases h
    refine .inr ⟨_, ?_, .loop body x k s⟩
    simp only [Prog.bind_assoc, Prog.bind_again]

end Step

namespace Reaches

theorem mono {E F : Env Γ} (h : ∀ o s r s', E o s r s' → F o s r s')
    {c d : Config Γ α} (hr : Reaches E c d) : Reaches F c d :=
  Relation.ReflTransGen.mono (fun c _ hs => hs.mono (fun o r s' => h o c.2 r s')) _ _ hr

theorem bind {E : Env Γ} {p q : Prog Γ α} {s t : Γ.Store} (h : Reaches E (p, s) (q, t))
    (g : α → Prog Γ β) : Reaches E (p.bind g, s) (q.bind g, t) := by
  generalize hc : (p, s) = c at h
  generalize hd : (q, t) = d at h
  induction h generalizing q t with
  | refl =>
    cases hc
    cases hd
    exact .refl
  | tail _ hs ih =>
    cases hd
    exact (ih rfl).tail (hs.bind g)

theorem split {E : Env Γ} {p : Prog Γ α} {g : α → Prog Γ β} {q : Prog Γ β} {s t : Γ.Store}
    (h : Reaches E (p.bind g, s) (q, t)) :
    (∃ p', q = p'.bind g ∧ Reaches E (p, s) (p', t)) ∨
      ∃ a u, Reaches E (p, s) (.ret a, u) ∧ Reaches E (g a, u) (q, t) := by
  generalize hd : (q, t) = d at h
  induction h generalizing q t with
  | refl =>
    cases hd
    exact .inl ⟨p, rfl, .refl⟩
  | @tail c _ _ hs ih =>
    subst hd
    obtain ⟨r, u⟩ := c
    rcases ih rfl with ⟨p', rfl, hp⟩ | ⟨a, v, ha, hg⟩
    · rcases hs.of_bind with ⟨a, rfl⟩ | ⟨p'', rfl, hstep⟩
      · exact .inr ⟨a, u, hp, .single hs⟩
      · exact .inl ⟨p'', rfl, hp.tail hstep⟩
    · exact .inr ⟨a, v, ha, hg.tail hs⟩

end Reaches

namespace Returns
variable {E : Env Γ}

theorem ret {a : α} {Q : α → Γ.Store → Prop} {s : Γ.Store} (h : Q a s) :
    Returns E (pure a) Q s := ⟨a, s, .refl, h⟩

theorem mono {p : Prog Γ α} {Q R : α → Γ.Store → Prop} {s : Γ.Store}
    (h : Returns E p Q s) (hQR : ∀ a t, Q a t → R a t) : Returns E p R s := by
  obtain ⟨a, t, hr, hq⟩ := h
  exact ⟨a, t, hr, hQR a t hq⟩

theorem env {F : Env Γ} {p : Prog Γ α} {Q : α → Γ.Store → Prop} {s : Γ.Store}
    (h : Returns E p Q s) (hE : ∀ o s r s', E o s r s' → F o s r s') : Returns F p Q s := by
  obtain ⟨a, t, hr, hq⟩ := h
  exact ⟨a, t, hr.mono hE, hq⟩

theorem of_reaches {p q : Prog Γ α} {Q : α → Γ.Store → Prop} {s t : Γ.Store}
    (h : Reaches E (p, s) (q, t)) (hq : Returns E q Q t) : Returns E p Q s := by
  obtain ⟨a, u, hr, ha⟩ := hq
  exact ⟨a, u, h.trans hr, ha⟩

theorem bind {p : Prog Γ α} {g : α → Prog Γ β} {Q : β → Γ.Store → Prop} {s : Γ.Store}
    (h : Returns E p (fun a t => Returns E (g a) Q t) s) : Returns E (p >>= g) Q s := by
  obtain ⟨a, t, hr, hq⟩ := h
  exact of_reaches (hr.bind g) hq

theorem get {Q : Γ.Store → Γ.Store → Prop} {s : Γ.Store} (h : Q s s) :
    Returns E Prog.get Q s :=
  ⟨s, s, .single (.act (fun s => (s, s)) .ret s), h⟩

theorem modify {f : Γ.Store → Γ.Store} {Q : Unit → Γ.Store → Prop} {s : Γ.Store}
    (h : Q () (f s)) : Returns E (Prog.modify f) Q s :=
  ⟨(), f s, .single (.act (fun s => ((), f s)) .ret s), h⟩

theorem act {f : Γ.Store → α × Γ.Store} {Q : α → Γ.Store → Prop} {s : Γ.Store}
    (h : Q (f s).1 (f s).2) : Returns E (.act f .ret) Q s :=
  ⟨(f s).1, (f s).2, .single (.act f .ret s), h⟩

theorem ask {o : Γ.Op} {Q : Γ.Reply o → Γ.Store → Prop} {s s' : Γ.Store} {r : Γ.Reply o}
    (he : E o s r s') (h : Q r s') : Returns E (Prog.ask o) Q s :=
  ⟨r, s', .single (.call he), h⟩

theorem round {body : σ → Prog Γ (σ ⊕ β)} {x : σ} {Q : β → Γ.Store → Prop} {s : Γ.Store}
    (h : Returns E (body x)
      (fun r t => r.elim (fun y => Returns E (Prog.repeatUntil body y) Q t) (fun b => Q b t)) s) :
    Returns E (Prog.repeatUntil body x) Q s := by
  refine of_reaches (.single (.loop body x .ret s)) (bind (mono h ?_))
  intro r t hr
  cases r with
  | inl y => exact hr
  | inr b => exact ret hr

end Returns

def Passes (E : Env Γ) (p : Prog Γ α) (φ : Prog Γ α → Γ.Store → Prop) (s : Γ.Store) : Prop :=
  ∃ q t, Reaches E (p, s) (q, t) ∧ φ q t

namespace Passes
variable {E : Env Γ}

theorem here {p : Prog Γ α} {φ : Prog Γ α → Γ.Store → Prop} {s : Γ.Store} (h : φ p s) :
    Passes E p φ s := ⟨p, s, .refl, h⟩

theorem after {p : Prog Γ α} {g : α → Prog Γ β} {φ : Prog Γ β → Γ.Store → Prop} {s : Γ.Store}
    (h : Returns E p (fun a t => Passes E (g a) φ t) s) : Passes E (p >>= g) φ s := by
  obtain ⟨a, t, hr, q, u, hq, hφ⟩ := h
  exact ⟨q, u, (hr.bind g).trans hq, hφ⟩

theorem inside {p : Prog Γ α} {g : α → Prog Γ β} {P : Γ.Store → Prop} {s : Γ.Store}
    (h : Passes E p (fun _ => P) s) : Passes E (p >>= g) (fun _ => P) s := by
  obtain ⟨q, t, hr, hP⟩ := h
  exact ⟨_, t, hr.bind g, hP⟩

end Passes

end Interact
