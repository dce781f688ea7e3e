import Embr.Lib.Embed

/-!
# What a reply obliges to

Some replies must be acted upon before anything else is done. `Obeys due` says of
a program that the update a reply asks for follows it at once, and that every
other update is one of the program's own.
-/

namespace Interact

variable {Γ Δ : Iface} {α β σ D : Type}

/-- Which replies bring a duty, what it does to the store, and what a program may
do to its store unasked. -/
structure Duties (Γ : Iface) (D : Type) where
  due : (o : Γ.Op) → Γ.Reply o → Option D
  act : D → Γ.Store → Γ.Store
  own : Γ.Store → Γ.Store → Prop
  own_refl : ∀ s, own s s

def Duties.Meets (d : Duties Γ D) : Option D → Γ.Store → Γ.Store → Prop
  | none, s, t => d.own s t
  | some x, s, t => t = d.act x s

def Prog.Obeys (d : Duties Γ D) {α : Type} : Prog Γ α → Option D → Prop
  | .ret _, x => x = none
  | .raise _, x => x = none
  | .act f k, x => (∀ s, d.Meets x s (f s).2) ∧ ∀ b, (k b).Obeys d none
  | .call o k, x => x = none ∧ ∀ r, (k r).Obeys d (d.due o r)
  | .loop body _ k, x => x = none ∧ (∀ y, (body y).Obeys d none) ∧ ∀ b, (k b).Obeys d none

namespace Prog.Obeys
variable {d : Duties Γ D} {x : Option D} {p : Prog Γ α}

theorem pure (a : α) : (Pure.pure a : Prog Γ α).Obeys d none := rfl

theorem raise (e : Γ.Exc) : (Prog.raise e : Prog Γ α).Obeys d none := rfl

theorem bind {g : α → Prog Γ β} (hp : p.Obeys d x) (hg : ∀ a, (g a).Obeys d none) :
    (p >>= g).Obeys d x := by
  change (p.bind g).Obeys d x
  induction p generalizing x with
  | ret a =>
    cases hp
    exact hg a
  | raise e => exact hp
  | act f k ih => exact ⟨hp.1, fun b => ih b (hp.2 b) hg⟩
  | call o k ih => exact ⟨hp.1, fun r => ih r (hp.2 r) hg⟩
  | loop body y k _ ih => exact ⟨hp.1, hp.2.1, fun b => ih b (hp.2.2 b) hg⟩

theorem get : (Prog.get : Prog Γ Γ.Store).Obeys d none := ⟨fun s => d.own_refl s, fun _ => rfl⟩

theorem act {f : Γ.Store → α × Γ.Store} (hf : ∀ s, d.own s (f s).2) :
    (Prog.act f .ret : Prog Γ α).Obeys d none := ⟨hf, fun _ => rfl⟩

theorem modify {f : Γ.Store → Γ.Store} (hf : ∀ s, d.own s (f s)) :
    (Prog.modify f : Prog Γ Unit).Obeys d none := ⟨hf, fun _ => rfl⟩

theorem duty (y : D) : (Prog.modify (d.act y) : Prog Γ Unit).Obeys d (some y) :=
  ⟨fun _ => rfl, fun _ => rfl⟩

theorem ask {o : Γ.Op} (ho : ∀ r, d.due o r = none) : (Prog.ask o : Prog Γ (Γ.Reply o)).Obeys d none :=
  ⟨rfl, ho⟩

theorem ask_bind {o : Γ.Op} {g : Γ.Reply o → Prog Γ α} (hg : ∀ r, (g r).Obeys d (d.due o r)) :
    (Prog.ask o >>= g).Obeys d none := ⟨rfl, hg⟩

theorem ite {c : Prop} [Decidable c] {q : Prog Γ α} (hp : p.Obeys d x) (hq : q.Obeys d x) :
    (if c then p else q).Obeys d x := by
  split
  · exact hp
  · exact hq

theorem whenever {c : Prop} [Decidable c] {p : Prog Γ Unit} (hp : p.Obeys d none) :
    (Prog.when c p).Obeys d none := ite hp rfl

theorem round {body : σ → Prog Γ (σ ⊕ β)} {y : σ} (h : ∀ y, (body y).Obeys d none) :
    (Prog.repeatUntil body y).Obeys d none := ⟨rfl, h, fun _ => rfl⟩

theorem again {body : σ → Prog Γ (σ ⊕ β)} {y : σ} {k : β → Prog Γ α}
    (h : (Prog.loop body y k).Obeys d x) : ((body y).bind (Prog.again body k)).Obeys d none := by
  refine bind (h.2.1 y) fun r => ?_
  cases r with
  | inl z => exact ⟨rfl, h.2⟩
  | inr b => exact h.2.2 b

theorem attempt (hp : p.Obeys d x) : p.attempt.Obeys d x := by
  induction p generalizing x with
  | ret a => exact hp
  | raise e => exact hp
  | act f k ih => exact ⟨hp.1, fun b => ih b (hp.2 b)⟩
  | call o k ih => exact ⟨hp.1, fun r => ih r (hp.2 r)⟩
  | loop body y k ihb ihk =>
    rw [Prog.attempt_loop]
    refine ⟨hp.1, fun z => bind (ihb z (hp.2.1 z)) fun r => ?_, fun r => ?_⟩
    · cases r with
      | error e => rfl
      | ok r => cases r <;> rfl
    · cases r with
      | error e => rfl
      | ok b => exact ihk b (hp.2.2 b)

theorem embed {d : Duties Δ D} (c : Part Γ Δ) (hown : ∀ a s, d.own s (c.put a s))
    (hdue : ∀ o r, d.due (c.op o) r = none) (p : Prog Γ α) : (p.embed c).Obeys d none := by
  induction p with
  | ret a => rfl
  | raise e => rfl
  | act f k ih => exact ⟨fun s => hown _ s, fun b => ih b⟩
  | call o k ih =>
    refine ⟨rfl, fun r => ?_⟩
    rw [hdue]
    exact ih _
  | loop body y k ihb ihk => exact ⟨rfl, fun z => ihb z, fun b => ihk b⟩

theorem step {E : Env Γ} {q : Prog Γ α} {s t : Γ.Store} (hp : p.Obeys d x)
    (h : Step E (p, s) (q, t)) :
    (d.Meets x s t ∧ q.Obeys d none ∧ ∀ F, Step F (p, s) (q, t)) ∨
      ∃ o r, x = none ∧ E o s r t ∧ q.Obeys d (d.due o r) ∧
        ∀ F : Env Γ, F o s r t → Step F (p, s) (q, t) := by
  cases h with
  | act f k => exact .inl ⟨hp.1 s, hp.2 _, fun F => .act f k s⟩
  | call hr => exact .inr ⟨_, _, hp.1, hr, hp.2 _, fun F hF => .call hF⟩
  | loop body y k =>
    obtain rfl := hp.1
    exact .inl ⟨d.own_refl s, hp.again, fun F => .loop body y k s⟩

end Prog.Obeys

end Interact
