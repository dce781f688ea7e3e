import Embr.Lib.Prog

/-!
# Programs that only look at their store

The store of such a program changes through its calls alone.
-/

namespace Interact

variable {Γ : Iface} {α β σ : Type}

def Prog.Observes {α : Type} : Prog Γ α → Prop
  | .ret _ => True
  | .raise _ => True
  | .act f k => (∀ s, (f s).2 = s) ∧ ∀ b, (k b).Observes
  | .call _ k => ∀ r, (k r).Observes
  | .loop body _ k => (∀ y, (body y).Observes) ∧ ∀ b, (k b).Observes

namespace Prog.Observes

theorem bind {p : Prog Γ α} {g : α → Prog Γ β} (hp : p.Observes) (hg : ∀ a, (g a).Observes) :
    (p >>= g).Observes := by
  change (p.bind g).Observes
  induction p with
  | ret a => exact hg a
  | raise e => trivial
  | act f k ih => exact ⟨hp.1, fun b => ih b (hp.2 b) hg⟩
  | call o k ih => exact fun r => ih r (hp r) hg
  | loop body x k _ ih => exact ⟨hp.1, fun b => ih b (hp.2 b) hg⟩

theorem pure (a : α) : (Pure.pure a : Prog Γ α).Observes := trivial

theorem raise (e : Γ.Exc) : (Prog.raise e : Prog Γ α).Observes := trivial

theorem get : (Prog.get : Prog Γ Γ.Store).Observes := ⟨fun _ => rfl, fun _ => trivial⟩

theorem ask (o : Γ.Op) : (Prog.ask o : Prog Γ (Γ.Reply o)).Observes := fun _ => trivial

theorem repeatUntil {body : σ → Prog Γ (σ ⊕ β)} {x : σ} (h : ∀ y, (body y).Observes) :
    (Prog.repeatUntil body x).Observes := ⟨h, fun _ => trivial⟩

theorem ite {c : Prop} [Decidable c] {p q : Prog Γ α} (hp : p.Observes) (hq : q.Observes) :
    (if c then p else q).Observes := by
  split
  · exact hp
  · exact hq

theorem step {E : Env Γ} {p q : Prog Γ α} {s t : Γ.Store} (hp : p.Observes)
    (h : Step E (p, s) (q, t)) : q.Observes ∧ (t = s ∨ ∃ o r, E o s r t) := by
  cases h with
  | act f k => exact ⟨hp.2 _, .inl (hp.1 s)⟩
  | call hr => exact ⟨hp _, .inr ⟨_, _, hr⟩⟩
  | loop body x k =>
    refine ⟨bind (hp.1 x) ?_, .inl rfl⟩
    intro r
    cases r with
    | inl y => exact ⟨hp.1, hp.2⟩
    | inr b => exact hp.2 b

end Prog.Observes

end Interact
