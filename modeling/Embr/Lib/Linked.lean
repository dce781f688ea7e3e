import Embr.Lib.Pair
import Embr.Lib.Observes
import Embr.Lib.Embed

/-!
# What two programs owe each other

`Covers` looks at one store at a time. A link is a property of both, such as
that one side has read no more than the other one wrote. Where no step of either
side breaks it, it holds along every joint run, and the replies of that run may
be taken to be those that are given while it holds.
-/

namespace Interact

variable {Γ Δ : Iface} {α β : Type}

def Prog.Asks (S : Γ.Op → Prop) {α : Type} : Prog Γ α → Prop
  | .ret _ => True
  | .raise _ => True
  | .act _ k => ∀ b, (k b).Asks S
  | .call o k => S o ∧ ∀ r, (k r).Asks S
  | .loop body _ k => (∀ y, (body y).Asks S) ∧ ∀ b, (k b).Asks S

namespace Prog.Asks
variable {S : Γ.Op → Prop} {σ : Type}

theorem bind {p : Prog Γ α} {g : α → Prog Γ β} (hp : p.Asks S) (hg : ∀ a, (g a).Asks S) :
    (p >>= g).Asks S := by
  change (p.bind g).Asks S
  induction p with
  | ret a => exact hg a
  | raise e => trivial
  | act f k ih => exact fun b => ih b (hp b) hg
  | call o k ih => exact ⟨hp.1, fun r => ih r (hp.2 r) hg⟩
  | loop body x k _ ih => exact ⟨hp.1, fun b => ih b (hp.2 b) hg⟩

theorem pure (a : α) : (Pure.pure a : Prog Γ α).Asks S := trivial

theorem raise (e : Γ.Exc) : (Prog.raise e : Prog Γ α).Asks S := trivial

theorem get : (Prog.get : Prog Γ Γ.Store).Asks S := fun _ => trivial

theorem ask {o : Γ.Op} (ho : S o) : (Prog.ask o : Prog Γ (Γ.Reply o)).Asks S :=
  ⟨ho, fun _ => trivial⟩

theorem repeatUntil {body : σ → Prog Γ (σ ⊕ β)} {x : σ} (h : ∀ y, (body y).Asks S) :
    (Prog.repeatUntil body x).Asks S := ⟨h, fun _ => trivial⟩

theorem ite {c : Prop} [Decidable c] {p q : Prog Γ α} (hp : p.Asks S) (hq : q.Asks S) :
    (if c then p else q).Asks S := by
  split
  · exact hp
  · exact hq

end Prog.Asks

section keeps
variable {E : Env Γ} {P : Γ.Store → Prop}

theorem Prog.Keeps.whenever {c : Prop} [Decidable c] {p : Prog Γ Unit} (hp : p.Keeps E P) :
    (Prog.when c p).Keeps E P := .ite hp trivial

theorem Prog.Keeps.modify {f : Γ.Store → Γ.Store} (hf : ∀ s, P s → P (f s)) :
    (Prog.modify f : Prog Γ Unit).Keeps E P := ⟨hf, fun _ => trivial⟩

theorem Prog.Keeps.stepped {E' : Env Γ} {p q : Prog Γ α} {s t : Γ.Store} (hp : p.Keeps E P)
    (h : Step E' (p, s) (q, t)) : q.Keeps E P := by
  cases h with
  | act f k => exact hp.2 _
  | call hr => exact hp.2 _
  | loop body x k =>
    refine Prog.Keeps.bind (hp.1 x) fun r => ?_
    cases r with
    | inl y => exact ⟨hp.1, hp.2⟩
    | inr b => exact hp.2 b

theorem Prog.Observes.embed {F : Env Δ} {P : Δ.Store → Prop} {S : Γ.Op → Prop} (c : Part Γ Δ)
    {p : Prog Γ α} (hp : p.Observes) (hasks : p.Asks S)
    (hF : ∀ o, S o → ∀ s r t, P s → F (c.op o) s r t → P t) : (p.embed c).Keeps F P := by
  induction p with
  | ret a => trivial
  | raise e => trivial
  | act f k ih =>
    refine ⟨fun s hs => ?_, fun b => ih b (hp.2 b) (hasks b)⟩
    dsimp only
    rwa [hp.1, c.put_get]
  | call o k ih => exact ⟨hF o hasks.1, fun r => ih _ (hp _) (hasks.2 _)⟩
  | loop body x k ihb ihk =>
    exact ⟨fun y => ihb y (hp.1 y) (hasks.1 y), fun b => ihk b (hp.2 b) (hasks.2 b)⟩

end keeps

section link
variable {E : Δ.Store → Env Γ} {F : Γ.Store → Env Δ} {W : Γ.Store → Δ.Store → Prop}
  {c d : PairConfig Γ Δ α β}

def linked (W : Γ.Store → Δ.Store → Prop) (E : Δ.Store → Env Γ) : Δ.Store → Env Γ :=
  fun t o s r s' => W s t ∧ E t o s r s'

structure Tied (E : Δ.Store → Env Γ) (F : Γ.Store → Env Δ) (W : Γ.Store → Δ.Store → Prop)
    (c : PairConfig Γ Δ α β) : Prop where
  left : ∀ t, c.1.1.Keeps (E t) fun s => W s t
  right : ∀ s, c.2.1.Keeps (F s) fun t => W s t
  here : W c.1.2 c.2.2

theorem PairReaches.mono {E' : Δ.Store → Env Γ} {F' : Γ.Store → Env Δ}
    (hE : ∀ t o s r s', E t o s r s' → E' t o s r s')
    (hF : ∀ s o t r t', F s o t r t' → F' s o t r t') (h : PairReaches E F c d) :
    PairReaches E' F' c d := by
  induction h with
  | refl => exact .refl
  | tail _ hs ih =>
    cases hs with
    | left hs => exact ih.tail (.left (hs.mono fun o r s' => hE _ o _ r s'))
    | right hs => exact ih.tail (.right (hs.mono fun o r t' => hF _ o _ r t'))

theorem Tied.step (h : Tied E F W c) (hs : PairStep E F c d) :
    Tied E F W d ∧ PairStep (linked W E) (linked (fun t s => W s t) F) c d := by
  cases hs with
  | left hs =>
    refine ⟨⟨fun t => ?_, h.right, (h.left _).reaches h.here (.single hs)⟩, ?_⟩
    · exact (h.left t).stepped hs
    · exact .left (hs.mono fun q r s' hr => ⟨h.here, hr⟩)
  | right hs =>
    refine ⟨⟨h.left, fun s => ?_, (h.right _).reaches h.here (.single hs)⟩, ?_⟩
    · exact (h.right s).stepped hs
    · exact .right (hs.mono fun q r t' hr => ⟨h.here, hr⟩)

theorem Tied.reaches (h : Tied E F W c) (hr : PairReaches E F c d) :
    Tied E F W d ∧ PairReaches (linked W E) (linked (fun t s => W s t) F) c d := by
  induction hr with
  | refl => exact ⟨h, .refl⟩
  | tail _ hs ih =>
    obtain ⟨hthere, hrun⟩ := ih
    obtain ⟨hnext, hstep⟩ := hthere.step hs
    exact ⟨hnext, hrun.tail hstep⟩

end link

end Interact
