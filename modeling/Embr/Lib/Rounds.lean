import Embr.Lib.Logic

/-!
# Rounds of a loop

`Rounds` are the heads of a loop that a run passes, each with the variables of the
loop there. An invariant of a loop may speak of the rounds that led to it, and a
run of a loop is built round by round.
-/

namespace Interact

variable {Γ : Iface} {α β σ : Type} {E : Env Γ} {body : σ → Prog Γ (σ ⊕ β)} {x y z : σ}
  {s t u : Γ.Store} {I : Option Γ.Op → Γ.Store → Prop} {X : Γ.Exc → Γ.Store → Prop}
  {J : σ → Γ.Store → Prop} {Q : β → Γ.Store → Prop}

theorem Reaches.andThen {p : Prog Γ α} {a : α} (h : Reaches E (p, s) (.ret a, t))
    (g : α → Prog Γ β) : Reaches E (p.bind g, s) (g a, t) := h.bind g

inductive Rounds (E : Env Γ) (body : σ → Prog Γ (σ ⊕ β)) (x : σ) (s : Γ.Store) :
    σ → Γ.Store → Prop
  | enter : Rounds E body x s x s
  | next {y z : σ} {t u : Γ.Store} : Rounds E body x s y t →
      Reaches E (body y, t) (.ret (.inl z), u) → Rounds E body x s z u

namespace Rounds

theorem before (h : Rounds E body y t z u) (hround : Reaches E (body x, s) (.ret (.inl y), t)) :
    Rounds E body x s z u := by
  induction h with
  | enter => exact .next .enter hround
  | next _ hlast ih => exact ih.next hlast

theorem reaches (h : Rounds E body x s y t) (k : β → Prog Γ α) :
    Reaches E (.loop body x k, s) (.loop body y k, t) := by
  induction h with
  | enter => exact .refl
  | @next y z t u _ hround ih =>
    have henter : Reaches E (.loop body y k, t) ((body y).bind (Prog.again body k), t) :=
      .single (.loop body y k t)
    exact ih.trans (henter.trans (hround.andThen (Prog.again body k)))

theorem enters (h : Rounds E body x s y t) (k : β → Prog Γ α) :
    Reaches E (.loop body x k, s) ((body y).bind (Prog.again body k), t) :=
  (h.reaches k).tail (.loop body y k t)

theorem inv (h : Rounds E body x s y t) (hx : J x s)
    (hJ : ∀ y t z u, Rounds E body x s y t → J y t → Reaches E (body y, t) (.ret (.inl z), u) →
      J z u) : J y t := by
  induction h with
  | enter => exact hx
  | next hrounds hround ih => exact hJ _ _ _ _ hrounds ih hround

end Rounds

theorem Sat.rounds (J : σ → Γ.Store → Prop) (hx : J x s)
    (hJ : ∀ y t, Rounds E body x s y t → J y t → I none t ∧ Sat E I X (body y)
      (fun r u => r.elim (fun z => J z u) fun b => I none u ∧ Q b u) t) :
    Sat E I X (Prog.repeatUntil body x) Q s := by
  apply Sat.round fun y t => Rounds E body x s y t ∧ J y t
  · exact ⟨.enter, hx⟩
  intro y t hy
  obtain ⟨hrounds, hy⟩ := hy
  obtain ⟨hI, hbody⟩ := hJ y t hrounds hy
  refine ⟨hI, hbody.reached.weaken fun r u hu => ?_⟩
  cases r with
  | inl z => exact ⟨hrounds.next hu.2, hu.1⟩
  | inr b => exact hu.1

def Leads (E : Env Γ) (body : σ → Prog Γ (σ ⊕ β)) (x : σ) (J : σ → Γ.Store → Prop) (s : Γ.Store) :
    Prop := ∃ y t, Rounds E body x s y t ∧ J y t

namespace Leads

theorem here (h : J x s) : Leads E body x J s := ⟨x, s, .enter, h⟩

theorem round (h : Returns E (body x)
    (fun r t => r.elim (fun y => Leads E body y J t) fun _ => False) s) : Leads E body x J s := by
  obtain ⟨r, t, hround, h⟩ := h
  cases r with
  | inl y =>
    obtain ⟨z, u, hrounds, hz⟩ := h
    exact ⟨z, u, hrounds.before hround, hz⟩
  | inr b => exact h.elim

theorem returns (h : Leads E body x (fun y t => Returns E (Prog.repeatUntil body y) Q t) s) :
    Returns E (Prog.repeatUntil body x) Q s := by
  obtain ⟨y, t, hrounds, h⟩ := h
  exact .of_reaches (hrounds.reaches .ret) h

end Leads

end Interact
