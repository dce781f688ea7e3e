import Embr.Lib.Logic
import Mathlib.Data.List.Basic

/-!
# Traces, and replies a program does not heed

A trace lists the replies of a run, each with the store it left. An `Elision`
says that a reply and what comes after it may be cut to another reply; a program
that `Ignores` it goes on in the same way after both, so the cut can be made in
each of its traces without changing how they end.
-/

namespace Interact

variable {Γ : Iface} {α β σ : Type}

structure Label (Γ : Iface) where
  op : Γ.Op
  reply : Γ.Reply op
  after : Γ.Store

inductive Trace (E : Env Γ) {α : Type} :
    Prog Γ α → Γ.Store → List (Label Γ) → Prog Γ α → Γ.Store → Prop where
  | done {p : Prog Γ α} {s : Γ.Store} : Trace E p s [] p s
  | act {β : Type} {f : Γ.Store → β × Γ.Store} {k : β → Prog Γ α} {q : Prog Γ α} {s t : Γ.Store}
      {l : List (Label Γ)} :
      Trace E (k (f s).1) (f s).2 l q t → Trace E (.act f k) s l q t
  | loop {β σ : Type} {body : σ → Prog Γ (σ ⊕ β)} {x : σ} {k : β → Prog Γ α} {q : Prog Γ α}
      {s t : Γ.Store} {l : List (Label Γ)} :
      Trace E ((body x).bind (Prog.again body k)) s l q t → Trace E (.loop body x k) s l q t
  | call {o : Γ.Op} {k : Γ.Reply o → Prog Γ α} {q : Prog Γ α} {r : Γ.Reply o} {s t u : Γ.Store}
      {l : List (Label Γ)} :
      E o s r u → Trace E (k r) u l q t → Trace E (.call o k) s (⟨o, r, u⟩ :: l) q t

namespace Trace
variable {E F : Env Γ} {p p' q : Prog Γ α} {s s' t : Γ.Store} {l l' : List (Label Γ)}

theorem append {q' : Prog Γ α} {t' : Γ.Store} (h : Trace E p s l q t) (h' : Trace E q t l' q' t') :
    Trace E p s (l ++ l') q' t' := by
  induction h with
  | done => exact h'
  | act _ ih => exact .act (ih h')
  | loop _ ih => exact .loop (ih h')
  | call hr _ ih => exact .call hr (ih h')

theorem bind (h : Trace E p s l q t) (g : α → Prog Γ β) :
    Trace E (p.bind g) s l (q.bind g) t := by
  induction h with
  | done => exact .done
  | act _ ih => exact .act ih
  | @loop _ _ body x k _ _ _ _ _ ih =>
    rw [Prog.bind_assoc, funext (Prog.bind_again body k g)] at ih
    exact .loop ih
  | call hr _ ih => exact .call hr ih

theorem andThen {g : α → Prog Γ β} {q' : Prog Γ β} {a : α} {u : Γ.Store}
    (h : Trace E p s l (.ret a) t) (hg : Trace E (g a) t l' q' u) :
    Trace E (p >>= g) s (l ++ l') q' u :=
  (h.bind g).append hg

theorem get_bind {g : Γ.Store → Prog Γ α} (h : Trace E (g s) s l q t) :
    Trace E (Prog.get >>= g) s l q t := .act h

theorem raise_bind {g : α → Prog Γ β} {e : Γ.Exc} (h : Trace E p s l (.raise e) t) :
    Trace E (p >>= g) s l (.raise e) t := h.bind g

theorem again {body : σ → Prog Γ (σ ⊕ β)} {x y : σ} (h : Trace E (body x) s l (.ret (.inl y)) t) :
    Trace E (Prog.repeatUntil body x) s l (Prog.repeatUntil body y) t := .loop (h.bind _)

theorem round {body : σ → Prog Γ (σ ⊕ β)} {x : σ} {e : Γ.Exc}
    (h : Trace E (body x) s l (.raise e) t) :
    Trace E (Prog.repeatUntil body x) s l (.raise e) t := .loop (h.bind _)

theorem attempt (h : Trace E p s l q t) : Trace E p.attempt s l q.attempt t := by
  induction h with
  | done => exact .done
  | act _ ih => exact .act ih
  | @loop _ _ body x k _ _ _ _ _ ih =>
    rw [Prog.attempt_bind, Prog.attempt_again] at ih
    rw [Prog.attempt_loop]
    exact .loop ih
  | call hr _ ih => exact .call hr ih

theorem reaches (h : Trace E p s l q t) : Reaches E (p, s) (q, t) := by
  induction h with
  | done => exact .refl
  | @act _ f k _ s _ _ _ ih => exact .head (.act f k s) ih
  | @loop _ _ body x k _ s _ _ _ ih => exact .head (.loop body x k s) ih
  | call hr _ ih => exact .head (.call hr) ih

theorem heads (h : Trace E p s l q t) {x : Label Γ} (hx : x ∈ l) :
    ∃ q' u, Reaches E (p, s) (q', u) ∧ q'.head = some x.op := by
  induction h with
  | done => cases hx
  | act _ ih =>
    obtain ⟨q', u, hr, hhead⟩ := ih hx
    exact ⟨q', u, .head (.act _ _ _) hr, hhead⟩
  | loop _ ih =>
    obtain ⟨q', u, hr, hhead⟩ := ih hx
    exact ⟨q', u, .head (.loop _ _ _ _) hr, hhead⟩
  | call hcall _ ih =>
    rcases List.mem_cons.mp hx with rfl | hx
    · exact ⟨_, _, .refl, rfl⟩
    · obtain ⟨q', u, hr, hhead⟩ := ih hx
      exact ⟨q', u, .head (.call hcall) hr, hhead⟩

theorem of_reaches (h : Reaches E (p, s) (q, t)) : ∃ l, Trace E p s l q t := by
  generalize hc : (p, s) = c at h
  induction h using Relation.ReflTransGen.head_induction_on generalizing p s with
  | refl =>
    cases hc
    exact ⟨[], .done⟩
  | head hs _ ih =>
    subst hc
    cases hs with
    | act f k =>
      obtain ⟨l, hl⟩ := ih rfl
      exact ⟨l, .act hl⟩
    | call hr =>
      obtain ⟨l, hl⟩ := ih rfl
      exact ⟨_, .call hr hl⟩
    | loop body x k =>
      obtain ⟨l, hl⟩ := ih rfl
      exact ⟨l, .loop hl⟩

theorem into {g : α → Prog Γ β} {a : α} (h : Trace E p s l (.ret a) t) :
    Trace E (p >>= g) s l (g a) t := h.bind g

theorem rest (h : Trace F p s l p' s') (hrun : Trace E p s (l ++ l') q t) (hq : q.Done) :
    Trace E p' s' l' q t := by
  generalize hall : l ++ l' = all at hrun
  induction h generalizing all with
  | done =>
    subst hall
    exact hrun
  | act _ ih =>
    cases hrun with
    | done => exact hq.elim
    | act hrun => exact ih all hall hrun
  | loop _ ih =>
    cases hrun with
    | done => exact hq.elim
    | loop hrun => exact ih all hall hrun
  | call _ _ ih =>
    cases hrun with
    | done => exact hq.elim
    | call _ hrun =>
      obtain ⟨heq, hrest⟩ := List.cons.inj hall
      cases heq
      exact ih _ hrest hrun

end Trace

section apart
variable {E : Env Γ} {p : Prog Γ α} {g : α → Prog Γ β} {a : α} {b : β} {s t : Γ.Store}
  {l : List (Label Γ)}

theorem Trace.of_pure {a' : α} (h : Trace E (pure a) s l (.ret a') t) : l = [] ∧ a = a' ∧ s = t := by
  cases h
  exact ⟨rfl, rfl, rfl⟩

theorem Trace.of_get {g : Γ.Store → Prog Γ β} (h : Trace E (Prog.get >>= g) s l (.ret b) t) :
    Trace E (g s) s l (.ret b) t := by
  cases h with
  | act h => exact h

theorem Trace.of_modify {f : Γ.Store → Γ.Store} {g : Unit → Prog Γ β}
    (h : Trace E (Prog.modify f >>= g) s l (.ret b) t) : Trace E (g ()) (f s) l (.ret b) t := by
  cases h with
  | act h => exact h

theorem Trace.of_ask {o : Γ.Op} {g : Γ.Reply o → Prog Γ β}
    (h : Trace E (Prog.ask o >>= g) s l (.ret b) t) :
    ∃ r u l', l = ⟨o, r, u⟩ :: l' ∧ E o s r u ∧ Trace E (g r) u l' (.ret b) t := by
  cases h with
  | call hr h => exact ⟨_, _, _, rfl, hr, h⟩

theorem Trace.of_bind (h : Trace E (p >>= g) s l (.ret b) t) :
    ∃ a u l₁ l₂, l = l₁ ++ l₂ ∧ Trace E p s l₁ (.ret a) u ∧ Trace E (g a) u l₂ (.ret b) t := by
  have hall : ∀ {q : Prog Γ β} {r : Prog Γ β}, Trace E q s l r t → q = p.bind g → r = .ret b →
      ∃ a u l₁ l₂, l = l₁ ++ l₂ ∧ Trace E p s l₁ (.ret a) u ∧ Trace E (g a) u l₂ (.ret b) t := by
    clear h
    intro q r h
    induction h generalizing p with
    | done =>
      intro hq hr
      cases p with
      | ret a => exact ⟨a, _, [], [], rfl, .done, by rw [← hr, hq]; exact .done⟩
      | raise e => cases hq.symm.trans hr
      | act f k => cases hq.symm.trans hr
      | call o k => cases hq.symm.trans hr
      | loop body x k => cases hq.symm.trans hr
    | @act _ f k q s t l h ih =>
      intro hq hr
      cases p with
      | ret a =>
        subst hr
        have hg : g a = .act f k := hq.symm
        exact ⟨a, s, [], l, rfl, .done, hg ▸ .act h⟩
      | raise e => cases hq
      | act f' k' =>
        cases hq
        obtain ⟨a, u, l₁, l₂, hl, hp, hg⟩ := ih rfl hr
        exact ⟨a, u, l₁, l₂, hl, .act hp, hg⟩
      | call o k => cases hq
      | loop body x k => cases hq
    | @loop _ _ body x k q s t l h ih =>
      intro hq hr
      cases p with
      | ret a =>
        subst hr
        have hg : g a = .loop body x k := hq.symm
        exact ⟨a, s, [], l, rfl, .done, hg ▸ .loop h⟩
      | raise e => cases hq
      | act f k => cases hq
      | call o k => cases hq
      | loop body' x' k' =>
        cases hq
        obtain ⟨a, u, l₁, l₂, hl, hp, hg⟩ := @ih ((body x).bind (Prog.again body k')) (by
          rw [Prog.bind_assoc, funext (Prog.bind_again body k' g)]) hr
        exact ⟨a, u, l₁, l₂, hl, .loop hp, hg⟩
    | @call o k q r s t u l he h ih =>
      intro hq hr
      cases p with
      | ret a =>
        subst hr
        have hg : g a = .call o k := hq.symm
        exact ⟨a, s, [], _, rfl, .done, hg ▸ .call he h⟩
      | raise e => cases hq
      | act f k => cases hq
      | call o' k' =>
        cases hq
        obtain ⟨a, v, l₁, l₂, hl, hp, hg⟩ := ih rfl hr
        exact ⟨a, v, _ :: l₁, l₂, by rw [hl]; rfl, .call he hp, hg⟩
      | loop body x k => cases hq
  exact hall h rfl rfl

end apart

section returned
variable {E : Env Γ} {b : β} {s t : Γ.Store}

theorem Reaches.of_bind {p : Prog Γ α} {g : α → Prog Γ β}
    (h : Reaches E (p >>= g, s) (.ret b, t)) :
    ∃ a u, Reaches E (p, s) (.ret a, u) ∧ Reaches E (g a, u) (.ret b, t) := by
  obtain ⟨l, hl⟩ := Trace.of_reaches h
  obtain ⟨a, u, l₁, l₂, -, h₁, h₂⟩ := hl.of_bind
  exact ⟨a, u, h₁.reaches, h₂.reaches⟩

theorem Reaches.of_ask {o : Γ.Op} {g : Γ.Reply o → Prog Γ β}
    (h : Reaches E (Prog.ask o >>= g, s) (.ret b, t)) :
    ∃ r u, E o s r u ∧ Reaches E (g r, u) (.ret b, t) := by
  obtain ⟨l, hl⟩ := Trace.of_reaches h
  obtain ⟨r, u, l', -, hr, hrest⟩ := hl.of_ask
  exact ⟨r, u, hr, hrest.reaches⟩

theorem Reaches.of_pure {b' : β} (h : Reaches E ((pure b : Prog Γ β), s) (.ret b', t)) :
    b = b' ∧ s = t := by
  obtain ⟨l, hl⟩ := Trace.of_reaches h
  exact hl.of_pure.2

end returned

theorem Reaches.attempt {E : Env Γ} {p q : Prog Γ α} {s t : Γ.Store}
    (h : Reaches E (p, s) (q, t)) : Reaches E (p.attempt, s) (q.attempt, t) := by
  obtain ⟨l, hl⟩ := Trace.of_reaches h
  exact hl.attempt.reaches

/-- The run from `s` with the replies `l` ends normally, with an outcome in `Q`. -/
def Shows (E : Env Γ) (p : Prog Γ α) (l : List (Label Γ)) (Q : α → Γ.Store → Prop) (s : Γ.Store) :
    Prop := ∃ a t, Trace E p s l (.ret a) t ∧ Q a t

namespace Shows
variable {E : Env Γ} {s : Γ.Store} {l l' : List (Label Γ)}

theorem ret {a : α} {Q : α → Γ.Store → Prop} (h : Q a s) : Shows E (pure a) [] Q s :=
  ⟨a, s, .done, h⟩

theorem mono {p : Prog Γ α} {Q R : α → Γ.Store → Prop} (h : Shows E p l Q s)
    (hQR : ∀ a t, Q a t → R a t) : Shows E p l R s := by
  obtain ⟨a, t, hr, hq⟩ := h
  exact ⟨a, t, hr, hQR a t hq⟩

theorem bind {p : Prog Γ α} {g : α → Prog Γ β} {Q : β → Γ.Store → Prop}
    (h : Shows E p l (fun a t => Shows E (g a) l' Q t) s) : Shows E (p >>= g) (l ++ l') Q s := by
  obtain ⟨a, t, hr, b, u, hg, hq⟩ := h
  exact ⟨b, u, (hr.bind g).append hg, hq⟩

theorem bind_nil {p : Prog Γ α} {g : α → Prog Γ β} {Q : β → Γ.Store → Prop}
    (h : Shows E p l (fun a t => Shows E (g a) [] Q t) s) : Shows E (p >>= g) l Q s := by
  rw [← List.append_nil l]
  exact bind h

theorem get_bind {g : Γ.Store → Prog Γ α} {Q : α → Γ.Store → Prop} (h : Shows E (g s) l Q s) :
    Shows E (Prog.get >>= g) l Q s := by
  obtain ⟨a, t, hr, hq⟩ := h
  exact ⟨a, t, .act hr, hq⟩

theorem act_bind {f : Γ.Store → β × Γ.Store} {g : β → Prog Γ α} {Q : α → Γ.Store → Prop}
    (h : Shows E (g (f s).1) l Q (f s).2) : Shows E (.act f .ret >>= g) l Q s := by
  obtain ⟨a, t, hr, hq⟩ := h
  exact ⟨a, t, .act hr, hq⟩

theorem ask_bind {o : Γ.Op} {g : Γ.Reply o → Prog Γ α} {Q : α → Γ.Store → Prop} {u : Γ.Store}
    {r : Γ.Reply o} (he : E o s r u) (h : Shows E (g r) l Q u) :
    Shows E (Prog.ask o >>= g) (⟨o, r, u⟩ :: l) Q s := by
  obtain ⟨a, t, hr, hq⟩ := h
  exact ⟨a, t, .call he hr, hq⟩

theorem again {body : σ → Prog Γ (σ ⊕ β)} {x : σ} {Q : β → Γ.Store → Prop}
    (h : Shows E (body x) l
      (fun r t => ∃ y, r = .inl y ∧ Shows E (Prog.repeatUntil body y) l' Q t) s) :
    Shows E (Prog.repeatUntil body x) (l ++ l') Q s := by
  obtain ⟨_, t, hr, y, rfl, b, u, hg, hq⟩ := h
  exact ⟨b, u, .loop ((hr.bind _).append hg), hq⟩

theorem last {body : σ → Prog Γ (σ ⊕ β)} {x : σ} {Q : β → Γ.Store → Prop}
    (h : Shows E (body x) l (fun r t => ∃ b, r = .inr b ∧ Q b t) s) :
    Shows E (Prog.repeatUntil body x) l Q s := by
  obtain ⟨_, t, hr, b, rfl, hq⟩ := h
  have hdone : Trace E ((body x).bind (Prog.again body .ret)) s (l ++ []) (.ret b) t :=
    (hr.bind _).append .done
  rw [List.append_nil] at hdone
  exact ⟨b, t, .loop hdone, hq⟩

theorem attempt {p : Prog Γ α} {Q : α → Γ.Store → Prop} (h : Shows E p l Q s) :
    Shows E p.attempt l (fun r t => ∃ a, r = .ok a ∧ Q a t) s := by
  obtain ⟨a, t, hr, hq⟩ := h
  exact ⟨.ok a, t, hr.attempt, a, rfl, hq⟩

end Shows

theorem Returns.shows {E : Env Γ} {p : Prog Γ α} {Q : α → Γ.Store → Prop} {s : Γ.Store}
    (h : Returns E p Q s) : ∃ l, Shows E p l Q s := by
  obtain ⟨a, t, hr, hq⟩ := h
  obtain ⟨l, hl⟩ := Trace.of_reaches hr
  exact ⟨l, a, t, hl, hq⟩

abbrev Follows {α : Type} : Prog Γ α → Γ.Store → List (Label Γ) → Prog Γ α → Γ.Store → Prop :=
  Trace fun _ _ _ _ => True

abbrev Elision (Γ : Iface) :=
  (o : Γ.Op) → Γ.Reply o → Γ.Store → List (Label Γ) → Γ.Reply o → Γ.Store → Prop

inductive Erases (cut : Elision Γ) : List (Label Γ) → List (Label Γ) → Prop where
  | nil : Erases cut [] []
  | keep {l l' : List (Label Γ)} (a : Label Γ) : Erases cut l l' → Erases cut (a :: l) (a :: l')
  | cut {o : Γ.Op} {r r' : Γ.Reply o} {u u' : Γ.Store} {js l l' : List (Label Γ)} :
      cut o r u js r' u' → Erases cut l l' →
      Erases cut (⟨o, r, u⟩ :: (js ++ l)) (⟨o, r', u'⟩ :: l')

theorem Erases.refl (cut : Elision Γ) (l : List (Label Γ)) : Erases cut l l := by
  induction l with
  | nil => exact .nil
  | cons a l ih => exact .keep a ih

theorem Erases.mono {cut cut' : Elision Γ} {l l' : List (Label Γ)}
    (hcut : ∀ o r u js r' u', cut o r u js r' u' → cut' o r u js r' u') (h : Erases cut l l') :
    Erases cut' l l' := by
  induction h with
  | nil => exact .nil
  | keep a _ ih => exact .keep a ih
  | cut hc _ ih => exact .cut (hcut _ _ _ _ _ _ hc) ih

theorem Erases.mem {cut : Elision Γ} {l l' : List (Label Γ)} {x : Label Γ} (h : Erases cut l l')
    (hx : x ∈ l') : x ∈ l ∨ ∃ o r u js r' u', cut o r u js r' u' ∧ x = ⟨o, r', u'⟩ := by
  induction h with
  | nil => cases hx
  | keep a _ ih =>
    rcases List.mem_cons.mp hx with rfl | hx
    · exact .inl List.mem_cons_self
    · exact (ih hx).imp_left (List.mem_cons_of_mem _)
  | cut hc _ ih =>
    rcases List.mem_cons.mp hx with rfl | hx
    · exact .inr ⟨_, _, _, _, _, _, hc, rfl⟩
    · exact (ih hx).imp_left fun hmem => List.mem_cons_of_mem _ (List.mem_append_right _ hmem)

/-- `stray last a` is a reply that must not come where `last` is the reply just
before it, with nothing done in between. -/
def Prog.Ignores (cut : Elision Γ) (stray : Option (Label Γ) → Label Γ → Prop) {α : Type} :
    Prog Γ α → Option (Label Γ) → Prop
  | .ret _, _ => True
  | .raise _, _ => True
  | .act _ k, _ => ∀ b, (k b).Ignores cut stray none
  | .call o k, last =>
      (∀ r u js r' u', cut o r u js r' u' → Follows (k r) u js (k r') u') ∧
      ∀ r u, ¬ stray last ⟨o, r, u⟩ ∧ (k r).Ignores cut stray (some ⟨o, r, u⟩)
  | .loop body _ k, _ => (∀ y, (body y).Ignores cut stray none) ∧ ∀ b, (k b).Ignores cut stray none

section ignores
variable {cut : Elision Γ} {stray : Option (Label Γ) → Label Γ → Prop} {p : Prog Γ α}
  {last : Option (Label Γ)}

def Lenient (stray : Option (Label Γ) → Label Γ → Prop) : Prop :=
  ∀ a b, stray (some a) b → stray none b

theorem Prog.Ignores.later (hs : Lenient stray) (h : p.Ignores cut stray none) :
    p.Ignores cut stray last := by
  cases last with
  | none => exact h
  | some a =>
    cases p with
    | ret _ => trivial
    | raise _ => trivial
    | act _ _ => exact h
    | call o k => exact ⟨h.1, fun r u => ⟨fun hb => (h.2 r u).1 (hs a _ hb), (h.2 r u).2⟩⟩
    | loop _ _ _ => exact h

theorem Prog.Ignores.bind {g : α → Prog Γ β} (hs : Lenient stray) (hp : p.Ignores cut stray last)
    (hg : ∀ a, (g a).Ignores cut stray none) : (p.bind g).Ignores cut stray last := by
  induction p generalizing last with
  | ret a => exact (hg a).later hs
  | raise e => trivial
  | act f k ih => exact fun b => ih b (hp b) hg
  | call o k ih =>
    exact ⟨fun r u js r' u' hcut => (hp.1 r u js r' u' hcut).bind g,
      fun r u => ⟨(hp.2 r u).1, ih r (hp.2 r u).2 hg⟩⟩
  | loop body x k _ ih => exact ⟨hp.1, fun b => ih b (hp.2 b) hg⟩

theorem Prog.Ignores.attempt (hs : Lenient stray) (hp : p.Ignores cut stray last) :
    p.attempt.Ignores cut stray last := by
  induction p generalizing last with
  | ret a => trivial
  | raise e => trivial
  | act f k ih => exact fun b => ih b (hp b)
  | call o k ih =>
    exact ⟨fun r u js r' u' hcut => (hp.1 r u js r' u' hcut).attempt,
      fun r u => ⟨(hp.2 r u).1, ih r (hp.2 r u).2⟩⟩
  | loop body x k ihb ihk =>
    rw [Prog.attempt_loop]
    refine ⟨fun y => (ihb y (hp.1 y)).bind hs ?_, ?_⟩
    · intro r
      cases r with
      | error e => trivial
      | ok r => cases r <;> trivial
    · intro r
      cases r with
      | error e => trivial
      | ok b => exact ihk b (hp.2 b)

theorem Prog.Ignores.again {body : σ → Prog Γ (σ ⊕ β)} {x : σ} {k : β → Prog Γ α}
    (hs : Lenient stray) (h : (Prog.loop body x k).Ignores cut stray last) :
    ((body x).bind (Prog.again body k)).Ignores cut stray last := by
  refine ((h.1 x).later hs).bind hs ?_
  intro r
  cases r with
  | inl y => exact h
  | inr b => exact h.2 b

end ignores

theorem Trace.erase {E : Env Γ} {cut : Elision Γ} {stray : Option (Label Γ) → Label Γ → Prop}
    {p q : Prog Γ α} {s t : Γ.Store} {l l' : List (Label Γ)} {last : Option (Label Γ)}
    (hcut : ∀ o s r u js r' u', cut o r u js r' u' → E o s r u → E o s r' u')
    (hs : Lenient stray) (h : Trace E p s l q t) (hq : q.Done) (hp : p.Ignores cut stray last)
    (he : Erases cut l l') : Trace E p s l' q t := by
  -- on the number of replies, for what follows a cut, and then on the run
  generalize hn : l.length = n
  induction n using Nat.strongRecOn generalizing p s l l' last with
  | _ n ihn =>
    induction h generalizing last l' with
    | done =>
      cases he
      exact .done
    | act _ ih => exact .act (ih hq ihn (hp _) he hn)
    | loop _ ih => exact .loop (ih hq ihn (hp.again hs) he hn)
    | @call o k q r s t u l hr hrun _ =>
      subst hn
      cases he with
      | keep a he => exact .call hr (ihn _ (Nat.lt_succ_self _) hrun (hp.2 r u).2 he rfl)
      | @cut _ _ r' _ u' js l₁ l₁' hc he =>
        have hrest := (hp.1 r u js r' u' hc).rest hrun hq
        refine .call (hcut _ _ _ _ _ _ _ hc hr) (ihn _ ?_ hrest (hp.2 r' u').2 he rfl)
        simp only [List.length_cons, List.length_append]
        omega

/-- A reply that may not come first comes right after one that heralds it. -/
inductive Heralded (E : Env Γ) (stray : Option (Label Γ) → Label Γ → Prop) :
    Option (Label Γ) → List (Label Γ) → Prop where
  | nil {last : Option (Label Γ)} : Heralded E stray last []
  | cons {last : Option (Label Γ)} {b : Label Γ} {l : List (Label Γ)} :
      (stray none b → ∃ a, last = some a ∧ ¬ stray (some a) b ∧ E b.op a.after b.reply b.after) →
      Heralded E stray (some b) l → Heralded E stray last (b :: l)

section heralded
variable {E : Env Γ} {cut : Elision Γ} {stray : Option (Label Γ) → Label Γ → Prop}
  {last : Option (Label Γ)} {l : List (Label Γ)}

theorem Heralded.later (h : Heralded E stray none l) : Heralded E stray last l := by
  cases h with
  | nil => exact .nil
  | cons hb hl =>
    refine .cons (fun hstray => ?_) hl
    obtain ⟨a, ha, -⟩ := hb hstray
    cases ha

theorem Trace.heralded {p q : Prog Γ α} {s t : Γ.Store} (hs : Lenient stray)
    (h : Trace E p s l q t) (hp : p.Ignores cut stray last)
    (hlast : ∀ a, last = some a → s = a.after) : Heralded E stray last l := by
  induction h generalizing last with
  | done => exact .nil
  | act _ ih => exact (ih (hp _) nofun).later
  | loop _ ih => exact (ih ((hp.later hs).again hs) hlast)
  | @call o k _ r s _ u _ hr _ ih =>
    refine .cons (fun hstray => ?_) (ih (hp.2 r u).2 ?_)
    · cases last with
      | none => exact ((hp.2 r u).1 hstray).elim
      | some a => exact ⟨a, rfl, (hp.2 r u).1, hlast a rfl ▸ hr⟩
    · intro a ha
      cases ha
      rfl

theorem Heralded.erase
    (hcut : ∀ a b, stray none b → ¬ stray (some a) b → E b.op a.after b.reply b.after →
      ∃ r' u', cut a.op a.reply a.after [b] r' u' ∧ ¬ stray none ⟨a.op, r', u'⟩)
    (halone : ∀ a b, stray none a → stray none b → stray (some a) b) :
    ∀ {l : List (Label Γ)}, Heralded E stray none l →
      ∃ l', Erases cut l l' ∧ ∀ b ∈ l', ¬ stray none b
  | [], _ => ⟨[], .nil, nofun⟩
  | [a], .cons ha _ => by
    refine ⟨[a], .keep a .nil, ?_⟩
    intro b hb hstray
    rw [List.mem_singleton.mp hb] at hstray
    obtain ⟨_, hnone, -⟩ := ha hstray
    cases hnone
  | a :: b :: l, .cons ha (.cons hb hl) => by
    have hfirst : ¬ stray none a := by
      intro hstray
      obtain ⟨_, hnone, -⟩ := ha hstray
      cases hnone
    by_cases hstray : stray none b
    · obtain ⟨_, hsome, hheralds, hreply⟩ := hb hstray
      cases hsome
      obtain ⟨r', u', hc, hclean⟩ := hcut a b hstray hheralds hreply
      have hrest : Heralded E stray none l := by
        cases hl with
        | nil => exact .nil
        | cons hc hl =>
          refine .cons (fun hc' => ?_) hl
          obtain ⟨_, hsome, hnot, -⟩ := hc hc'
          cases hsome
          exact (hnot (halone _ _ hstray hc')).elim
      obtain ⟨l', he, hl'⟩ := Heralded.erase hcut halone hrest
      refine ⟨_, .cut hc he, ?_⟩
      intro x hx
      rcases List.mem_cons.mp hx with rfl | hx
      · exact hclean
      · exact hl' x hx
    · obtain ⟨l', he, hl'⟩ := Heralded.erase hcut halone
        (.cons (fun h => (hstray h).elim) hl : Heralded E stray none (b :: l))
      refine ⟨_, .keep a he, ?_⟩
      intro x hx
      rcases List.mem_cons.mp hx with rfl | hx
      · exact hfirst
      · exact hl' x hx

end heralded

def Spins (E : Env Γ) (p : Prog Γ α) (s : Γ.Store) : Prop :=
  Relation.TransGen (Step E) (p, s) (p, s)

namespace Spins
variable {E : Env Γ} {s : Γ.Store}

theorem bind {p : Prog Γ α} (h : Spins E p s) (g : α → Prog Γ β) : Spins E (p >>= g) s :=
  h.lift (fun c : Config Γ α => ((c.1.bind g, c.2) : Config Γ β)) fun _ _ hs => hs.bind g

theorem round {body : σ → Prog Γ (σ ⊕ β)} {x : σ}
    (h : Reaches E (body x, s) (.ret (.inl x), s)) : Spins E (Prog.repeatUntil body x) s :=
  .trans_left (.single (.loop body x .ret s)) (h.bind (Prog.again body .ret))

end Spins

structure Throws (E : Env Γ) (p : Prog Γ α) (s : Γ.Store) : Prop where
  finite : Acc (fun c d => Step E d c) (p, s)
  raises : ∀ q t, Reaches E (p, s) (q, t) → (∃ e, q = .raise e) ∨ ∃ d, Step E (q, t) d

namespace Throws
variable {E : Env Γ} {p q : Prog Γ α} {s t : Γ.Store}

theorem raise (e : Γ.Exc) : Throws E (.raise e : Prog Γ α) s := by
  refine ⟨⟨_, fun d hd => (Step.not_raise hd).elim⟩, ?_⟩
  intro q t hr
  rcases hr.cases_head with heq | ⟨d, hd, -⟩
  · cases heq
    exact .inl ⟨e, rfl⟩
  · exact (Step.not_raise hd).elim

theorem of_step (hstep : Step E (p, s) (q, t)) (honly : ∀ d, Step E (p, s) d → d = (q, t))
    (h : Throws E q t) : Throws E p s := by
  refine ⟨⟨_, fun d hd => ?_⟩, ?_⟩
  · rw [honly d hd]
    exact h.finite
  · intro q' t' hr
    rcases hr.cases_head with heq | ⟨d, hd, hr⟩
    · cases heq
      exact .inr ⟨_, hstep⟩
    · rw [honly d hd] at hr
      exact h.raises q' t' hr

theorem of_silent (hrun : Trace E p s [] q t) (h : Throws E q t) : Throws E p s := by
  generalize hl : ([] : List (Label Γ)) = l at hrun
  induction hrun with
  | done => exact h
  | act _ ih =>
    refine of_step (.act _ _ _) ?_ (ih h hl)
    intro d hd
    cases hd with
    | act f k => rfl
  | loop _ ih =>
    refine of_step (.loop _ _ _ _) ?_ (ih h hl)
    intro d hd
    cases hd with
    | loop body x k => rfl
  | call _ _ _ => cases hl

theorem not_of_returns {a : α} (h : Reaches E (p, s) (.ret a, t)) : ¬ Throws E p s := by
  intro hthrows
  rcases hthrows.raises _ _ h with ⟨e, he⟩ | ⟨d, hd⟩
  · cases he
  · exact Step.not_ret hd

theorem not_of_spins (h : Spins E p s) : ¬ Throws E p s := by
  intro hthrows
  have hloop : ∀ c : Config Γ α, Acc (fun c d => Step E d c) c → ¬ Relation.TransGen (Step E) c c := by
    intro c hc
    have htrans := hc.transGen
    clear hc
    induction htrans with
    | intro x _ ih =>
      intro hx
      have hback : Relation.TransGen (fun c d => Step E d c) x x := Relation.transGen_swap.mpr hx
      exact ih x hback hx
  exact hloop _ hthrows.finite h

end Throws

end Interact
