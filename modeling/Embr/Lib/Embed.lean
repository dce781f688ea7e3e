import Embr.Lib.Trace

/-!
# A program as a part of a larger one

`Part Γ Δ` finds the store of a component inside the store of the program that
owns it, and the component's calls among the owner's. `Prog.embed` runs the
component's program there. What is proved of the component alone then holds of
the embedded program, and the rest of the owner's store is left as it was.
-/

namespace Interact

structure Part (Γ Δ : Iface) where
  get : Δ.Store → Γ.Store
  put : Γ.Store → Δ.Store → Δ.Store
  exc : Γ.Exc → Δ.Exc
  op : Γ.Op → Δ.Op
  reply : (o : Γ.Op) → Δ.Reply (op o) → Γ.Reply o
  get_put : ∀ a s, get (put a s) = a
  put_get : ∀ s, put (get s) s = s
  put_put : ∀ a b s, put a (put b s) = put a s

variable {Γ Δ : Iface} {α β : Type}

def Prog.embed (c : Part Γ Δ) {α : Type} : Prog Γ α → Prog Δ α
  | .ret a => .ret a
  | .raise e => .raise (c.exc e)
  | .act f k => .act (fun s => ((f (c.get s)).1, c.put (f (c.get s)).2 s)) fun b => (k b).embed c
  | .call o k => .call (c.op o) fun r => (k (c.reply o r)).embed c
  | .loop body x k => .loop (fun y => (body y).embed c) x fun b => (k b).embed c

namespace Part

def Frame (c : Part Γ Δ) (s t : Δ.Store) : Prop := t = c.put (c.get t) s

variable (c : Part Γ Δ)

theorem frame_refl (s : Δ.Store) : c.Frame s s := (c.put_get s).symm

theorem frame_put {s t : Δ.Store} (h : c.Frame s t) (a : Γ.Store) : c.Frame s (c.put a t) := by
  have ht : t = c.put (c.get t) s := h
  rw [Frame, c.get_put, ht, c.put_put]

theorem frame_trans {s t u : Δ.Store} (h : c.Frame s t) (h' : c.Frame t u) : c.Frame s u := by
  have hu : u = c.put (c.get u) t := h'
  rw [hu]
  exact c.frame_put h _

/-- Each call is answered as the component's own environment would, and moves
nothing but the component's store. -/
def Answers (E : Env Γ) (F : Env Δ) : Prop :=
  ∀ o s r t, F (c.op o) s r t → E o (c.get s) (c.reply o r) (c.get t) ∧ c.Frame s t

end Part

theorem Sat.embed {E : Env Γ} {F : Env Δ} {I : Option Γ.Op → Γ.Store → Prop}
    {X : Γ.Exc → Γ.Store → Prop} {p : Prog Γ α} {Q : α → Γ.Store → Prop} {s : Δ.Store}
    (c : Part Γ Δ) (hF : c.Answers E F) (h : Sat E I X p Q (c.get s)) :
    Sat F (fun o t => (∃ o', o = Option.map c.op o' ∧ I o' (c.get t)) ∧ c.Frame s t)
      (fun e t => (∃ e', e = c.exc e' ∧ X e' (c.get t)) ∧ c.Frame s t)
      (p.embed c) (fun a t => Q a (c.get t) ∧ c.Frame s t) s := by
  have hall : ∀ t, Sat E I X p Q (c.get t) → c.Frame s t →
      Sat F (fun o t => (∃ o', o = Option.map c.op o' ∧ I o' (c.get t)) ∧ c.Frame s t)
        (fun e t => (∃ e', e = c.exc e' ∧ X e' (c.get t)) ∧ c.Frame s t)
        (p.embed c) (fun a t => Q a (c.get t) ∧ c.Frame s t) t := by
    clear h
    induction p with
    | ret a =>
      intro t h ht
      exact ⟨⟨⟨none, rfl, h.1⟩, ht⟩, h.2, ht⟩
    | raise e =>
      intro t h ht
      exact ⟨⟨⟨none, rfl, h.1⟩, ht⟩, ⟨e, rfl, h.2⟩, ht⟩
    | act f k ih =>
      intro t h ht
      refine ⟨⟨⟨none, rfl, h.1⟩, ht⟩, ih _ _ ?_ (c.frame_put ht _)⟩
      rw [c.get_put]
      exact h.2
    | call o k ih =>
      intro t h ht
      refine ⟨⟨⟨some o, rfl, h.1⟩, ht⟩, ?_⟩
      intro r u hu
      obtain ⟨he, hframe⟩ := hF _ _ _ _ hu
      exact ih _ _ (h.2 _ _ he) (c.frame_trans ht hframe)
    | loop body x k ihb ihk =>
      intro t h ht
      obtain ⟨J, hx, hJ⟩ := h
      refine ⟨fun y u => J y (c.get u) ∧ c.Frame s u, ⟨hx, ht⟩, ?_⟩
      intro y u hu
      obtain ⟨hy, hframe⟩ := hu
      refine ⟨⟨⟨none, rfl, (hJ y _ hy).1⟩, hframe⟩, (ihb y u (hJ y _ hy).2 hframe).weaken ?_⟩
      intro r v hv
      obtain ⟨hr, hv⟩ := hv
      cases r with
      | inl z => exact ⟨hr, hv⟩
      | inr b => exact ihk b v hr hv
  exact hall s h (c.frame_refl s)

theorem Prog.embed_bind (c : Part Γ Δ) (p : Prog Γ α) (g : α → Prog Γ β) :
    (p.bind g).embed c = (p.embed c).bind fun a => (g a).embed c := by
  induction p with
  | ret a => rfl
  | raise e => rfl
  | act f k ih => simp only [Prog.bind, Prog.embed, ih]
  | call o k ih => simp only [Prog.bind, Prog.embed, ih]
  | loop body x k _ ih => simp only [Prog.bind, Prog.embed, ih]

theorem Prog.embed_again (c : Part Γ Δ) {σ : Type} (body : σ → Prog Γ (σ ⊕ β)) (k : β → Prog Γ α)
    (r : σ ⊕ β) : (again body k r).embed c =
      again (fun y => (body y).embed c) (fun b => (k b).embed c) r := by
  cases r <;> rfl

def Part.Offers (c : Part Γ Δ) (E : Env Γ) (F : Env Δ) : Prop :=
  ∀ o s r b, E o (c.get s) r b → ∃ r', c.reply o r' = r ∧ F (c.op o) s r' (c.put b s)

theorem Step.embed {E : Env Γ} {F : Env Δ} (c : Part Γ Δ) (hF : c.Offers E F) {p q : Prog Γ α}
    {b b' : Γ.Store} (h : Step E (p, b) (q, b')) {s : Δ.Store} (hs : c.get s = b) :
    Step F (p.embed c, s) (q.embed c, c.put b' s) := by
  subst hs
  cases h with
  | act f k => exact .act (fun s => ((f (c.get s)).1, c.put (f (c.get s)).2 s)) _ s
  | call hr =>
    obtain ⟨r', rfl, hF⟩ := hF _ s _ _ hr
    exact .call hF
  | loop body x k =>
    rw [Prog.embed_bind, c.put_get]
    simp only [Prog.embed_again]
    exact .loop _ x _ s

theorem Returns.embed {E : Env Γ} {F : Env Δ} (c : Part Γ Δ) (hF : c.Offers E F) {p : Prog Γ α}
    {Q : α → Γ.Store → Prop} {s : Δ.Store} (h : Returns E p Q (c.get s)) :
    Returns F (p.embed c) (fun a t => ∃ w, Q a w ∧ t = c.put w s) s := by
  obtain ⟨a, w, hrun, hQ⟩ := h
  refine ⟨a, c.put w s, ?_, w, hQ, rfl⟩
  generalize hd : (Prog.ret a, w) = d at hrun
  have hall : Reaches F (p.embed c, s) (d.1.embed c, c.put d.2 s) := by
    clear hd
    induction hrun with
    | refl =>
      rw [c.put_get]
    | @tail d e _ hstep ih =>
      have hnext := Step.embed c hF hstep (c.get_put d.2 s)
      rw [c.put_put] at hnext
      exact ih.tail hnext
  subst hd
  exact hall

theorem Trace.embed {E : Env Γ} {F : Env Δ} (c : Part Γ Δ) {p q : Prog Γ α} {a b : Γ.Store}
    (h : Trace E p a [] q b) (s : Δ.Store) (hs : c.get s = a) :
    Trace F (p.embed c) s [] (q.embed c) (c.put b s) := by
  generalize hl : ([] : List (Label Γ)) = l at h
  induction h generalizing s with
  | done =>
    rw [← hs, c.put_get]
    exact .done
  | act _ ih =>
    subst hs
    have hrest := ih (c.put _ s) (c.get_put _ _) hl
    rw [c.put_put] at hrest
    exact .act hrest
  | loop _ ih =>
    have hrest := ih s hs hl
    rw [Prog.embed_bind] at hrest
    simp only [Prog.embed_again] at hrest
    exact .loop hrest
  | call _ _ _ => cases hl

end Interact
