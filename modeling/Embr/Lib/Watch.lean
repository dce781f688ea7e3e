import Embr.Lib.Embed

/-!
# Programs under watch

A watcher is told each call with its reply. It sees what a trace lists and has a
state of its own beside the store, so that an invariant may speak of the calls
made so far.
-/

namespace Interact

variable {Γ : Iface} {μ α β : Type}

abbrev Iface.watched (Γ : Iface) (μ : Type) : Iface := ⟨Γ.Store × μ, Γ.Exc, Γ.Op, Γ.Reply⟩

def watcher (Γ : Iface) (μ : Type) : Part Γ (Γ.watched μ) where
  get := Prod.fst
  put a s := (a, s.2)
  exc e := e
  op o := o
  reply _ r := r
  get_put _ _ := rfl
  put_get _ := rfl
  put_put _ _ _ := rfl

def Env.watched (E : Env Γ) (see : μ → Label Γ → μ) : Env (Γ.watched μ) := fun o s r t =>
  E o s.1 r t.1 ∧ t.2 = see s.2 ⟨o, r, t.1⟩

abbrev Prog.watched (μ : Type) (p : Prog Γ α) : Prog (Γ.watched μ) α := p.embed (watcher Γ μ)

theorem Prog.watched_bind (p : Prog Γ α) (g : α → Prog Γ β) :
    (p >>= g).watched μ = p.watched μ >>= fun a => (g a).watched μ :=
  Prog.embed_bind (watcher Γ μ) p g

theorem Prog.watched_settle {σ : Type} (r : Except Γ.Exc (σ ⊕ β)) :
    (@settle Γ β σ r).watched μ = @settle (Γ.watched μ) β σ r := by
  cases r with
  | error e => rfl
  | ok r => cases r <;> rfl

theorem Prog.watched_attempt (p : Prog Γ α) :
    p.attempt.watched μ = @attempt (Γ.watched μ) α (p.watched μ) := by
  induction p with
  | ret a => rfl
  | raise e => rfl
  | act f k ih =>
    refine congrArg (Prog.act _) (funext fun b => ?_)
    exact ih b
  | call o k ih =>
    refine congrArg (@Prog.call (Γ.watched μ) _ o) (funext fun r => ?_)
    exact ih r
  | loop body x k ihb ihk =>
    have hbody : ∀ y, ((body y).attempt.bind settle).watched μ =
        (@attempt (Γ.watched μ) _ ((body y).watched μ)).bind settle := by
      intro y
      rw [← ihb y]
      refine (Prog.watched_bind _ _).trans (congrArg _ (funext fun r => ?_))
      exact Prog.watched_settle r
    have hrest : ∀ r, (resume k r).watched μ =
        @resume (Γ.watched μ) _ _ (fun b => (k b).watched μ) r := by
      intro r
      cases r with
      | ok b => exact ihk b
      | error e => rfl
    rw [Prog.attempt_loop]
    refine Eq.trans ?_ (Prog.attempt_loop (Γ := Γ.watched μ) _ x _).symm
    exact congr (congrArg (fun body => Prog.loop body x) (funext hbody)) (funext hrest)

theorem Trace.watched {E : Env Γ} {p q : Prog Γ α} {s t : Γ.Store} {l : List (Label Γ)}
    (h : Trace E p s l q t) (see : μ → Label Γ → μ) (m : μ) :
    Reaches (E.watched see) (p.watched μ, (s, m)) (q.watched μ, (t, l.foldl see m)) := by
  induction h generalizing m with
  | done => exact .refl
  | act _ ih => exact .head (.act _ _ _) (ih m)
  | loop _ ih =>
    refine .head (.loop _ _ _ _) ?_
    have hrest := ih m
    simp only [Prog.watched, Prog.embed_bind, Prog.embed_again] at hrest
    exact hrest
  | @call o k q r s t u l hr _ ih =>
    have hcall : E.watched see o (s, m) r (u, see m ⟨o, r, u⟩) := ⟨hr, rfl⟩
    exact .head (.call hcall) (ih _)

end Interact
