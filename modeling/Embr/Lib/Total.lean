import Embr.Lib.Logic

/-!
# Programs that end on every run

`Total E I p Q s` is the terminating counterpart of `Sat`: from `s` every run
of `p` is finite, no call is left without a reply, no exception is raised, `I`
holds at each point passed and every run ends in `Q`.
-/

namespace Interact

variable {Γ : Iface} {α β γ σ : Type}

inductive Total (E : Env Γ) (I : Option Γ.Op → Γ.Store → Prop) {α : Type}
    (Q : α → Γ.Store → Prop) : Prog Γ α → Γ.Store → Prop where
  | ret {a : α} {s : Γ.Store} : I none s → Q a s → Total E I Q (.ret a) s
  | act {β : Type} {f : Γ.Store → β × Γ.Store} {k : β → Prog Γ α} {s : Γ.Store} :
      I none s → Total E I Q (k (f s).1) (f s).2 → Total E I Q (.act f k) s
  | call {o : Γ.Op} {k : Γ.Reply o → Prog Γ α} {s : Γ.Store} :
      I (some o) s → (∃ r s', E o s r s') →
      (∀ r s', E o s r s' → Total E I Q (k r) s') → Total E I Q (.call o k) s
  | loop {β σ : Type} {body : σ → Prog Γ (σ ⊕ β)} {x : σ} {k : β → Prog Γ α} {s : Γ.Store} :
      I none s → Total E I Q ((body x).bind (Prog.again body k)) s →
      Total E I Q (.loop body x k) s

section rules
variable {E : Env Γ} {I I' : Option Γ.Op → Γ.Store → Prop} {Q R : α → Γ.Store → Prop}
  {s t : Γ.Store}

theorem Total.here {p : Prog Γ α} (h : Total E I Q p s) : I p.head s := by
  cases h with
  | ret hi _ => exact hi
  | act hi _ => exact hi
  | call hi _ _ => exact hi
  | loop hi _ => exact hi

theorem Total.mono {p : Prog Γ α} (h : Total E I Q p s) (hI : ∀ o s, I o s → I' o s)
    (hQ : ∀ a s, Q a s → R a s) : Total E I' R p s := by
  induction h with
  | ret hi hq => exact .ret (hI _ _ hi) (hQ _ _ hq)
  | act hi _ ih => exact .act (hI _ _ hi) ih
  | call hi he _ ih => exact .call (hI _ _ hi) he ih
  | loop hi _ ih => exact .loop (hI _ _ hi) ih

theorem Total.weaken {p : Prog Γ α} (h : Total E I Q p s) (hQ : ∀ a s, Q a s → R a s) :
    Total E I R p s := h.mono (fun _ _ hi => hi) hQ

theorem Total.bind {p : Prog Γ α} {g : α → Prog Γ β} {Q : β → Γ.Store → Prop}
    (h : Total E I (fun a t => Total E I Q (g a) t) p s) : Total E I Q (p >>= g) s := by
  change Total E I Q (p.bind g) s
  induction h with
  | ret _ hq => exact hq
  | act hi _ ih => exact .act hi ih
  | call hi he _ ih => exact .call hi he ih
  | loop hi _ ih =>
    refine .loop hi ?_
    simpa only [Prog.bind_assoc, Prog.bind_again] using ih

theorem Total.andThen {p : Prog Γ α} {g : α → Prog Γ β} {Q : β → Γ.Store → Prop}
    (h : Total E I R p s) (hg : ∀ a t, R a t → Total E I Q (g a) t) :
    Total E I Q (p >>= g) s :=
  Total.bind (h.weaken hg)

theorem total_ret {a : α} : Total E I Q (.ret a) s ↔ I none s ∧ Q a s := by
  constructor
  · intro h
    cases h with
    | ret hi hq => exact ⟨hi, hq⟩
  · rintro ⟨hi, hq⟩
    exact .ret hi hq

@[simp] theorem total_pure {a : α} : Total E I Q (pure a) s ↔ I none s ∧ Q a s := total_ret

theorem total_act {f : Γ.Store → β × Γ.Store} {k : β → Prog Γ α} :
    Total E I Q (.act f k) s ↔ I none s ∧ Total E I Q (k (f s).1) (f s).2 := by
  constructor
  · intro h
    cases h with
    | act hi hk => exact ⟨hi, hk⟩
  · rintro ⟨hi, hk⟩
    exact .act hi hk

theorem total_call {o : Γ.Op} {k : Γ.Reply o → Prog Γ α} :
    Total E I Q (.call o k) s ↔ I (some o) s ∧ (∃ r s', E o s r s') ∧
      ∀ r s', E o s r s' → Total E I Q (k r) s' := by
  constructor
  · intro h
    cases h with
    | call hi he hk => exact ⟨hi, he, hk⟩
  · rintro ⟨hi, he, hk⟩
    exact .call hi he hk

@[simp] theorem total_get_bind {g : Γ.Store → Prog Γ α} :
    Total E I Q (Prog.get >>= g) s ↔ I none s ∧ Total E I Q (g s) s := total_act

@[simp] theorem total_ask_bind {o : Γ.Op} {g : Γ.Reply o → Prog Γ α} :
    Total E I Q (Prog.ask o >>= g) s ↔ I (some o) s ∧ (∃ r s', E o s r s') ∧
      ∀ r s', E o s r s' → Total E I Q (g r) s' := total_call

@[simp] theorem total_ask {o : Γ.Op} {Q : Γ.Reply o → Γ.Store → Prop} :
    Total E I Q (Prog.ask o) s ↔ I (some o) s ∧ (∃ r s', E o s r s') ∧
      ∀ r s', E o s r s' → I none s' ∧ Q r s' :=
  total_call.trans (by simp only [total_ret])

theorem Total.round {body : σ → Prog Γ (σ ⊕ β)} {x : σ} {Q : β → Γ.Store → Prop}
    (J : σ → Γ.Store → Prop) (μ : σ → Γ.Store → ℕ) (hx : J x s)
    (hJ : ∀ y t, J y t → I none t ∧ Total E I
      (fun r u => r.elim (fun y' => J y' u ∧ μ y' u < μ y t) (fun b => I none u ∧ Q b u))
      (body y) t) :
    Total E I Q (Prog.repeatUntil body x) s := by
  generalize hn : μ x s = n
  induction n using Nat.strongRecOn generalizing x s with
  | _ n ih =>
    refine .loop (hJ x s hx).1 (Total.bind ((hJ x s hx).2.weaken ?_))
    rintro (y | b) u hu
    · exact ih _ (hn ▸ hu.2) hu.1 rfl
    · exact .ret hu.1 hu.2

theorem Total.step {p q : Prog Γ α} (h : Total E I Q p s) (hs : Step E (p, s) (q, t)) :
    Total E I Q q t := by
  cases hs with
  | act f k => exact (total_act.mp h).2
  | call hr => exact (total_call.mp h).2.2 _ _ hr
  | loop body x k =>
    cases h with
    | loop _ hb => exact hb

theorem Total.acc {p : Prog Γ α} (h : Total E I Q p s) :
    Acc (fun c d => Step E d c) (p, s) := by
  induction h with
  | ret _ _ => exact ⟨_, fun _ hs => (Step.not_ret hs).elim⟩
  | act _ _ ih =>
    refine ⟨_, fun _ hs => ?_⟩
    cases hs with
    | act f k => exact ih
  | call _ _ _ ih =>
    refine ⟨_, fun _ hs => ?_⟩
    cases hs with
    | call hr => exact ih _ _ hr
  | loop _ _ ih =>
    refine ⟨_, fun _ hs => ?_⟩
    cases hs with
    | loop body x k => exact ih

theorem Total.reaches {p q : Prog Γ α} (h : Total E I Q p s) (hr : Reaches E (p, s) (q, t)) :
    Total E I Q q t := by
  generalize hd : (q, t) = d at hr
  induction hr generalizing q t with
  | refl =>
    cases hd
    exact h
  | @tail b c _ hs ih =>
    subst hd
    exact (ih rfl).step hs

theorem Total.returns {p : Prog Γ α} (h : Total E I Q p s) : Returns E p Q s := by
  induction h with
  | ret _ hq => exact .ret hq
  | @act _ f k s _ _ ih => exact .of_reaches (.single (.act f k s)) ih
  | call _ he _ ih =>
    obtain ⟨r, s', hr⟩ := he
    exact .of_reaches (.single (.call hr)) (ih r s' hr)
  | @loop _ _ body x k s _ _ ih => exact .of_reaches (.single (.loop body x k s)) ih

theorem Total.and {J : Option Γ.Op → Γ.Store → Prop} {X : Γ.Exc → Γ.Store → Prop} {p : Prog Γ α}
    (h : Total E I Q p s) (hsat : Sat E J X p R s) : Total E I (fun a t => Q a t ∧ R a t) p s := by
  induction h with
  | ret hi hq => exact .ret hi ⟨hq, hsat.2⟩
  | act hi _ ih => exact .act hi (ih hsat.2)
  | call hi he _ ih => exact .call hi he fun r s' hr => ih r s' hr (hsat.2 r s' hr)
  | loop hi _ ih => exact .loop hi (ih hsat.again)

end rules

end Interact
