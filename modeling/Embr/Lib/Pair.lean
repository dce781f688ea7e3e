import Embr.Lib.Total

/-!
# Two programs side by side

Each program keeps a store of its own; what its calls may do depends on the
store of the other one. A joint run interleaves steps of the two in any order.
Where each program is `Total` for a solo environment that already allows every
reply the other side can cause, all joint runs are covered by the two solo
specifications, and every joint run can be driven to a configuration in which
neither side can move.
-/

namespace Interact

variable {Γ Δ : Iface} {α β : Type}

abbrev PairConfig (Γ Δ : Iface) (α β : Type) := Config Γ α × Config Δ β

inductive PairStep (E : Δ.Store → Env Γ) (F : Γ.Store → Env Δ) :
    PairConfig Γ Δ α β → PairConfig Γ Δ α β → Prop where
  | left {c c' : Config Γ α} {d : Config Δ β} :
      Step (E d.2) c c' → PairStep E F (c, d) (c', d)
  | right {c : Config Γ α} {d d' : Config Δ β} :
      Step (F c.2) d d' → PairStep E F (c, d) (c, d')

abbrev PairReaches (E : Δ.Store → Env Γ) (F : Γ.Store → Env Δ) :
    PairConfig Γ Δ α β → PairConfig Γ Δ α β → Prop := Relation.ReflTransGen (PairStep E F)

def PairFinal (E : Δ.Store → Env Γ) (F : Γ.Store → Env Δ) (c : PairConfig Γ Δ α β) : Prop :=
  ∀ d, ¬ PairStep E F c d

section solo
variable {E : Δ.Store → Env Γ} {F : Γ.Store → Env Δ} {E₀ : Env Γ} {F₀ : Env Δ}
  {I : Option Γ.Op → Γ.Store → Prop} {J : Option Δ.Op → Δ.Store → Prop}
  {Q : α → Γ.Store → Prop} {R : β → Δ.Store → Prop}

/-- The solo environments allow what the two sides can do to each other. -/
structure Covers (E : Δ.Store → Env Γ) (F : Γ.Store → Env Δ) (E₀ : Env Γ) (F₀ : Env Δ)
    (I : Option Γ.Op → Γ.Store → Prop) (J : Option Δ.Op → Δ.Store → Prop) : Prop where
  left : ∀ o s o' t, I o s → J o' t → ∀ q r s', E t q s r s' → E₀ q s r s'
  right : ∀ o s o' t, I o s → J o' t → ∀ q r t', F s q t r t' → F₀ q t r t'

def BothTotal (E₀ : Env Γ) (F₀ : Env Δ) (I : Option Γ.Op → Γ.Store → Prop)
    (J : Option Δ.Op → Δ.Store → Prop) (Q : α → Γ.Store → Prop) (R : β → Δ.Store → Prop)
    (c : PairConfig Γ Δ α β) : Prop :=
  Total E₀ I Q c.1.1 c.1.2 ∧ Total F₀ J R c.2.1 c.2.2

theorem BothTotal.step (hc : Covers E F E₀ F₀ I J) {c d : PairConfig Γ Δ α β}
    (h : BothTotal E₀ F₀ I J Q R c) (hs : PairStep E F c d) : BothTotal E₀ F₀ I J Q R d := by
  cases hs with
  | left hs => exact ⟨h.1.step (hs.mono (hc.left _ _ _ _ h.1.here h.2.here)), h.2⟩
  | right hs => exact ⟨h.1, h.2.step (hs.mono (hc.right _ _ _ _ h.1.here h.2.here))⟩

theorem BothTotal.reaches (hc : Covers E F E₀ F₀ I J) {c d : PairConfig Γ Δ α β}
    (h : BothTotal E₀ F₀ I J Q R c) (hr : PairReaches E F c d) :
    BothTotal E₀ F₀ I J Q R d := by
  induction hr with
  | refl => exact h
  | tail _ hs ih => exact ih.step hc hs

theorem BothTotal.exists_final (hc : Covers E F E₀ F₀ I J) {c : PairConfig Γ Δ α β}
    (h : BothTotal E₀ F₀ I J Q R c) : ∃ d, PairReaches E F c d ∧ PairFinal E F d := by
  obtain ⟨c, d⟩ := c
  have ha : Acc (fun c d => Step E₀ d c) c := h.1.acc
  induction ha generalizing d with
  | intro c _ ihc =>
    have hb : Acc (fun c d => Step F₀ d c) d := h.2.acc
    induction hb with
    | intro d _ ihd =>
      by_cases hf : PairFinal E F (c, d)
      · exact ⟨(c, d), .refl, hf⟩
      · simp only [PairFinal, not_forall, not_not] at hf
        obtain ⟨e, hs⟩ := hf
        have he := h.step hc hs
        cases hs with
        | left hs =>
          have hs₀ := hs.mono (hc.left _ _ _ _ h.1.here h.2.here)
          obtain ⟨f, hr, hfin⟩ := ihc _ hs₀ d he
          exact ⟨f, .head (.left hs) hr, hfin⟩
        | right hs =>
          have hs₀ := hs.mono (hc.right _ _ _ _ h.1.here h.2.here)
          obtain ⟨f, hr, hfin⟩ := ihd _ hs₀ he
          exact ⟨f, .head (.right hs) hr, hfin⟩

end solo

section partly
variable {E : Δ.Store → Env Γ} {F : Γ.Store → Env Δ} {E₀ : Env Γ} {F₀ : Env Δ}
  {I : Option Γ.Op → Γ.Store → Prop} {J : Option Δ.Op → Δ.Store → Prop}
  {X : Γ.Exc → Γ.Store → Prop} {Y : Δ.Exc → Δ.Store → Prop}
  {Q : α → Γ.Store → Prop} {R : β → Δ.Store → Prop}

def BothSat (E₀ : Env Γ) (F₀ : Env Δ) (I : Option Γ.Op → Γ.Store → Prop)
    (J : Option Δ.Op → Δ.Store → Prop) (X : Γ.Exc → Γ.Store → Prop) (Y : Δ.Exc → Δ.Store → Prop)
    (Q : α → Γ.Store → Prop) (R : β → Δ.Store → Prop) (c : PairConfig Γ Δ α β) : Prop :=
  Sat E₀ I X c.1.1 Q c.1.2 ∧ Sat F₀ J Y c.2.1 R c.2.2

theorem BothSat.step (hc : Covers E F E₀ F₀ I J) {c d : PairConfig Γ Δ α β}
    (h : BothSat E₀ F₀ I J X Y Q R c) (hs : PairStep E F c d) : BothSat E₀ F₀ I J X Y Q R d := by
  cases hs with
  | left hs => exact ⟨h.1.step (hs.mono (hc.left _ _ _ _ h.1.here h.2.here)), h.2⟩
  | right hs => exact ⟨h.1, h.2.step (hs.mono (hc.right _ _ _ _ h.1.here h.2.here))⟩

theorem BothSat.reaches (hc : Covers E F E₀ F₀ I J) {c d : PairConfig Γ Δ α β}
    (h : BothSat E₀ F₀ I J X Y Q R c) (hr : PairReaches E F c d) :
    BothSat E₀ F₀ I J X Y Q R d := by
  induction hr with
  | refl => exact h
  | tail _ hs ih => exact ih.step hc hs

end partly

theorem PairReaches.left {E : Δ.Store → Env Γ} {F : Γ.Store → Env Δ} {c c' : Config Γ α}
    {d : Config Δ β} (h : Reaches (E d.2) c c') : PairReaches E F (c, d) (c', d) := by
  induction h with
  | refl => exact .refl
  | tail _ hs ih => exact ih.tail (.left hs)

theorem PairReaches.right {E : Δ.Store → Env Γ} {F : Γ.Store → Env Δ} {c : Config Γ α}
    {d d' : Config Δ β} (h : Reaches (F c.2) d d') : PairReaches E F (c, d) (c, d') := by
  induction h with
  | refl => exact .refl
  | tail _ hs ih => exact ih.tail (.right hs)

theorem Step.stuck {E : Env Γ} {p : Prog Γ α} {s : Γ.Store} (h : ∀ c, ¬ Step E (p, s) c) :
    p.Done ∨ ∃ o k, p = .call o k ∧ ∀ r s', ¬ E o s r s' := by
  cases p with
  | ret a => exact .inl trivial
  | raise e => exact .inl trivial
  | act f k => exact (h _ (.act f k s)).elim
  | call o k => exact .inr ⟨o, k, rfl, fun r s' hr => h _ (.call hr)⟩
  | loop body x k => exact (h _ (.loop body x k s)).elim

end Interact
