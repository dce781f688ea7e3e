import Mathlib.Algebra.BigOperators.Group.Finset.Piecewise
import Mathlib.Algebra.Order.BigOperators.Group.Finset
import Mathlib.Algebra.Group.Action.Defs

/-!
# Workers that take turns in any order

Each worker has a place of its own in the program text and all of them share one
state. `moves` is what one worker may do next; a run lets any worker move at any
time. `tally` sums a quantity over the places, and one move changes one summand.
-/

namespace Workers

variable {S P L : Type} {moves : ℕ → S → P → L → S → P → Prop} {w : ℕ}

structure State (S P : Type) where
  shared : S
  place : ℕ → P

inductive Step (moves : ℕ → S → P → L → S → P → Prop) (w : ℕ) :
    State S P → L → State S P → Prop where
  | move {s : State S P} {t : ℕ} {l : L} {x : S} {p : P} : t < w →
      moves t s.shared (s.place t) l x p → Step moves w s l ⟨x, Function.update s.place t p⟩

inductive Run (moves : ℕ → S → P → L → S → P → Prop) (w : ℕ) (s₀ : State S P) :
    List L → State S P → Prop where
  | start : Run moves w s₀ [] s₀
  | step {ls : List L} {s s' : State S P} {l : L} : Run moves w s₀ ls s →
      Step moves w s l s' → Run moves w s₀ (ls ++ [l]) s'

/-- Every worker is at a place in `done`. -/
def AllJoined (done : P → Prop) (w : ℕ) (s : State S P) : Prop := ∀ t < w, done (s.place t)

theorem Run.inv {I : List L → State S P → Prop} {s₀ s : State S P} {ls : List L}
    (h : Run moves w s₀ ls s) (hstart : I [] s₀)
    (hmove : ∀ ls s t l x p, Run moves w s₀ ls s → I ls s → t < w →
      moves t s.shared (s.place t) l x p → I (ls ++ [l]) ⟨x, Function.update s.place t p⟩) :
    I ls s := by
  induction h with
  | start => exact hstart
  | step hrun hstep ih =>
    cases hstep with
    | move ht hmoves => exact hmove _ _ _ _ _ _ hrun ih ht hmoves

def tally (w : ℕ) (f : P → ℕ) (place : ℕ → P) : ℕ := ∑ t ∈ Finset.range w, f (place t)

section tally
variable {f : P → ℕ} {place : ℕ → P} {t : ℕ}

theorem tally_const (n : ℕ) (h : ∀ t < w, f (place t) = n) : tally w f place = w * n := by
  rw [tally, Finset.sum_congr rfl fun t ht => h t (Finset.mem_range.mp ht)]
  simp

theorem exists_of_tally {n : ℕ} (h : tally w f place ≠ w * n) : ∃ t < w, f (place t) ≠ n := by
  by_contra hnone
  push Not at hnone
  exact h (tally_const n hnone)

theorem tally_split (ht : t < w) :
    tally w f place = f (place t) + ∑ u ∈ Finset.range w \ {t}, f (place u) := by
  have hsub : {t} ⊆ Finset.range w := Finset.singleton_subset_iff.mpr (Finset.mem_range.mpr ht)
  rw [tally, ← Finset.sum_sdiff hsub, Finset.sum_singleton, Nat.add_comm]

theorem tally_move (f : P → ℕ) (place : ℕ → P) (ht : t < w) (p : P) :
    tally w f (Function.update place t p) + f (place t) = tally w f place + f p := by
  have hrest : ∑ u ∈ Finset.range w \ {t}, f (Function.update place t p u) =
      ∑ u ∈ Finset.range w \ {t}, f (place u) := by
    apply Finset.sum_congr rfl
    intro u hu
    have hne : u ≠ t := fun h => (Finset.mem_sdiff.mp hu).2 (Finset.mem_singleton.mpr h)
    rw [Function.update_of_ne hne]
  rw [tally_split ht, tally_split ht, hrest, Function.update_self]
  omega

theorem le_tally (ht : t < w) : f (place t) ≤ tally w f place := by
  rw [tally_split ht]
  exact Nat.le_add_right _ _

theorem tally_le {n : ℕ} (h : ∀ p, f p ≤ n) : tally w f place ≤ w * n := by
  have hsum := Finset.sum_le_card_nsmul (Finset.range w) (fun t => f (place t)) n fun t _ => h _
  rwa [Finset.card_range, smul_eq_mul] at hsum

theorem tally_lt {n : ℕ} (h : ∀ p, f p ≤ n) (ht : t < w) (hlt : f (place t) < n) :
    tally w f place < w * n := by
  have hsum : ∑ u ∈ Finset.range w, f (place u) < ∑ _u ∈ Finset.range w, n :=
    Finset.sum_lt_sum (fun u _ => h _) ⟨t, Finset.mem_range.mpr ht, hlt⟩
  rwa [Finset.sum_const, Finset.card_range, smul_eq_mul] at hsum

end tally

end Workers
