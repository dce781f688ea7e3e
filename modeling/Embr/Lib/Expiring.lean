import Mathlib.Logic.Function.Basic
import Mathlib.Order.Basic

/-!
# Maps whose entries expire

A map that drops stale entries at times of its own stands for one that drops
nothing. The two may differ in an entry only where it has become stale, and a
look that first drops what is stale tells them apart nowhere.
-/

namespace Expiring

variable {K V T : Type}

def Aging [LE T] (stale : T → V → Prop) : Prop := ∀ v t t', t ≤ t' → stale t v → stale t' v

def Lags (stale : T → V → Prop) (now : T) (m a : K → Option V) : Prop :=
  ∀ k, m k = a k ∨ m k = none ∧ ∃ v, a k = some v ∧ stale now v

/-- Nothing in `m` is stale. -/
def Fresh (stale : T → V → Prop) (now : T) (m : K → Option V) : Prop :=
  ∀ k v, m k = some v → ¬ stale now v

namespace Lags
variable {stale : T → V → Prop} {now : T} {l m a : K → Option V}

theorem refl (m : K → Option V) : Lags stale now m m := fun _ => .inl rfl

theorem trans (h : Lags stale now l m) (h' : Lags stale now m a) : Lags stale now l a := by
  intro k
  rcases h k with hk | ⟨hnone, v, hv, hstale⟩
  · rw [hk]
    exact h' k
  · rcases h' k with hk | ⟨hm, -⟩
    · exact .inr ⟨hnone, v, hk ▸ hv, hstale⟩
    · rw [hm] at hv
      cases hv

theorem later [LE T] {now' : T} (h : Lags stale now m a) (hage : Aging stale) (hle : now ≤ now') :
    Lags stale now' m a :=
  fun k => (h k).imp_right fun ⟨hnone, v, hv, hstale⟩ => ⟨hnone, v, hv, hage v _ _ hle hstale⟩

theorem update [DecidableEq K] (h : Lags stale now m a) (k : K) (x : Option V) :
    Lags stale now (Function.update m k x) (Function.update a k x) := by
  intro j
  by_cases hj : j = k
  · subst hj
    simp
  · simpa [hj] using h j

theorem look (h : Lags stale now m a) (hfresh : Fresh stale now m) {k : K} {v : V} :
    m k = some v ↔ a k = some v ∧ ¬ stale now v := by
  constructor
  · intro hm
    rcases h k with hk | ⟨hnone, -⟩
    · exact ⟨hk ▸ hm, hfresh k v hm⟩
    · rw [hm] at hnone
      cases hnone
  · rintro ⟨ha, hlive⟩
    rcases h k with hk | ⟨-, w, hw, hstale⟩
    · exact hk.trans ha
    · rw [ha] at hw
      cases hw
      exact (hlive hstale).elim

end Lags

end Expiring
