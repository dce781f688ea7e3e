import Mathlib.Data.List.Nodup
import Mathlib.Data.List.Range
import Mathlib.Logic.Function.Basic

/-!
# Slots with one piece of work each

`Covers n work ops` says that the pieces of work outstanding are, in some order,
one for each of the slots below `n`. When one of them is done its slot is free
for another.
-/

namespace Slots

variable {β : Type} {n : ℕ} {work : ℕ → β} {op : β} {ops rest : List β}

def Covers (n : ℕ) (work : ℕ → β) (ops : List β) : Prop := ops.Perm ((List.range n).map work)

namespace Covers

theorem perm (h : Covers n work ops) (hp : rest.Perm ops) : Covers n work rest := hp.trans h

theorem mem (h : Covers n work ops) {b : ℕ} (hb : b < n) : work b ∈ ops :=
  (List.Perm.mem_iff h).mpr (List.mem_map_of_mem (List.mem_range.mpr hb))

theorem replace (h : Covers n work (op :: rest)) :
    ∃ b < n, op = work b ∧
      ∀ work' : ℕ → β, (∀ c, c ≠ b → work' c = work c) → Covers n work' (work' b :: rest) := by
  have hmem : op ∈ (List.range n).map work := (List.Perm.mem_iff h).mp List.mem_cons_self
  obtain ⟨b, hb, rfl⟩ := List.mem_map.mp hmem
  refine ⟨b, List.mem_range.mp hb, rfl, fun work' hsame => ?_⟩
  have hsplit : (List.range n).Perm (b :: (List.range n).erase b) := List.perm_cons_erase hb
  have hrest : rest.Perm (((List.range n).erase b).map work) :=
    (List.Perm.trans h (hsplit.map work)).cons_inv
  have helse : ((List.range n).erase b).map work = ((List.range n).erase b).map work' := by
    apply List.map_congr_left
    intro c hc
    have hne : c ≠ b := ((List.nodup_range (n := n)).mem_erase_iff.mp hc).1
    exact (hsame c hne).symm
  rw [helse] at hrest
  exact (hrest.cons (work' b)).trans (hsplit.map work').symm

end Covers

end Slots
