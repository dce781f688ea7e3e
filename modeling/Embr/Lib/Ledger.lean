import Mathlib.Logic.Function.Basic
import Mathlib.Data.List.Nodup
import Mathlib.Data.Option.Basic

/-!
# Things that are held and given up

Each place holds at most one thing. A thing that was made is held in one place,
or was given up once and is held nowhere.
-/

namespace Ledger

variable {ν τ : Type} {held : ν → Option τ} {made spent : List τ} {x y z : ν} {t u : τ}

structure Sound (held : ν → Option τ) (made spent : List τ) : Prop where
  apart : ∀ x y t, held x = some t → held y = some t → x = y
  kept : ∀ x t, held x = some t → t ∉ spent
  once : spent.Nodup
  settled : ∀ t, t ∈ made ↔ t ∈ spent ∨ ∃ x, held x = some t

theorem Sound.empty : Sound (fun _ : ν => none) ([] : List τ) [] :=
  ⟨nofun, nofun, List.nodup_nil, by simp⟩

theorem Sound.held_or_spent [DecidableEq τ] (h : Sound held made spent) (ht : t ∈ made) :
    (∃ x, held x = some t) ∧ spent.count t = 0 ∨ (¬ ∃ x, held x = some t) ∧ spent.count t = 1 := by
  rcases (h.settled t).mp ht with hspent | ⟨x, hx⟩
  · refine Or.inr ⟨?_, List.count_eq_one_of_mem h.once hspent⟩
    rintro ⟨x, hx⟩
    exact h.kept x t hx hspent
  · exact Or.inl ⟨⟨x, hx⟩, List.count_eq_zero.mpr (h.kept x t hx)⟩

section moves
variable [DecidableEq ν]

theorem update_eq_some {o : Option τ} :
    Function.update held x o z = some t ↔ z = x ∧ o = some t ∨ z ≠ x ∧ held z = some t := by
  by_cases hzx : z = x
  · subst hzx
    simp
  · simp [hzx]

theorem Sound.make (h : Sound held made spent) (hx : held x = none) {o : Option τ}
    (ho : ∀ t ∈ o, t ∉ made) : Sound (Function.update held x o) (made ++ o.toList) spent := by
  have hnew : ∀ t, o = some t → t ∉ spent ∧ ∀ z, held z ≠ some t := by
    intro t ht
    have hmade := ho t ht
    rw [h.settled, not_or, not_exists] at hmade
    exact hmade
  refine ⟨?_, ?_, h.once, ?_⟩
  · intro a b u ha hb
    rw [update_eq_some] at ha hb
    grind [h.apart a b u]
  · intro a u ha
    rw [update_eq_some] at ha
    grind [h.kept a u]
  · intro u
    have hsettled := h.settled u
    simp only [update_eq_some, List.mem_append, Option.mem_toList]
    grind

theorem Sound.spend (h : Sound held made spent) (x : ν) :
    Sound (Function.update held x none) made (spent ++ (held x).toList) := by
  refine ⟨?_, ?_, ?_, ?_⟩
  · intro a b u ha hb
    rw [update_eq_some] at ha hb
    grind [h.apart a b u]
  · intro a u ha
    rw [update_eq_some] at ha
    grind [h.kept a u, h.apart a x u]
  · rw [List.nodup_append]
    refine ⟨h.once, Option.toList_nodup _, ?_⟩
    rintro u hu v hv rfl
    exact h.kept x u (Option.mem_toList.mp hv) hu
  · intro u
    have hsettled := h.settled u
    simp only [update_eq_some, List.mem_append, Option.mem_toList]
    grind

theorem Sound.shift (h : Sound held made spent) (hx : held x = none) :
    Sound (Function.update (Function.update held x (held y)) y none) made spent := by
  refine ⟨?_, ?_, h.once, ?_⟩
  · intro a b u ha hb
    rw [update_eq_some, update_eq_some] at ha hb
    grind [h.apart a b u, h.apart a y u, h.apart y b u]
  · intro a u ha
    rw [update_eq_some, update_eq_some] at ha
    grind [h.kept a u, h.kept y u]
  · intro u
    have hsettled := h.settled u
    simp only [update_eq_some]
    grind

theorem Sound.replace (h : Sound held made spent) (hxy : x ≠ y) :
    Sound (Function.update (Function.update held x (held y)) y none) made
      (spent ++ (held x).toList) := by
  have hshift := (h.spend x).shift (y := y) (Function.update_self ..)
  rwa [Function.update_of_ne hxy.symm, Function.update_idem] at hshift

end moves

end Ledger
