import Embr.Lib.Trace

/-!
# What runs at the end of a block

A destructor runs whichever way its block ends, and a handler that throws again
runs only if the block has thrown.
-/

namespace Interact

variable {Γ : Iface} {α : Type}

namespace Prog

def always (p : Prog Γ α) (fin : Prog Γ Unit) : Prog Γ α := do
  match ← p.attempt with
  | .ok a => do
    fin
    pure a
  | .error e => do
    fin
    .raise e

def onThrow (p : Prog Γ α) (fin : Prog Γ Unit) : Prog Γ α := do
  match ← p.attempt with
  | .ok a => pure a
  | .error e => do
    fin
    .raise e

end Prog

section rules
variable {E : Env Γ} {I : Option Γ.Op → Γ.Store → Prop} {X Y : Γ.Exc → Γ.Store → Prop}
  {Q R : α → Γ.Store → Prop} {p : Prog Γ α} {fin : Prog Γ Unit} {s : Γ.Store}

theorem Sat.onThrow (h : Sat E I Y p Q s)
    (hfin : ∀ e t, Y e t → Sat E I X fin (fun _ u => X e u) t) : Sat E I X (p.onThrow fin) Q s := by
  refine Sat.andThen h.attempt fun r t ht => ?_
  obtain ⟨hpoint, ht⟩ := ht
  cases r with
  | ok a => exact ⟨hpoint, ht⟩
  | error e =>
    refine Sat.andThen ((hfin e t ht).ends.throws fun _ _ hx => hx.2) fun _ u hu => ?_
    exact sat_raise.mpr hu

theorem Sat.always (h : Sat E I Y p R s)
    (hthrow : ∀ e t, Y e t → Sat E I X fin (fun _ u => X e u) t)
    (hret : ∀ a t, R a t → Sat E I X fin (fun _ u => Q a u) t) :
    Sat E I X (p.always fin) Q s := by
  refine Sat.andThen h.attempt fun r t ht => ?_
  cases r with
  | ok a =>
    exact Sat.andThen ((hret a t ht.2).ends.throws fun _ _ hx => hx.2) fun _ u hu => sat_pure.mpr hu
  | error e =>
    exact Sat.andThen ((hthrow e t ht.2).ends.throws fun _ _ hx => hx.2) fun _ u hu => sat_raise.mpr hu

end rules

theorem Trace.onThrow {E : Env Γ} {p : Prog Γ α} {fin : Prog Γ Unit} {e : Γ.Exc} {s t u : Γ.Store}
    {l l' : List (Label Γ)} (h : Trace E p s l (.raise e) t) (hfin : Trace E fin t l' (.ret ()) u) :
    Trace E (p.onThrow fin) s (l ++ l') (.raise e) u :=
  h.attempt.andThen (hfin.bind fun _ => .raise e)

end Interact
