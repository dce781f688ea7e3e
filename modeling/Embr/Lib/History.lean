import Embr.Lib.Logic

/-!
# Histories of calls

A component is used by one call after another. A `History` lists the calls that
have ended, each with the stores around it and how it ended; a run of the next call
may be at any point.
-/

namespace Interact

variable {Γ : Iface} {ι α : Type}

structure Record (Γ : Iface) (ι α : Type) where
  call : ι
  before : Γ.Store
  after : Γ.Store
  outcome : Except Γ.Exc α

inductive History (E : Env Γ) (run : ι → Prog Γ α) (init : Γ.Store → Prop) :
    List (Record Γ ι α) → Γ.Store → Prop where
  | start {s : Γ.Store} : init s → History E run init [] s
  | returned {h : List (Record Γ ι α)} {s t : Γ.Store} {a : α} (i : ι) :
      History E run init h s → Reaches E (run i, s) (.ret a, t) →
      History E run init (h ++ [⟨i, s, t, .ok a⟩]) t
  | raised {h : List (Record Γ ι α)} {s t : Γ.Store} {e : Γ.Exc} (i : ι) :
      History E run init h s → Reaches E (run i, s) (.raise e, t) →
      History E run init (h ++ [⟨i, s, t, .error e⟩]) t

theorem History.inv {E : Env Γ} {run : ι → Prog Γ α} {init : Γ.Store → Prop}
    {I : Option Γ.Op → Γ.Store → Prop} {Inv : List (Record Γ ι α) → Γ.Store → Prop}
    {h : List (Record Γ ι α)} {s : Γ.Store} (hs : History E run init h s)
    (hinit : ∀ s, init s → Inv [] s)
    (hcall : ∀ h s i, Inv h s → Sat E I (fun e t => Inv (h ++ [⟨i, s, t, .error e⟩]) t) (run i)
      (fun a t => Inv (h ++ [⟨i, s, t, .ok a⟩]) t) s) : Inv h s := by
  induction hs with
  | start h => exact hinit _ h
  | returned i _ hr ih => exact (hcall _ _ i ih).returned hr
  | raised i _ hr ih => exact (hcall _ _ i ih).raised hr

end Interact
