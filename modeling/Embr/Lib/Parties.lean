import Embr.Lib.History

/-!
# Two parties that make calls

A party makes one call after another and may be in the middle of one. Two parties
take steps in any order, and what a call may be answered depends on the store of
the other side.
-/

namespace Interact

variable {Γ : Iface} {ι α : Type}

/-- The calls that have ended, and the one it is in with the store before it. -/
structure Party (Γ : Iface) (ι α : Type) where
  past : List (Record Γ ι α)
  turn : Option (ι × Γ.Store × Prog Γ α)
  store : Γ.Store

namespace Party

def idle (h : List (Record Γ ι α)) (s : Γ.Store) : Party Γ ι α := ⟨h, none, s⟩

def busy (h : List (Record Γ ι α)) (i : ι) (b : Γ.Store) (p : Prog Γ α) (s : Γ.Store) :
    Party Γ ι α := ⟨h, some (i, b, p), s⟩

def rest (x : Party Γ ι α) : Γ.Store := (x.turn.map fun c => c.2.1).getD x.store

@[simp] theorem rest_idle (h : List (Record Γ ι α)) (s : Γ.Store) : (idle h s).rest = s := rfl

@[simp] theorem rest_busy (h : List (Record Γ ι α)) (i : ι) (b : Γ.Store) (p : Prog Γ α)
    (s : Γ.Store) : (busy h i b p s).rest = b := rfl

inductive Moves (E : Env Γ) (run : ι → Prog Γ α) : Party Γ ι α → Party Γ ι α → Prop where
  | begins {h : List (Record Γ ι α)} {s : Γ.Store} (i : ι) :
      Moves E run (idle h s) (busy h i s (run i) s)
  | steps {h : List (Record Γ ι α)} {i : ι} {b s t : Γ.Store} {p q : Prog Γ α} :
      Step E (p, s) (q, t) → Moves E run (busy h i b p s) (busy h i b q t)
  | returns {h : List (Record Γ ι α)} {i : ι} {b s : Γ.Store} {a : α} :
      Moves E run (busy h i b (.ret a) s) (idle (h ++ [⟨i, b, s, .ok a⟩]) s)
  | raises {h : List (Record Γ ι α)} {i : ι} {b s : Γ.Store} {e : Γ.Exc} :
      Moves E run (busy h i b (.raise e) s) (idle (h ++ [⟨i, b, s, .error e⟩]) s)

section call
variable {E : Env Γ} {run : ι → Prog Γ α}

theorem Moves.call {h : List (Record Γ ι α)} {i : ι} {s t : Γ.Store} {a : α}
    (hr : Reaches E (run i, s) (.ret a, t)) :
    Relation.ReflTransGen (Moves E run) (Party.idle h s) (Party.idle (h ++ [⟨i, s, t, .ok a⟩]) t) := by
  have hinside : ∀ c : Config Γ α, Reaches E (run i, s) c → Relation.ReflTransGen (Moves E run)
      (Party.busy h i s (run i) s) (Party.busy h i s c.1 c.2) := by
    intro c hc
    induction hc with
    | refl => exact .refl
    | tail _ hs ih => exact ih.tail (.steps hs)
  exact .head (.begins i) ((hinside _ hr).tail .returns)

end call

end Party

inductive Talks (E : Γ.Store → Env Γ) (run : ι → Prog Γ α) :
    Party Γ ι α × Party Γ ι α → Party Γ ι α × Party Γ ι α → Prop where
  | left {x x' y : Party Γ ι α} : x.Moves (E y.store) run x' → Talks E run (x, y) (x', y)
  | right {x y y' : Party Γ ι α} : y.Moves (E x.store) run y' → Talks E run (x, y) (x, y')

abbrev Talk (E : Γ.Store → Env Γ) (run : ι → Prog Γ α) :
    Party Γ ι α × Party Γ ι α → Party Γ ι α × Party Γ ι α → Prop :=
  Relation.ReflTransGen (Talks E run)

section both
variable {E : Γ.Store → Env Γ} {run : ι → Prog Γ α} {c d : Party Γ ι α × Party Γ ι α}
  {x x' y y' : Party Γ ι α}

theorem Talk.left (h : Relation.ReflTransGen (Party.Moves (E y.store) run) x x') :
    Talk E run (x, y) (x', y) := by
  induction h with
  | refl => exact .refl
  | tail _ hm ih => exact ih.tail (.left hm)

theorem Talk.right (h : Relation.ReflTransGen (Party.Moves (E x.store) run) y y') :
    Talk E run (x, y) (x, y') := by
  induction h with
  | refl => exact .refl
  | tail _ hm ih => exact ih.tail (.right hm)

theorem Talk.inv {W : Party Γ ι α → Γ.Store → Prop}
    (hown : ∀ x x' y, W x y.store → W y x.store → x.Moves (E y.store) run x' →
      W x' y.store ∧ W y x'.store)
    (h : Talk E run c d) (hl : W c.1 c.2.store) (hr : W c.2 c.1.store) :
    W d.1 d.2.store ∧ W d.2 d.1.store := by
  induction h with
  | refl => exact ⟨hl, hr⟩
  | tail _ hs ih =>
    cases hs with
    | left hm => exact hown _ _ _ ih.1 ih.2 hm
    | right hm => exact (hown _ _ _ ih.2 ih.1 hm).symm

end both

end Interact
