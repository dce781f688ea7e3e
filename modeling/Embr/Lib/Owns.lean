import Embr.Lib.Scoped

/-!
# What a program is given and what it hands on

A store `has` an account, of any type. A program that owns one ends with the account it
hands on, or by an exception with the one it leaves behind, and no call is made at a point
where it may not be.
-/

namespace Interact

variable {Γ : Iface} {A α β : Type}

structure Books (Γ : Iface) (A : Type) where
  env : Env Γ
  point : Option Γ.Op → Γ.Store → Prop
  has : A → Γ.Store → Prop
  quiet : ∀ s, point none s

namespace Books
variable {b : Books Γ A} {a c m : A} {p : Prog Γ α} {g : α → Prog Γ β} {fin : Prog Γ Unit}
  {post mid : α → A} {next : β → A}

def Owns (b : Books Γ A) (a : A) (p : Prog Γ α) (c : A) (post : α → A) : Prop :=
  ∀ s, b.has a s → Sat b.env b.point (fun _ => b.has c) p (fun x => b.has (post x)) s

theorem owns_pure {x : α} (h : a = post x) : b.Owns a (pure x) c post :=
  fun s hs => sat_pure.mpr ⟨b.quiet s, h ▸ hs⟩

theorem owns_raise {e : Γ.Exc} : b.Owns c (.raise e) c post :=
  fun s h => sat_raise.mpr ⟨b.quiet s, h⟩

theorem Owns.bind (h : b.Owns a p c mid) (hg : ∀ x, b.Owns (mid x) (g x) c next) :
    b.Owns a (p >>= g) c next :=
  fun s hs => Sat.andThen (h s hs) fun x t ht => hg x t ht

theorem owns_ask {o : Γ.Op} {post : Γ.Reply o → A} (hpoint : ∀ s, b.has a s → b.point (some o) s)
    (hstep : ∀ s r t, b.has a s → b.env o s r t → b.has (post r) t) :
    b.Owns a (Prog.ask o) c post :=
  fun s hs => sat_ask.mpr ⟨hpoint s hs, fun r t hr => ⟨b.quiet t, hstep s r t hs hr⟩⟩

theorem owns_modify {f : Γ.Store → Γ.Store} (h : ∀ s, b.has a s → b.has a (f s)) :
    b.Owns a (Prog.modify f) c fun _ => a :=
  fun s hs => sat_modify.mpr ⟨b.quiet s, b.quiet _, h s hs⟩

theorem owns_get_bind {g : Γ.Store → Prog Γ β} (hg : ∀ s, b.Owns a (g s) c next) :
    b.Owns a (Prog.get >>= g) c next :=
  fun s hs => sat_get_bind.mpr ⟨b.quiet s, hg s s hs⟩

theorem owns_when {φ : Prop} [Decidable φ] {p : Prog Γ Unit} (h : φ → b.Owns a p c fun _ => a) :
    b.Owns a (.when φ p) c fun _ => a :=
  fun s hs => Sat.when (fun hφ => h hφ s hs) fun _ => ⟨b.quiet s, hs⟩

theorem Owns.onThrow (h : b.Owns a p m post) (hfin : b.Owns m fin c fun _ => c) :
    b.Owns a (p.onThrow fin) c post :=
  fun s hs => (h s hs).onThrow fun _ t ht => hfin t ht

theorem Owns.always (h : b.Owns a p m mid) (hthrow : b.Owns m fin c fun _ => c)
    (hret : ∀ x, b.Owns (mid x) fin c fun _ => post x) : b.Owns a (p.always fin) c post :=
  fun s hs => (h s hs).always (fun _ t ht => hthrow t ht) fun x t ht => hret x t ht

theorem Owns.attempt {ended : Except Γ.Exc α → A} (h : b.Owns a p m post)
    (hok : ∀ x, post x = ended (.ok x)) (herr : ∀ e, m = ended (.error e)) :
    b.Owns a p.attempt c ended := by
  intro s hs
  refine (h s hs).attempt.weaken fun r t ht => ?_
  cases r with
  | ok x => exact hok x ▸ ht.2
  | error e => exact herr e ▸ ht.2

end Books

end Interact
