import Embr.Lib.Bytes

/-!
# Decoders whose reads are not checked

A decoder looks at a byte string from some position on. A check fails when there are not enough
bytes left, a read does not check anything, and room is made for a number of values. What is
answered, which positions are read and what room is made are three readings of the same text; a
decoder is careful if it reads nothing behind the end and makes no more room than there are bytes
to fill it.
-/

open Octets
namespace Decode

variable {ε α β : Type}

inductive Decoder (ε α : Type) where
  | ret (a : α)
  | fail (e : ε)
  | need (n : ℕ) (k : Decoder ε α)
  | take (n : ℕ) (k : Bytes → Decoder ε α)
  | room (n : ℕ) (k : Decoder ε α)

namespace Decoder

def bind : Decoder ε α → (α → Decoder ε β) → Decoder ε β
  | .ret a, g => g a
  | .fail e, _ => .fail e
  | .need n k, g => .need n (bind k g)
  | .take n k, g => .take n fun bs => bind (k bs) g
  | .room n k, g => .room n (bind k g)

instance : Monad (Decoder ε) where
  pure := .ret
  bind := bind

/-- What is answered, and the position behind it. -/
def run (short : ε) (data : Bytes) : Decoder ε α → ℕ → Except ε (α × ℕ)
  | .ret a, pos => .ok (a, pos)
  | .fail e, _ => .error e
  | .need n k, pos => if data.length < pos + n then .error short else run short data k pos
  | .take n k, pos => run short data (k (slice data pos n)) (pos + n)
  | .room _ k, pos => run short data k pos

/-- The positions that are read. -/
def reads (data : Bytes) : Decoder ε α → ℕ → List ℕ
  | .ret _, _ => []
  | .fail _, _ => []
  | .need n k, pos => if data.length < pos + n then [] else reads data k pos
  | .take n k, pos => List.range' pos n ++ reads data (k (slice data pos n)) (pos + n)
  | .room _ k, pos => reads data k pos

/-- The numbers of values that room is made for. -/
def rooms (data : Bytes) : Decoder ε α → ℕ → List ℕ
  | .ret _, _ => []
  | .fail _, _ => []
  | .need n k, pos => if data.length < pos + n then [] else rooms data k pos
  | .take n k, pos => rooms data (k (slice data pos n)) (pos + n)
  | .room n k, pos => n :: rooms data k pos

theorem run_bind (short : ε) (data : Bytes) (d : Decoder ε α) (g : α → Decoder ε β) (pos : ℕ) :
    (d >>= g).run short data pos =
      (d.run short data pos >>= fun x => (g x.1).run short data x.2) := by
  change (d.bind g).run short data pos = _
  induction d generalizing pos with
  | ret a => rfl
  | fail e => rfl
  | need n k ih =>
    rw [bind, run, run]
    split_ifs
    · rfl
    · exact ih pos
  | take n k ih => exact ih _ _
  | room n k ih => exact ih pos

@[simp] theorem run_pure (short : ε) (data : Bytes) (a : α) (pos : ℕ) :
    (pure a : Decoder ε α).run short data pos = .ok (a, pos) := rfl

theorem rooms_bind {short : ε} {data : Bytes} {d : Decoder ε α} {g : α → Decoder ε β} {pos : ℕ}
    {x : α × ℕ} (h : d.run short data pos = .ok x) :
    (d >>= g).rooms data pos = d.rooms data pos ++ (g x.1).rooms data x.2 := by
  change (d.bind g).rooms data pos = _
  induction d generalizing pos with
  | ret a =>
    cases h
    rfl
  | fail e => cases h
  | need n k ih =>
    rw [run] at h
    rw [bind, rooms, rooms]
    split_ifs at h ⊢
    exact ih h
  | take n k ih => exact ih _ h
  | room n k ih => exact congrArg (n :: ·) (ih h)

/-- Nothing behind the end is read, and each value that room is made for has `size` bytes. -/
structure Careful (size : ℕ) (d : Decoder ε α) : Prop where
  inside : ∀ data pos, ∀ i ∈ d.reads data pos, i < data.length
  fits : ∀ data pos, ∀ n ∈ d.rooms data pos, n * size ≤ data.length

namespace Careful
variable {size n : ℕ} {d : Decoder ε α}

theorem pure (a : α) : Careful size (Pure.pure a : Decoder ε α) :=
  ⟨fun _ _ _ h => absurd h List.not_mem_nil, fun _ _ _ h => absurd h List.not_mem_nil⟩

theorem read {k : Bytes → Decoder ε α} (h : ∀ bs, Careful size (k bs)) :
    Careful size (.need n (.take n k)) where
  inside data pos i hi := by
    rw [reads] at hi
    split_ifs at hi with hshort
    · cases hi
    · rw [reads] at hi
      rcases List.mem_append.mp hi with hi | hi
      · have hrange := (List.mem_range'_1.mp hi).2
        omega
      · exact (h _).inside data _ i hi
  fits data pos m hm := by
    rw [rooms] at hm
    split_ifs at hm
    · cases hm
    · exact (h _).fits data _ m hm

theorem room (h : Careful size d) : Careful size (.need (n * size) (.room n d)) where
  inside data pos i hi := by
    rw [reads] at hi
    split_ifs at hi
    · cases hi
    · exact h.inside data pos i hi
  fits data pos m hm := by
    rw [rooms] at hm
    split_ifs at hm with hshort
    · cases hm
    · rw [rooms] at hm
      rcases List.mem_cons.mp hm with rfl | hm
      · omega
      · exact h.fits data pos m hm

theorem bind {g : α → Decoder ε β} (h : Careful size d) (hg : ∀ a, Careful size (g a)) :
    Careful size (d >>= g) := by
  obtain ⟨hinside, hfits⟩ := h
  refine ⟨fun data pos => ?_, fun data pos => ?_⟩
  · have hreads := hinside data pos
    clear hinside hfits
    change ∀ i ∈ (d.bind g).reads data pos, i < data.length
    induction d generalizing pos with
    | ret a => exact (hg a).inside data pos
    | fail e => exact hreads
    | need n k ih =>
      rw [Decoder.bind, reads]
      rw [reads] at hreads
      split_ifs with hshort
      · exact List.forall_mem_nil _
      · rw [if_neg hshort] at hreads
        exact ih pos hreads
    | take n k ih =>
      rw [Decoder.bind, reads]
      rw [reads, List.forall_mem_append] at hreads
      exact List.forall_mem_append.mpr ⟨hreads.1, ih _ _ hreads.2⟩
    | room n k ih => exact ih pos hreads
  · have hrooms := hfits data pos
    clear hinside hfits
    change ∀ m ∈ (d.bind g).rooms data pos, m * size ≤ data.length
    induction d generalizing pos with
    | ret a => exact (hg a).fits data pos
    | fail e => exact hrooms
    | need n k ih =>
      rw [Decoder.bind, rooms]
      rw [rooms] at hrooms
      split_ifs with hshort
      · exact List.forall_mem_nil _
      · rw [if_neg hshort] at hrooms
        exact ih pos hrooms
    | take n k ih => exact ih _ _ hrooms
    | room n k ih =>
      rw [Decoder.bind, rooms]
      rw [rooms, List.forall_mem_cons] at hrooms
      exact List.forall_mem_cons.mpr ⟨hrooms.1, ih pos hrooms.2⟩

end Careful

end Decoder

end Decode
