import Embr.Lib.Bytes
import Mathlib.Data.List.TakeWhile

/-!
# Texts

Searching a text for another, and decimal numerals.
-/

open Octets
namespace Text

section find
variable {α : Type} [DecidableEq α] {needle l pre rest pre' rest' : List α} {c : α} {i : ℕ}

def find (needle : List α) : List α → Option ℕ
  | [] => if needle = [] then some 0 else none
  | x :: xs => if needle <+: x :: xs then some 0 else (find needle xs).map (· + 1)

/-- `needle` stands in `l` after `pre` and before `rest`, and nowhere earlier. -/
structure Splits (needle l pre rest : List α) : Prop where
  eq : l = pre ++ needle ++ rest
  first : ∀ i < pre.length, ¬ needle <+: l.drop i

theorem Splits.find (h : Splits needle l pre rest) : find needle l = some pre.length := by
  obtain ⟨rfl, hfirst⟩ := h
  induction pre with
  | nil =>
    have hpre : needle <+: needle ++ rest := List.prefix_append ..
    rw [List.nil_append]
    cases hl : needle ++ rest with
    | nil =>
      rw [Text.find, if_pos (List.append_eq_nil_iff.mp hl).1]
      rfl
    | cons x xs =>
      rw [Text.find, if_pos (hl ▸ hpre)]
      rfl
  | cons x pre ih =>
    have hno : ¬ needle <+: x :: (pre ++ needle ++ rest) := hfirst 0 (Nat.succ_pos _)
    rw [List.cons_append, List.cons_append, Text.find, if_neg hno, ih]
    · rfl
    · intro i hi
      exact hfirst (i + 1) (Nat.succ_lt_succ hi)

theorem find_splits (h : find needle l = some i) :
    Splits needle l (l.take i) (l.drop (i + needle.length)) := by
  induction l generalizing i with
  | nil =>
    rw [find] at h
    split_ifs at h with hnil
    cases h
    exact ⟨by simp [hnil], nofun⟩
  | cons x xs ih =>
    rw [find] at h
    split_ifs at h with hpre
    · cases h
      obtain ⟨r, hr⟩ := hpre
      refine ⟨?_, nofun⟩
      rw [← hr, Nat.zero_add, List.drop_left, List.take_zero, List.nil_append]
    · obtain ⟨j, hj, rfl⟩ := Option.map_eq_some_iff.mp h
      obtain ⟨heq, hfirst⟩ := ih hj
      refine ⟨?_, fun k hk => ?_⟩
      · rw [Nat.add_right_comm, List.take_succ_cons, List.drop_succ_cons, List.cons_append,
          List.cons_append, ← heq]
      · cases k with
        | zero => exact hpre
        | succ k =>
          rw [List.take_succ_cons, List.length_cons] at hk
          exact hfirst k (Nat.lt_of_succ_lt_succ hk)

theorem Splits.unique (h : Splits needle l pre rest) (h' : Splits needle l pre' rest') :
    pre = pre' ∧ rest = rest' := by
  have hlen : pre.length = pre'.length := Option.some.inj (h.find.symm.trans h'.find)
  have heq := h.eq.symm.trans h'.eq
  rw [List.append_assoc, List.append_assoc] at heq
  obtain ⟨hpre, hrest⟩ := List.append_inj heq hlen
  exact ⟨hpre, List.append_cancel_left hrest⟩

omit [DecidableEq α] in
theorem Splits.drop (h : Splits needle l pre rest) : l.drop (pre.length + needle.length) = rest := by
  rw [h.eq, ← List.length_append, List.drop_left]

omit [DecidableEq α] in
theorem splits_singleton : Splits [c] l pre rest ↔ l = pre ++ c :: rest ∧ c ∉ pre := by
  constructor
  · rintro ⟨rfl, hfirst⟩
    refine ⟨by simp, fun hmem => ?_⟩
    obtain ⟨i, hi, rfl⟩ := List.getElem_of_mem hmem
    refine hfirst i hi ?_
    rw [List.append_assoc, List.drop_append_of_le_length hi.le, List.drop_eq_getElem_cons hi]
    exact ⟨_, rfl⟩
  · rintro ⟨rfl, hmem⟩
    refine ⟨by simp, fun i hi hpre => ?_⟩
    rw [List.drop_append_of_le_length hi.le, List.drop_eq_getElem_cons hi] at hpre
    obtain ⟨r, hr⟩ := hpre
    injection hr with hc
    exact hmem (hc ▸ List.getElem_mem hi)

omit [DecidableEq α] in
theorem exists_splits_singleton (h : c ∈ l) : ∃ pre rest, Splits [c] l pre rest := by
  obtain ⟨pre, rest, heq, hmem⟩ := List.eq_append_cons_of_mem h
  exact ⟨pre, rest, splits_singleton.mpr ⟨heq, hmem⟩⟩

omit [DecidableEq α] in
theorem cons_prefix_iff {x y : List α} (hpre : c ∉ pre) (hpre' : c ∉ pre') :
    pre ++ c :: x <+: pre' ++ c :: y ↔ pre = pre' ∧ x <+: y := by
  induction pre generalizing pre' with
  | nil =>
    cases pre' with
    | nil => simp
    | cons d pre' =>
      have hne : c ≠ d := fun hcd => hpre' (hcd ▸ List.mem_cons_self)
      simp [List.cons_prefix_cons, hne]
  | cons d pre ih =>
    cases pre' with
    | nil =>
      have hne : d ≠ c := fun hdc => hpre (hdc ▸ List.mem_cons_self)
      simp [List.cons_prefix_cons, hne]
    | cons d' pre' =>
      rw [List.mem_cons, not_or] at hpre hpre'
      simp [List.cons_prefix_cons, ih hpre.2 hpre'.2, and_assoc]

theorem takeWhile_append_cons (l rest : List α) (c : α) :
    (l ++ c :: rest).takeWhile (· ≠ c) = l.takeWhile (· ≠ c) := by
  rw [List.takeWhile_append, List.takeWhile_cons_of_neg (by simp), List.append_nil]
  split_ifs with hall
  · exact ((List.takeWhile_prefix _).eq_of_length hall).symm
  · rfl

theorem takeWhile_ne_self : l.takeWhile (· ≠ c) = l ↔ c ∉ l := by
  rw [List.takeWhile_eq_self_iff]
  constructor
  · intro h hmem
    simpa using h c hmem
  · intro h d hd
    have hne : d ≠ c := fun hdc => h (hdc ▸ hd)
    simpa using hne

theorem Splits.takeWhile (h : Splits [c] l pre rest) : l.takeWhile (· ≠ c) = pre := by
  obtain ⟨rfl, hmem⟩ := splits_singleton.mp h
  rw [takeWhile_append_cons, takeWhile_ne_self.mpr hmem]

theorem find_singleton_none (h : c ∉ l) : find [c] l = none := by
  cases hfind : find [c] l with
  | none => rfl
  | some i =>
    have hl := (splits_singleton.mp (find_splits hfind)).1
    exact (h (by rw [hl]; simp)).elim

theorem find_singleton_some (h : c ∈ l) :
    ∃ i, find [c] l = some i ∧ l.take i = l.takeWhile (· ≠ c) := by
  obtain ⟨pre, rest, hs⟩ := exists_splits_singleton h
  refine ⟨pre.length, hs.find, ?_⟩
  rw [hs.takeWhile, hs.eq, List.append_assoc, List.take_left]

def Misses (needle x y : List α) : Prop := ∀ i < x.length, ¬ needle <+: (x ++ y).drop i

namespace Misses
variable {x y z : List α}

omit [DecidableEq α] in
theorem nil : Misses needle [] y := nofun

omit [DecidableEq α] in
theorem cons (h : ¬ needle <+: c :: (x ++ y)) (hx : Misses needle x y) :
    Misses needle (c :: x) y := by
  intro i hi
  cases i with
  | zero => exact h
  | succ i => exact hx i (Nat.lt_of_succ_lt_succ hi)

omit [DecidableEq α] in
theorem append (hx : Misses needle x (y ++ z)) (hy : Misses needle y z) :
    Misses needle (x ++ y) z := by
  induction x with
  | nil => exact hy
  | cons c x ih =>
    refine cons ?_ (ih fun i hi => hx (i + 1) (Nat.succ_lt_succ hi))
    change ¬ needle <+: c :: (x ++ y ++ z)
    rw [List.append_assoc]
    exact hx 0 (Nat.succ_pos _)

omit [DecidableEq α] in
theorem of_notMem (h : c ∉ x) : Misses (c :: needle) x y := by
  induction x with
  | nil => exact nil
  | cons d x ih =>
    rw [List.mem_cons, not_or] at h
    refine cons (fun hpre => ?_) (ih h.2)
    exact h.1 (List.cons_prefix_cons.mp hpre).1

omit [DecidableEq α] in
theorem of_clash (h : ∀ i < x.length, ¬ needle <+: x.drop i ∧ ¬ x.drop i <+: needle) :
    Misses needle x y := by
  intro i hi hpre
  rw [List.drop_append_of_le_length hi.le] at hpre
  obtain ⟨hl, hr⟩ := h i hi
  rcases List.prefix_or_prefix_of_prefix hpre (List.prefix_append ..) with h | h
  · exact hl h
  · exact hr h

omit [DecidableEq α] in
theorem splits (h : Misses needle pre (needle ++ rest)) :
    Splits needle (pre ++ needle ++ rest) pre rest := by
  refine ⟨rfl, fun i hi => ?_⟩
  rw [List.append_assoc]
  exact h i hi

theorem find_none (hne : needle ≠ []) (h : Misses needle l []) : find needle l = none := by
  cases hfind : find needle l with
  | none => rfl
  | some i =>
    obtain ⟨heq, -⟩ := find_splits hfind
    have hlen := congrArg List.length heq
    have hpos := List.length_pos_of_ne_nil hne
    simp only [List.length_append, List.length_take, List.length_drop] at hlen
    refine (h i (by omega) ?_).elim
    have hdrop : l.drop i = needle ++ l.drop (i + needle.length) := by
      conv_lhs => rw [heq, List.append_assoc]
      rw [List.drop_left' (by rw [List.length_take]; omega)]
    rw [List.append_nil, hdrop]
    exact List.prefix_append ..

end Misses

end find

def ascii (s : String) : Bytes := s.toList.map fun c => UInt8.ofNat c.toNat

def isDigit (b : UInt8) : Bool := 48 ≤ b && b ≤ 57

def isSpace (b : UInt8) : Bool := b = 32 || (9 ≤ b && b ≤ 13)

/-- The number a string of digits stands for. -/
def value (digits : Bytes) : ℕ := digits.foldl (fun v b => 10 * v + (b.toNat - 48)) 0

def decimal (n : ℕ) : Bytes := (Nat.toDigits 10 n).map fun c => UInt8.ofNat c.toNat

def sign : Bytes → Bool × Bytes
  | 43 :: rest => (false, rest)
  | 45 :: rest => (true, rest)
  | rest => (false, rest)

/-- A sign and a number, with which the text begins after some blanks. -/
def numeral (text : Bytes) : Option (Bool × ℕ) :=
  let (negative, rest) := sign (text.dropWhile isSpace)
  let digits := rest.takeWhile isDigit
  if digits = [] then none else some (negative, value digits)

def integer (text : Bytes) : Option ℤ :=
  (numeral text).map fun (negative, n) => if negative then -(n : ℤ) else n

/-- `std::stoul` on 64 bits: a sign is applied modulo `2 ^ 64`, and `none` is an exception. -/
def stoul (text : Bytes) : Option ℕ :=
  match numeral text with
  | none => none
  | some (negative, n) =>
    if 2 ^ 64 ≤ n then none else some (if negative then (2 ^ 64 - n) % 2 ^ 64 else n)

theorem integer_of_stoul {text : Bytes} {v : ℕ} (h : stoul text = some v) :
    ∃ n, integer text = some n ∧ (v : ℤ) = n % 2 ^ 64 := by
  rw [stoul] at h
  rw [integer]
  cases hn : numeral text with
  | none =>
    rw [hn] at h
    cases h
  | some p =>
    obtain ⟨negative, n⟩ := p
    rw [hn] at h
    dsimp only at h
    split_ifs at h with hbig hneg
    · cases h
      refine ⟨-n, ?_, by omega⟩
      simp [hneg]
    · cases h
      refine ⟨v, ?_, by omega⟩
      simp [hneg]

section decimal
variable {n : ℕ} {b : UInt8}

theorem digit_range {c : Char} (h : c ∈ Nat.toDigits 10 n) : 48 ≤ c.toNat ∧ c.toNat ≤ 57 := by
  have hdigit := Nat.isDigit_of_mem_toDigits (by decide) (by decide) h
  simpa [Char.isDigit, UInt32.le_iff_toNat_le] using hdigit

theorem decimal_digit (h : b ∈ decimal n) : isDigit b = true := by
  obtain ⟨c, hc, rfl⟩ := List.mem_map.mp h
  obtain ⟨hl, hu⟩ := digit_range hc
  have hbyte : (UInt8.ofNat c.toNat).toNat = c.toNat := UInt8.toNat_ofNat_of_lt' (by
    change _ < 256
    omega)
  simp only [isDigit, Bool.and_eq_true, decide_eq_true_eq, UInt8.le_iff_toNat_le, hbyte]
  exact ⟨hl, hu⟩

theorem decimal_ne_nil : decimal n ≠ [] := by
  simp [decimal]

theorem value_decimal (n : ℕ) : value (decimal n) = n := by
  have hmap : ∀ (l : List Char) (v : ℕ), (∀ c ∈ l, 48 ≤ c.toNat ∧ c.toNat ≤ 57) →
      (l.map fun c => UInt8.ofNat c.toNat).foldl (fun v b => 10 * v + (b.toNat - 48)) v =
        Nat.ofDigitChars 10 l v := by
    intro l
    induction l with
    | nil => simp
    | cons c l ih =>
      intro v hl
      obtain ⟨-, hu⟩ := hl c List.mem_cons_self
      have hbyte : (UInt8.ofNat c.toNat).toNat = c.toNat := UInt8.toNat_ofNat_of_lt' (by
        change _ < 256
        omega)
      rw [List.map_cons, List.foldl_cons, hbyte, Nat.ofDigitChars_cons]
      exact ih _ fun d hd => hl d (List.mem_cons_of_mem _ hd)
  rw [value, decimal, hmap _ _ fun c hc => digit_range hc, Nat.ofDigitChars_ten_toDigits]

theorem numeral_digits {digits rest : Bytes} (hne : digits ≠ [])
    (hdigit : ∀ b ∈ digits, isDigit b = true) (hrest : ∀ b ∈ rest.head?, isDigit b = false) :
    numeral (digits ++ rest) = some (false, value digits) := by
  obtain ⟨b, ds, hds⟩ := List.exists_cons_of_ne_nil hne
  have hb : isDigit b = true := hdigit b (hds ▸ List.mem_cons_self)
  have hrange : 48 ≤ b ∧ b ≤ 57 := by simpa [isDigit] using hb
  have hspace : isSpace b = false := by
    simp only [isSpace, Bool.or_eq_false_iff, Bool.and_eq_false_iff, decide_eq_false_iff_not,
      UInt8.le_iff_toNat_le] at hrange ⊢
    refine ⟨?_, .inr ?_⟩
    · rintro rfl
      simp at hrange
    · simp at hrange ⊢
      omega
  have hdigits : (digits ++ rest).takeWhile isDigit = digits := by
    rw [List.takeWhile_append_of_pos hdigit]
    cases rest with
    | nil => simp
    | cons c rest =>
      have hc := hrest c rfl
      rw [List.takeWhile_cons_of_neg (by simp [hc]), List.append_nil]
  have hplus : b ≠ 43 := by
    rintro rfl
    simp at hrange
  have hminus : b ≠ 45 := by
    rintro rfl
    simp at hrange
  have hdrop : (digits ++ rest).dropWhile isSpace = digits ++ rest := by
    rw [hds, List.cons_append, List.dropWhile_cons_of_neg (by simp [hspace])]
  have hsign : sign (digits ++ rest) = (false, digits ++ rest) := by
    rw [hds, List.cons_append]
    unfold sign
    split
    · next heq => exact (hplus (List.cons.inj heq).1).elim
    · next heq => exact (hminus (List.cons.inj heq).1).elim
    · rfl
  rw [numeral, hdrop, hsign]
  dsimp only
  rw [hdigits, if_neg hne]

theorem numeral_decimal (n : ℕ) {rest : Bytes} (hrest : ∀ b ∈ rest.head?, isDigit b = false) :
    numeral (decimal n ++ rest) = some (false, n) := by
  rw [numeral_digits decimal_ne_nil (fun _ => decimal_digit) hrest, value_decimal]

theorem stoul_digits {digits rest : Bytes} (hne : digits ≠ [])
    (hdigit : ∀ b ∈ digits, isDigit b = true) (hrest : ∀ b ∈ rest.head?, isDigit b = false) :
    stoul (digits ++ rest) = if 2 ^ 64 ≤ value digits then none else some (value digits) := by
  rw [stoul, numeral_digits hne hdigit hrest]
  simp only [Bool.false_eq_true, if_false]

theorem stoul_decimal (hn : n < 2 ^ 64) {rest : Bytes}
    (hrest : ∀ b ∈ rest.head?, isDigit b = false) : stoul (decimal n ++ rest) = some n := by
  rw [stoul_digits decimal_ne_nil (fun _ => decimal_digit) hrest, value_decimal,
    if_neg (Nat.not_le.mpr hn)]

end decimal

end Text
