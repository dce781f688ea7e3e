import Embr.Registration

/-!
# Flat objects

What `json_get_str` and `json_get_u16` find in an object that is written without
blanks. Its keys are identifiers, and a value is a text without quotes and
backslashes or a string of digits, so that the text sought can begin only where a
field does.
-/

open Octets Text
namespace Embr.Tracker

def colon : UInt8 := 58
def backslash : UInt8 := 92
def openBrace : UInt8 := 123
def closeBrace : UInt8 := 125

def identStart (c : Char) : Bool := c.isAlpha || c = '_'

def identRest (c : Char) : Bool := c.isAlphanum || c = '_'

def identifier : List Char → Bool
  | [] => false
  | c :: cs => identStart c && cs.all identRest

abbrev Ident := { key : String // identifier key.toList }

inductive Value
  | str (text : Bytes) (plain : quote ∉ text ∧ backslash ∉ text)
  | num (digits : Bytes) (numeral : digits ≠ [] ∧ ∀ b ∈ digits, isDigit b)

def Value.text : Value → Bytes
  | .str text _ => quote :: (text ++ [quote])
  | .num digits _ => digits

abbrev Field := Ident × Value

def Field.text (f : Field) : Bytes := quote :: (ascii f.1 ++ quote :: colon :: f.2.text)

structure Flat where
  fields : List Field
  distinct : (fields.map Prod.fst).Nodup

def fieldsText : List Field → Bytes
  | [] => [closeBrace]
  | [f] => f.text ++ [closeBrace]
  | f :: g :: fs => f.text ++ comma :: fieldsText (g :: fs)

namespace Flat

def text (o : Flat) : Bytes := openBrace :: fieldsText o.fields

def field (o : Flat) (key : Ident) : Option Value := o.fields.lookup key

def str (o : Flat) (key : Ident) : Bytes :=
  match o.field key with
  | some (.str text _) => text
  | _ => []

def u16 (o : Flat) (key : Ident) : ℕ :=
  match o.field key with
  | some (.num digits _) => if value digits ≤ 65535 then value digits else 0
  | _ => 0

end Flat

variable {c : Char} {key : Ident} {f : Field} {fs : List Field} {more rest : Bytes} {sep : UInt8}
  {v : Value} {o : Flat}

theorem identRest_range (h : identRest c) : 48 ≤ c.toNat ∧ c.toNat ≤ 122 ∧ c.toNat ≠ 58 := by
  rw [identRest, Bool.or_eq_true, decide_eq_true_eq] at h
  rcases h with h | rfl
  · change (decide ('A'.val ≤ c.val ∧ c.val ≤ 'Z'.val) ||
      (decide ('a'.val ≤ c.val) && decide (c.val ≤ 'z'.val)) ||
      (decide ('0'.val ≤ c.val) && decide (c.val ≤ '9'.val))) = true at h
    simp only [Bool.or_eq_true, Bool.and_eq_true, decide_eq_true_eq, UInt32.le_iff_toNat_le] at h
    have hval : c.toNat = c.val.toNat := rfl
    have hdigit : '9'.val.toNat = 57 := rfl
    have hupper : 'A'.val.toNat = 65 ∧ 'Z'.val.toNat = 90 := ⟨rfl, rfl⟩
    have hlower : 'a'.val.toNat = 97 ∧ 'z'.val.toNat = 122 := ⟨rfl, rfl⟩
    have hzero : '0'.val.toNat = 48 := rfl
    omega
  · decide

theorem identRest_of_start (h : identStart c) : identRest c := by
  rw [identStart, Bool.or_eq_true, decide_eq_true_eq] at h
  rw [identRest, Char.isAlphanum, Bool.or_eq_true, Bool.or_eq_true, decide_eq_true_eq]
  exact h.imp_left Or.inl

namespace Ident

theorem chars (key : Ident) : ∀ c ∈ key.1.toList, identRest c := by
  obtain ⟨key, hkey⟩ := key
  intro c hc
  dsimp only at hc
  cases hchars : key.toList with
  | nil =>
    rw [hchars] at hc
    cases hc
  | cons d ds =>
    rw [hchars] at hc hkey
    rw [identifier, Bool.and_eq_true, List.all_eq_true] at hkey
    rcases List.mem_cons.mp hc with rfl | hc
    · exact identRest_of_start hkey.1
    · exact hkey.2 c hc

theorem byte (h : identRest c) : (UInt8.ofNat c.toNat).toNat = c.toNat :=
  UInt8.toNat_ofNat_of_lt' (Nat.lt_of_le_of_lt (identRest_range h).2.1 (by decide))

theorem bytes (key : Ident) {b : UInt8} (h : b ∈ ascii key.1) :
    48 ≤ b.toNat ∧ b.toNat ≤ 122 ∧ b.toNat ≠ 58 := by
  obtain ⟨c, hc, rfl⟩ := List.mem_map.mp h
  have hrest := key.chars c hc
  rw [byte hrest]
  exact identRest_range hrest

theorem quote_notMem (key : Ident) : quote ∉ ascii key.1 :=
  fun h => absurd (key.bytes h).1 (by decide)

theorem chars_ascii (key : Ident) :
    (ascii key.1).map (fun b => Char.ofNat b.toNat) = key.1.toList := by
  rw [ascii, List.map_map]
  refine (List.map_congr_left fun c hc => ?_).trans (List.map_id _)
  simp [byte (key.chars c hc)]

theorem ascii_inj {key key' : Ident} (h : ascii key.1 = ascii key'.1) : key = key' := by
  apply Subtype.ext
  apply String.toList_inj.mp
  rw [← chars_ascii, ← chars_ascii, h]

theorem ne_nil (key : Ident) : key.1.toList ≠ [] := by
  obtain ⟨key, hkey⟩ := key
  intro hnil
  dsimp only at hnil
  rw [hnil] at hkey
  cases hkey

theorem not_first (key : Ident) {b : UInt8} (hb : b = colon ∨ b = comma ∨ b = closeBrace) :
    ¬ ascii key.1 ++ more <+: b :: rest := by
  intro hpre
  obtain ⟨c, cs, hchars⟩ := List.exists_cons_of_ne_nil key.ne_nil
  have hfirst : UInt8.ofNat c.toNat ∈ ascii key.1 := by
    rw [ascii, hchars, List.map_cons]
    exact List.mem_cons_self
  have hrange := key.bytes hfirst
  rw [ascii, hchars, List.map_cons, List.cons_append, List.cons_prefix_cons] at hpre
  rw [hpre.1] at hrange
  rcases hb with rfl | rfl | rfl
  · exact hrange.2.2 rfl
  · exact absurd hrange.1 (by decide)
  · exact absurd hrange.2.1 (by decide)

end Ident

def needle (key : Ident) (more : Bytes) : Bytes := quote :: (ascii key.1 ++ quote :: colon :: more)

theorem stringNeedle_eq (key : Ident) : stringNeedle key.1 = needle key [quote] := by
  simp [stringNeedle, needle, ascii, quote, colon]

theorem numberNeedle_eq (key : Ident) : numberNeedle key.1 = needle key [] := by
  simp [numberNeedle, needle, ascii, quote, colon]

def Closes (sep : UInt8) : Prop := sep = comma ∨ sep = closeBrace

theorem text_misses (v : Value) (hsep : Closes sep) :
    Misses (needle key more) v.text (sep :: rest) := by
  cases v with
  | str text plain =>
    refine Misses.cons (fun hpre => ?_) ((Misses.of_notMem plain.1).append ?_)
    · have hvalue : text ++ [quote] ++ sep :: rest = text ++ quote :: sep :: rest := by simp
      rw [needle, List.cons_prefix_cons, hvalue, cons_prefix_iff key.quote_notMem plain.1,
        List.cons_prefix_cons] at hpre
      obtain ⟨-, -, hcolon, -⟩ := hpre
      rcases hsep with rfl | rfl
      · exact absurd hcolon (by decide)
      · exact absurd hcolon (by decide)
    · refine Misses.cons (fun hpre => ?_) Misses.nil
      exact key.not_first (Or.inr hsep) (List.cons_prefix_cons.mp hpre).2
  | num digits numeral =>
    refine Misses.of_notMem fun hquote => ?_
    exact absurd (numeral.2 quote hquote) (by decide)

theorem field_misses (hsep : Closes sep) (h : f.1 = key → ¬ more <+: f.2.text ++ sep :: rest) :
    Misses (needle key more) f.text (sep :: rest) := by
  refine Misses.cons (fun hpre => ?_) ((Misses.of_notMem f.1.quote_notMem).append ?_)
  · rw [needle, List.cons_prefix_cons, List.append_assoc, List.cons_append,
      cons_prefix_iff key.quote_notMem f.1.quote_notMem, List.cons_append,
      List.cons_prefix_cons] at hpre
    obtain ⟨-, hkey, -, hmore⟩ := hpre
    exact h (Ident.ascii_inj hkey).symm hmore
  · refine Misses.cons (fun hpre => ?_) (Misses.cons (fun hpre => ?_) (text_misses f.2 hsep))
    · exact key.not_first (Or.inl rfl) (List.cons_prefix_cons.mp hpre).2
    · exact absurd (List.cons_prefix_cons.mp hpre).1 (by decide)

def fieldsTail : List Field → Bytes
  | [] => [closeBrace]
  | f :: fs => comma :: fieldsText (f :: fs)

theorem fieldsText_cons (f : Field) (fs : List Field) :
    fieldsText (f :: fs) = f.text ++ fieldsTail fs := by
  cases fs <;> rfl

theorem fieldsTail_eq (fs : List Field) : ∃ sep rest, fieldsTail fs = sep :: rest ∧ Closes sep := by
  cases fs with
  | nil => exact ⟨_, _, rfl, Or.inr rfl⟩
  | cons f fs => exact ⟨_, _, rfl, Or.inl rfl⟩

theorem fieldsTail_misses (h : Misses (needle key more) (fieldsText fs) rest) :
    Misses (needle key more) (fieldsTail fs) rest := by
  cases fs with
  | nil => exact h
  | cons f fs =>
    refine Misses.cons (fun hpre => ?_) h
    exact absurd (List.cons_prefix_cons.mp hpre).1 (by decide)

theorem fieldsText_misses
    (h : ∀ f ∈ fs, f.1 = key → ∀ rest, ¬ more <+: f.2.text ++ rest) :
    Misses (needle key more) (fieldsText fs) [] := by
  induction fs with
  | nil =>
    refine Misses.cons (fun hpre => ?_) Misses.nil
    exact absurd (List.cons_prefix_cons.mp hpre).1 (by decide)
  | cons f fs ih =>
    rw [fieldsText_cons]
    obtain ⟨sep, rest, htail, hsep⟩ := fieldsTail_eq fs
    refine Misses.append ?_ (fieldsTail_misses (ih fun g hg => h g (List.mem_cons_of_mem f hg)))
    rw [List.append_nil, htail]
    exact field_misses hsep fun hkey => h f List.mem_cons_self hkey _

theorem fieldsText_found {w : Bytes} (hfield : fs.lookup key = some v) (hv : v.text = more ++ w) :
    ∃ pre sep rest, Closes sep ∧ fieldsText fs = pre ++ needle key more ++ (w ++ sep :: rest) ∧
      Misses (needle key more) pre (needle key more ++ (w ++ sep :: rest)) := by
  induction fs with
  | nil => cases hfield
  | cons f fs ih =>
    obtain ⟨sep, rest, htail, hsep⟩ := fieldsTail_eq fs
    obtain ⟨k, u⟩ := f
    by_cases hkey : key = k
    · subst hkey
      rw [List.lookup_cons_self] at hfield
      cases hfield
      refine ⟨[], sep, rest, hsep, ?_, Misses.nil⟩
      rw [fieldsText_cons, htail]
      simp [Field.text, needle, hv]
    · have hrest : fs.lookup key = some v := by
        rw [List.lookup_cons, beq_false_of_ne hkey] at hfield
        exact hfield
      obtain ⟨pre, sep', rest', hsep', htext, hmisses⟩ := ih hrest
      have hcomma : fieldsTail fs = comma :: fieldsText fs := by
        cases fs with
        | nil => cases hrest
        | cons g fs => rfl
      refine ⟨Field.text (k, u) ++ comma :: pre, sep', rest', hsep', ?_, ?_⟩
      · rw [fieldsText_cons, hcomma, htext]
        simp
      · refine Misses.append (field_misses (Or.inl rfl) fun hsame => ?_)
          (Misses.cons (fun hpre => ?_) hmisses)
        · exact absurd hsame.symm hkey
        · exact absurd (List.cons_prefix_cons.mp hpre).1 (by decide)

namespace Flat

theorem found {w : Bytes} (hfield : o.field key = some v) (hv : v.text = more ++ w) :
    ∃ pre sep rest, Closes sep ∧ Splits (needle key more) o.text pre (w ++ sep :: rest) := by
  obtain ⟨pre, sep, rest, hsep, htext, hmisses⟩ := fieldsText_found hfield hv
  refine ⟨openBrace :: pre, sep, rest, hsep, ?_⟩
  rw [text, htext]
  refine Misses.splits (Misses.cons (fun hpre => ?_) hmisses)
  exact absurd (List.cons_prefix_cons.mp hpre).1 (by decide)

theorem field_of_mem (hf : f ∈ o.fields) : o.field f.1 = some f.2 := by
  obtain ⟨fields, distinct⟩ := o
  obtain ⟨a, b, rfl⟩ := List.append_of_mem hf
  refine List.lookup_eq_some_iff.mpr ⟨a, b, rfl, fun g hg => ?_⟩
  rw [List.map_append, List.map_cons, List.nodup_append] at distinct
  have hne := distinct.2.2 g.1 (List.mem_map_of_mem hg) f.1 List.mem_cons_self
  simpa using Ne.symm hne

theorem not_found (h : ∀ v, o.field key = some v → ∀ rest, ¬ more <+: v.text ++ rest) :
    find (needle key more) o.text = none := by
  refine Misses.find_none (by simp [needle]) (Misses.cons (fun hpre => ?_) ?_)
  · exact absurd (List.cons_prefix_cons.mp hpre).1 (by decide)
  · refine fieldsText_misses fun f hf hkey => h f.2 ?_
    rw [← hkey]
    exact field_of_mem hf

theorem get_str (o : Flat) (key : Ident) : jsonGetStr o.text key.1 = o.str key := by
  have habsent : (∀ v, o.field key = some v → ∀ rest, ¬ [quote] <+: v.text ++ rest) →
      jsonGetStr o.text key.1 = [] := by
    intro h
    apply jsonGetStr_absent
    have hnone := not_found h
    rw [← stringNeedle_eq] at hnone
    exact fun v => Scanned.not_of_find hnone
  rw [str]
  cases hfield : o.field key with
  | none =>
    exact habsent fun v hv => by
      rw [hfield] at hv
      cases hv
  | some v =>
    cases v with
    | str text plain =>
      have hvalue : (Value.str text plain).text = [quote] ++ (text ++ [quote]) := rfl
      obtain ⟨pre, sep, rest, -, hkey⟩ := found hfield hvalue
      rw [← stringNeedle_eq, List.append_assoc, List.singleton_append] at hkey
      exact Scanned.get ⟨_, _, _, hkey, splits_singleton.mpr ⟨rfl, plain.1⟩⟩
    | num digits numeral =>
      refine habsent fun v hv rest hpre => ?_
      rw [hfield] at hv
      cases hv
      obtain ⟨b, ds, hds⟩ := List.exists_cons_of_ne_nil numeral.1
      have hb := numeral.2 b (hds ▸ List.mem_cons_self)
      rw [Value.text, hds, List.cons_append, List.cons_prefix_cons] at hpre
      rw [← hpre.1] at hb
      exact absurd hb (by decide)

theorem get_u16 (o : Flat) (key : Ident) :
    (jsonGetU16 o.text key.1).toNat = match o.field key with
      | some (.num digits _) => if 2 ^ 64 ≤ value digits then 0 else value digits % 65536
      | _ => 0 := by
  rw [jsonGetU16, numberNeedle_eq]
  cases hfield : o.field key with
  | none =>
    rw [not_found fun v hv => by
      rw [hfield] at hv
      cases hv]
    rfl
  | some v =>
    obtain ⟨pre, sep, rest, hsep, hkey⟩ := found hfield (List.nil_append v.text).symm
    rw [hkey.find]
    dsimp only
    rw [hkey.drop]
    cases v with
    | str text plain => rfl
    | num digits numeral =>
      have hstop : ∀ b ∈ (sep :: rest).head?, isDigit b = false := by
        intro b hb
        cases hb
        rcases hsep with rfl | rfl <;> decide
      rw [Value.text, stoul_digits numeral.1 numeral.2 hstop]
      dsimp only
      split_ifs with hbig
      · rfl
      · exact UInt16.toNat_ofNat

end Flat

theorem narrow_iff (n : ℕ) :
    (if 2 ^ 64 ≤ n then 0 else n % 65536) = (if n ≤ 65535 then n else 0) ↔
      n ≤ 65535 ∨ 2 ^ 64 ≤ n ∨ 65536 ∣ n := by
  split_ifs <;> omega

/-- The helpers read a field right unless its number fits 64 bits but not 16. -/
theorem json_get_iff (o : Flat) (key : Ident) :
    jsonGetStr o.text key.1 = o.str key ∧ (jsonGetU16 o.text key.1).toNat = o.u16 key ↔
      ∀ digits numeral, o.field key = some (.num digits numeral) →
        value digits ≤ 65535 ∨ 2 ^ 64 ≤ value digits ∨ 65536 ∣ value digits := by
  rw [Flat.get_u16, Flat.u16]
  simp only [Flat.get_str, true_and]
  cases o.field key with
  | none => simp
  | some v =>
    cases v with
    | str text plain => simp
    | num digits numeral =>
      rw [narrow_iff]
      constructor
      · intro h digits' numeral' heq
        cases heq
        exact h
      · exact fun h => h digits numeral rfl

def senderPort : Ident := ⟨"sender_port", by decide⟩

def bigPort : Flat := ⟨[(senderPort, .num (ascii "65537") (by decide +kernel))], by decide⟩

theorem bigPort_reads_one : ¬ ∀ (o : Flat) (key : Ident),
    jsonGetStr o.text key.1 = o.str key ∧ (jsonGetU16 o.text key.1).toNat = o.u16 key := by
  intro h
  have hrange := (json_get_iff bigPort senderPort).mp (h _ _) (ascii "65537") (by decide +kernel) rfl
  exact absurd hrange (by decide)

end Embr.Tracker
