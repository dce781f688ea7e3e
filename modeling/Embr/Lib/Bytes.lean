import Mathlib.Data.Nat.Notation
import Mathlib.Data.List.Basic
import Mathlib.Algebra.Order.Group.Nat
import Mathlib.Algebra.Ring.Int.Defs

/-!
# Byte strings, big-endian numbers and file images

A file image is the list of its bytes. Writing past its end fills the gap with
zeros, as a sparse file reads.
-/

namespace Octets

abbrev Bytes := List UInt8

def be : ℕ → ℕ → Bytes
  | 0, _ => []
  | n + 1, v => UInt8.ofNat (v / 256 ^ n) :: be n v

def ofBE : Bytes → ℕ
  | [] => 0
  | b :: bs => b.toNat * 256 ^ bs.length + ofBE bs

@[simp] theorem be_length (n v : ℕ) : (be n v).length = n := by
  induction n with
  | zero => rfl
  | succ n ih => simp [be, ih]

theorem ofBE_be (n v : ℕ) : ofBE (be n v) = v % 256 ^ n := by
  induction n with
  | zero => simp [be, ofBE, Nat.mod_one]
  | succ n ih =>
    rw [be, ofBE, be_length, ih, Nat.mod_pow_succ]
    have hb : (UInt8.ofNat (v / 256 ^ n)).toNat = v / 256 ^ n % 256 := by simp
    rw [hb, Nat.mul_comm, Nat.add_comm]

theorem ofBE_be_of_lt {n v : ℕ} (h : v < 256 ^ n) : ofBE (be n v) = v := by
  rw [ofBE_be, Nat.mod_eq_of_lt h]

theorem ofBE_lt (bs : Bytes) : ofBE bs < 256 ^ bs.length := by
  induction bs with
  | nil => simp [ofBE]
  | cons b bs ih =>
    have hb := b.toNat_lt
    have hm : b.toNat * 256 ^ bs.length ≤ 255 * 256 ^ bs.length :=
      Nat.mul_le_mul_right _ (by omega)
    rw [ofBE, List.length_cons, Nat.pow_succ]
    omega

theorem be_add_mul {n m : ℕ} (h : n ≤ m) (v b : ℕ) : be n (v + b * 256 ^ m) = be n v := by
  induction n with
  | zero => rfl
  | succ n ih =>
    obtain ⟨k, rfl⟩ := Nat.exists_eq_add_of_le h
    have hdiv : (v + b * 256 ^ (n + 1 + k)) / 256 ^ n = v / 256 ^ n + 256 * (b * 256 ^ k) := by
      have hpow : b * 256 ^ (n + 1 + k) = 256 ^ n * (256 * (b * 256 ^ k)) := by
        rw [Nat.pow_add, Nat.pow_succ]
        simp only [Nat.mul_comm, Nat.mul_assoc, Nat.mul_left_comm]
      rw [hpow, Nat.add_mul_div_left _ _ (Nat.pow_pos (by decide))]
    rw [be, be, ih (Nat.le_of_succ_le h), hdiv, UInt8.ofNat_add, UInt8.ofNat_mul]
    simp

theorem be_ofBE (bs : Bytes) : be bs.length (ofBE bs) = bs := by
  induction bs with
  | nil => rfl
  | cons b bs ih =>
    have hlt := ofBE_lt bs
    have hdiv : (b.toNat * 256 ^ bs.length + ofBE bs) / 256 ^ bs.length = b.toNat := by
      rw [Nat.mul_comm, Nat.mul_add_div (Nat.pow_pos (by decide)), Nat.div_eq_of_lt hlt, Nat.add_zero]
    rw [List.length_cons, ofBE, be, hdiv, Nat.add_comm, be_add_mul le_rfl, ih, UInt8.ofNat_toNat]

def le (n v : ℕ) : Bytes := (be n v).reverse

def ofLE (bs : Bytes) : ℕ := ofBE bs.reverse

@[simp] theorem le_length (n v : ℕ) : (le n v).length = n := by
  rw [le, List.length_reverse, be_length]

theorem ofLE_le_of_lt {n v : ℕ} (h : v < 256 ^ n) : ofLE (le n v) = v := by
  rw [ofLE, le, List.reverse_reverse, ofBE_be_of_lt h]

/-- The `len` bytes that start at `pos`. -/
def slice (bs : Bytes) (pos len : ℕ) : Bytes := (bs.drop pos).take len

theorem slice_append (a b c : Bytes) : slice (a ++ b ++ c) a.length b.length = b := by
  simp [slice, List.append_assoc]

theorem slice_length {bs : Bytes} {pos len : ℕ} (h : pos + len ≤ bs.length) :
    (slice bs pos len).length = len := by
  simp only [slice, List.length_take, List.length_drop]
  omega

theorem getElem?_slice (bs : Bytes) (pos len i : ℕ) :
    (slice bs pos len)[i]? = if i < len then bs[pos + i]? else none := by
  simp only [slice, List.getElem?_take, List.getElem?_drop]

theorem slice_congr {a b : Bytes} {pos len : ℕ}
    (h : ∀ i, pos ≤ i → i < pos + len → a[i]? = b[i]?) : slice a pos len = slice b pos len := by
  apply List.ext_getElem?
  intro i
  rw [getElem?_slice, getElem?_slice]
  split_ifs with hi
  · exact h _ (by omega) (by omega)
  · rfl

theorem slice_add (bs : Bytes) (pos a b : ℕ) :
    slice bs pos (a + b) = slice bs pos a ++ slice bs (pos + a) b := by
  rw [slice, slice, slice, List.take_add, List.drop_drop]

theorem append_isPrefix {a b c : Bytes} (ha : a <+: c) (hb : b <+: c.drop a.length) :
    a ++ b <+: c := by
  obtain ⟨r, rfl⟩ := ha
  rw [List.drop_left' rfl] at hb
  exact (List.prefix_append_right_inj a).mpr hb

theorem drop_isPrefix {a b : Bytes} (h : a <+: b) (n : ℕ) : a.drop n <+: b.drop n := by
  obtain ⟨r, rfl⟩ := h
  rw [List.drop_append]
  exact List.prefix_append _ _

def writeAt (f : Bytes) (pos : ℕ) (bs : Bytes) : Bytes :=
  f.take pos ++ List.replicate (pos - f.length) 0 ++ bs ++ f.drop (pos + bs.length)

def resize (f : Bytes) (len : ℕ) : Bytes := f.take len ++ List.replicate (len - f.length) 0

@[simp] theorem length_writeAt (f : Bytes) (pos : ℕ) (bs : Bytes) :
    (writeAt f pos bs).length = max f.length (pos + bs.length) := by
  simp only [writeAt, List.length_append, List.length_take, List.length_replicate,
    List.length_drop]
  omega

@[simp] theorem length_resize (f : Bytes) (len : ℕ) : (resize f len).length = len := by
  simp only [resize, List.length_append, List.length_take, List.length_replicate]
  omega

theorem getElem?_writeAt_inside {f bs : Bytes} {pos i : ℕ} (hl : pos ≤ i)
    (hr : i < pos + bs.length) : (writeAt f pos bs)[i]? = bs[i - pos]? := by
  rw [writeAt, List.getElem?_append_left, List.getElem?_append_right]
  · congr 1
    simp only [List.length_append, List.length_take, List.length_replicate]
    omega
  · simp only [List.length_append, List.length_take, List.length_replicate]
    omega
  · simp only [List.length_append, List.length_take, List.length_replicate]
    omega

theorem getElem?_writeAt_before {f bs : Bytes} {pos i : ℕ} (hl : i < pos) (hf : i < f.length) :
    (writeAt f pos bs)[i]? = f[i]? := by
  rw [writeAt, List.append_assoc, List.append_assoc, List.getElem?_append_left,
    List.getElem?_take_of_lt hl]
  simp only [List.length_take]
  omega

theorem getElem?_writeAt_after {f bs : Bytes} {pos i : ℕ} (hr : pos + bs.length ≤ i) :
    (writeAt f pos bs)[i]? = f[i]? := by
  by_cases hf : i < f.length
  · rw [writeAt, List.getElem?_append_right, List.getElem?_drop]
    · congr 1
      simp only [List.length_append, List.length_take, List.length_replicate]
      omega
    · simp only [List.length_append, List.length_take, List.length_replicate]
      omega
  · rw [List.getElem?_eq_none (by rw [length_writeAt]; omega),
      List.getElem?_eq_none (by omega)]

theorem getElem?_writeAt_outside {f bs : Bytes} {pos i : ℕ} (hf : i < f.length)
    (h : i < pos ∨ pos + bs.length ≤ i) : (writeAt f pos bs)[i]? = f[i]? := by
  rcases h with h | h
  · exact getElem?_writeAt_before h hf
  · exact getElem?_writeAt_after h

theorem slice_writeAt (f : Bytes) (pos : ℕ) (bs : Bytes) :
    slice (writeAt f pos bs) pos bs.length = bs := by
  apply List.ext_getElem?
  intro i
  rw [getElem?_slice]
  split_ifs with hi
  · rw [getElem?_writeAt_inside (by omega) (by omega), Nat.add_sub_cancel_left]
  · exact (List.getElem?_eq_none (by omega)).symm

theorem writeAt_zero (f bs : Bytes) : writeAt f 0 bs = bs ++ f.drop bs.length := by
  simp [writeAt]

/-- `bs` is found at `pos`. -/
def Holds (f : Bytes) (pos : ℕ) (bs : Bytes) : Prop := ∀ i < bs.length, f[pos + i]? = bs[i]?

theorem holds_iff {f bs : Bytes} {pos : ℕ} : Holds f pos bs ↔ slice f pos bs.length = bs := by
  constructor
  · intro h
    apply List.ext_getElem?
    intro i
    rw [getElem?_slice]
    split_ifs with hi
    · exact h i hi
    · exact (List.getElem?_eq_none (by omega)).symm
  · intro h i hi
    have hat := getElem?_slice f pos bs.length i
    rw [if_pos hi, h] at hat
    exact hat.symm

theorem holds_writeAt (f : Bytes) (pos : ℕ) (bs : Bytes) : Holds (writeAt f pos bs) pos bs := by
  intro i hi
  rw [getElem?_writeAt_inside (by omega) (by omega), Nat.add_sub_cancel_left]

theorem Holds.writeAt {f a bs : Bytes} {p pos : ℕ} (h : Holds f p a)
    (hdisj : p + a.length ≤ pos ∨ pos + bs.length ≤ p) : Holds (writeAt f pos bs) p a := by
  intro i hi
  have hf : p + i < f.length := by
    have hthere := h i hi
    rw [List.getElem?_eq_getElem hi] at hthere
    exact (List.getElem?_eq_some_iff.mp hthere).1
  rw [getElem?_writeAt_outside hf (by omega)]
  exact h i hi

theorem writeAt_nil {f : Bytes} {pos : ℕ} (h : pos ≤ f.length) : writeAt f pos [] = f := by
  have h0 : pos - f.length = 0 := by omega
  simp [writeAt, h0]

theorem writeAt_end (f bs : Bytes) : writeAt f f.length bs = f ++ bs := by
  simp [writeAt, List.drop_eq_nil_of_le]

theorem writeAt_writeAt (f : Bytes) (pos : ℕ) (a b : Bytes) :
    writeAt (writeAt f pos a) (pos + a.length) b = writeAt f pos (a ++ b) := by
  have hpre : (writeAt f pos a).take (pos + a.length) =
      f.take pos ++ List.replicate (pos - f.length) 0 ++ a := by
    rw [writeAt, List.take_append_of_le_length, List.take_of_length_le]
    all_goals
      simp only [List.length_append, List.length_take, List.length_replicate]
      omega
  have hpost : (writeAt f pos a).drop (pos + a.length + b.length) =
      f.drop (pos + (a ++ b).length) := by
    rw [List.length_append, ← Nat.add_assoc]
    apply List.ext_getElem?
    intro i
    rw [List.getElem?_drop, List.getElem?_drop, getElem?_writeAt_after (by omega)]
  have hgap : pos + a.length - (writeAt f pos a).length = 0 := by
    rw [length_writeAt]
    omega
  rw [writeAt, hpre, hpost, hgap, writeAt]
  simp only [List.replicate_zero, List.append_nil, List.append_assoc]

end Octets
