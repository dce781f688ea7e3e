import Embr.Lib.Text

/-!
# JSON texts

The members of the object that a text is, whatever blanks stand between its parts and however the
characters of its strings are written. Objects and arrays inside are read over. Each step takes a
byte at least, so a reader needs no more steps than there are bytes.
-/

open Octets Text
namespace Json

inductive Value
  | str (text : Bytes)
  | num (mantissa exponent : ℤ)
  | other
  deriving DecidableEq

def isBlank (b : UInt8) : Bool := b = 32 || b = 9 || b = 10 || b = 13

def skip (text : Bytes) : Bytes := text.dropWhile isBlank

def expect (b : UInt8) : Bytes → Option Bytes
  | [] => none
  | c :: rest => if c = b then some rest else none

def exponent : Bytes → Option (ℤ × Bytes)
  | [] => some (0, [])
  | c :: rest =>
    if c = 69 ∨ c = 101 then
      let (negative, rest) := sign rest
      let digits := rest.takeWhile isDigit
      if digits = [] then none
      else some (if negative then -(value digits : ℤ) else value digits, rest.dropWhile isDigit)
    else some (0, c :: rest)

section
variable {α : Type}

end

/-- A byte that stands for itself in a string. -/
def Plain (b : UInt8) : Prop := b ≠ 34 ∧ ¬ b < 32 ∧ b ≠ 92

instance (b : UInt8) : Decidable (Plain b) := inferInstanceAs (Decidable (_ ∧ _))

variable {text rest : Bytes} {n : ℕ} {c : UInt8} {v : Value}

end Json
