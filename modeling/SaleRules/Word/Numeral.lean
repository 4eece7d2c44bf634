import SaleRules.Bytes.Hex
import SaleRules.Text.Blank
import SaleRules.Word

/-!
# Numerals of words

A word is written as its shortest decimal numeral, or as 64 lowercase hexadecimal digits. It is
read from a decimal numeral, or from a hexadecimal one behind `0x` or `0X`, with blanks around it.
A digit is looked at only after the digits before it have been added up, so of a bad digit and a
number too large the one met first is reported.
-/
namespace SaleRules

/-- Why a text is not a word. The token is the text without the blanks around it. -/
inductive WordError where
  | empty
  | invalidDigit (token : String)
  | overflow (token : String)
  deriving DecidableEq, Repr

def WordError.message : WordError → String
  | .empty => "empty number"
  | .invalidDigit token => "invalid digit in " ++ token
  | .overflow token => "number " ++ token ++ " does not fit in 256 bits"

namespace Word

/-! ## Reading -/

/-- Appends digits to the number read so far. -/
def appendDigits (radix : UInt8) (token : String) : Word → List Char → Except WordError Word
  | w, [] => .ok w
  | w, c :: cs =>
    match Text.digit? radix.toNat c with
    | none => .error (.invalidDigit token)
    | some d =>
      match w.mulAdd? radix d with
      | none => .error (.overflow token)
      | some w => appendDigits radix token w cs

def ofDigits (radix : UInt8) (token : String) : List Char → Except WordError Word
  | [] => .error .empty
  | digits => appendDigits radix token zero digits

/-- The word that a text spells. -/
def parse (text : String) : Except WordError Word :=
  let token := Text.trim text.toList
  match Text.afterHexMark? token with
  | some digits => ofDigits 16 (String.ofList token) digits
  | none => ofDigits 10 (String.ofList token) token

/-! ## Writing -/

theorem divRem_ten_lt {w : Word} (h : w.isZero = false) : (w.divRem 10).1.toNat < w.toNat := by
  have hpos : w.toNat ≠ 0 := fun h0 => by simp [isZero_iff.mpr h0] at h
  have hten : (10 : UInt8).toNat = 10 := rfl
  rw [(divRem_eq (by decide) w).1, hten]
  omega

/-- Puts the decimal digits of a word before the given ones, none for zero. -/
def prependDecimal (w : Word) (digits : List Char) : List Char :=
  if _ : w.isZero then digits
  else (w.divRem 10).1.prependDecimal (Nat.digitChar (w.divRem 10).2.toNat :: digits)
termination_by w.toNat
decreasing_by exact divRem_ten_lt (by simp_all)

/-- The digits of the shortest decimal numeral. -/
def decimalDigits (w : Word) : List Char := if w.isZero then ['0'] else w.prependDecimal []

/-- The shortest decimal numeral. -/
def decimal (w : Word) : String := String.ofList w.decimalDigits

/-- The 64 hexadecimal digits. -/
def hex (w : Word) : String := Hex.text w.bytes

end Word

end SaleRules
