import SaleRules.Bytes
import SaleRules.Text.Numeral

/-!
# Hexadecimal byte strings

A byte is written as two lowercase digits, high half first. Reading works on the bytes of the text
and not on its characters: it wants an even number of them, each an ASCII digit of either case, and
reports the first one that is none.
-/
namespace SaleRules

/-- Why a text is not a hexadecimal byte string. -/
inductive HexError where
  | oddLength
  | notADigit (byte : UInt8) (position : Nat)
  deriving DecidableEq, Repr

namespace Hex

/-- The two digits of a byte. -/
def pair (b : UInt8) : List Char := [Nat.digitChar (b.toNat / 16), Nat.digitChar (b.toNat % 16)]

/-- The digits of a byte string. -/
def digits (bs : Bytes) : List Char := bs.flatMap pair

def text (bs : Bytes) : String := String.ofList (digits bs)

/-- The value of a byte that is an ASCII hexadecimal digit. -/
def digit? (b : UInt8) : Option UInt8 := Text.digit? 16 (Char.ofUInt8 b)

/-- Joins digits two by two; `position` counts the digits already read. A last digit that stands
alone is dropped, so the caller asks for an even number of them. -/
def readPairs (position : Nat) : Bytes → Except HexError Bytes
  | high :: low :: rest =>
    match digit? high, digit? low with
    | none, _ => .error (.notADigit high position)
    | some _, none => .error (.notADigit low (position + 1))
    | some h, some l => (readPairs (position + 2) rest).map ((16 * h + l) :: ·)
  | _ => .ok []

/-- The bytes that a hexadecimal text spells. An odd number of digits is reported before any digit
is looked at. -/
def read? (cs : List Char) : Except HexError Bytes :=
  let encoded := cs.flatMap String.utf8EncodeChar
  if encoded.length % 2 = 1 then .error .oddLength else readPairs 0 encoded

/-- A byte, taken as the character of the same number, between single quotes: the quote, the
backslash and four controls after a backslash, the remaining characters without a shape of their own
by number. -/
def quoted (b : UInt8) : String :=
  if b = 0x00 then "'\\0'"
  else if b = 0x09 then "'\\t'"
  else if b = 0x0A then "'\\n'"
  else if b = 0x0D then "'\\r'"
  else if b = 0x27 then "'\\''"
  else if b = 0x5C then "'\\\\'"
  else if b < 0x20 ∨ (0x7F ≤ b ∧ b ≤ 0xA0) ∨ b = 0xAD then
    "'\\u\x7b" ++ String.ofList (Nat.toDigits 16 b.toNat) ++ "\x7d'"
  else String.ofList ['\'', Char.ofUInt8 b, '\'']

@[simp] theorem digits_nil : digits [] = [] := rfl

@[simp] theorem digits_cons (b : UInt8) (bs : Bytes) :
    digits (b :: bs) = pair b ++ digits bs := rfl

@[simp] theorem length_digits (bs : Bytes) : (digits bs).length = 2 * bs.length := by
  induction bs with
  | nil => rfl
  | cons b bs ih => simp [pair, ih]; omega

end Hex

def HexError.message : HexError → String
  | .oddLength => "invalid hex: Odd number of digits"
  | .notADigit b position =>
    "invalid hex: Invalid character " ++ Hex.quoted b ++ " at position " ++ Text.decimal position

end SaleRules
