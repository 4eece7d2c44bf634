/-!
# Numerals

Digits of a radix up to sixteen, the mark that announces hexadecimal, and decimal numerals of a
machine integer. Only ASCII digits count; letters stand for ten to fifteen in either case.
-/
namespace SaleRules.Text

/-- The value of a digit in the given radix, if the character is one. -/
def digit? (radix : Nat) (c : Char) : Option UInt8 :=
  let value? : Option UInt8 :=
    if '0' ≤ c ∧ c ≤ '9' then some (c.val - 48).toUInt8
    else if 'a' ≤ c ∧ c ≤ 'f' then some (c.val - 87).toUInt8
    else if 'A' ≤ c ∧ c ≤ 'F' then some (c.val - 55).toUInt8
    else none
  value?.filter (·.toNat < radix)

/-- What follows one leading `0x` or `0X`, if the text starts with it. -/
def afterHexMark? : List Char → Option (List Char)
  | '0' :: 'x' :: digits => some digits
  | '0' :: 'X' :: digits => some digits
  | _ => none

/-- The number a run of decimal digits spells; the empty run spells nothing. -/
def decimal? : List Char → Option Nat
  | [] => none
  | cs => cs.foldlM (fun n c => (digit? 10 c).map fun d => 10 * n + d.toNat) 0

/-- A decimal numeral of an unsigned 64-bit integer. One leading plus sign is allowed, blanks and
separators are not. -/
def uint64? (cs : List Char) : Option UInt64 :=
  let digits := match cs with
    | '+' :: rest => rest
    | _ => cs
  (decimal? digits).bind fun n => if n < UInt64.size then some n.toUInt64 else none

/-- The decimal numeral of a number. -/
def decimal (n : Nat) : String := String.ofList (Nat.toDigits 10 n)

/-- The decimal numeral of a number behind as many zeros as fill the width. -/
def padded (width n : Nat) : String :=
  let digits := Nat.toDigits 10 n
  String.ofList (List.replicate (width - digits.length) '0' ++ digits)

end SaleRules.Text
