/-!
# White space around a text

Numbers, hex strings and level names may be surrounded by blanks. A blank is a character with the
Unicode property White_Space; joiners, the byte order mark and the control characters U+001C to
U+001F do not have it, so they stay in the text and are refused as digits.
-/
namespace SaleRules.Text

/-- The Unicode property White_Space. -/
def isBlank (c : Char) : Bool :=
  (0x09 ≤ c.val && c.val ≤ 0x0D) || c.val == 0x20 || c.val == 0x85 || c.val == 0xA0 ||
    c.val == 0x1680 || (0x2000 ≤ c.val && c.val ≤ 0x200A) || c.val == 0x2028 || c.val == 0x2029 ||
    c.val == 0x202F || c.val == 0x205F || c.val == 0x3000

/-- The text between the leading and the trailing blanks. -/
def trim (cs : List Char) : List Char :=
  ((cs.dropWhile isBlank).reverse.dropWhile isBlank).reverse

end SaleRules.Text
