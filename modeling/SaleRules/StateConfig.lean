import SaleRules.Source
import SaleRules.Word.Numeral

/-!
# State configs

What a sale contract is given: the sources, the constants that `VAL` refers to by position, the
stack slots to reserve, and the number of values supplied at run time. `text` is the tuple that the
contract's interface takes.
-/
namespace SaleRules

structure StateConfig where
  sources : List Source
  constants : List Word
  stackLength : UInt32
  argumentsLength : UInt32
  deriving DecidableEq, Repr

namespace StateConfig

/-- The source that the contract evaluates. -/
def entry? (c : StateConfig) : Option Source := c.sources.head?

def constant? (c : StateConfig) (index : Nat) : Option Word := c.constants[index]?

/-- Items between square brackets. -/
def bracketed (items : List String) : String := "[" ++ ", ".intercalate items ++ "]"

def text (c : StateConfig) : String :=
  "\x7b sources: " ++ bracketed (c.sources.map Source.text) ++
    ", constants: " ++ bracketed (c.constants.map Word.decimal) ++
    ", stackLength: " ++ Text.decimal c.stackLength.toNat ++
    ", argumentsLength: " ++ Text.decimal c.argumentsLength.toNat ++ " \x7d"

end StateConfig

end SaleRules
