import SaleRules.Text.Numeral

/-!
# Phases of a sale

A sale is pending, then active, then over with success or failure. The start condition moves it out
of the first phase and the end condition out of the second.
-/
namespace SaleRules

inductive Phase where
  | pending | active | success | fail
  deriving DecidableEq, Repr

/-- Why a number is no phase. -/
inductive PhaseError where
  | unknownCode (code : UInt8)
  deriving DecidableEq, Repr

def PhaseError.message : PhaseError → String
  | .unknownCode code => "decoding error: invalid sale status: " ++ Text.decimal code.toNat

namespace Phase

def all : List Phase := [pending, active, success, fail]

def code : Phase → UInt8
  | pending => 0
  | active => 1
  | success => 2
  | fail => 3

def text : Phase → String
  | pending => "Pending"
  | active => "Active"
  | success => "Success"
  | fail => "Fail"

def ofCode (code : UInt8) : Except PhaseError Phase :=
  match all[code.toNat]? with
  | some phase => .ok phase
  | none => .error (.unknownCode code)

/-- The phases a sale can move to next. -/
def successors : Phase → List Phase
  | pending => [active]
  | active => [success, fail]
  | success | fail => []

def isFinal : Phase → Bool
  | success | fail => true
  | pending | active => false

end Phase

end SaleRules
