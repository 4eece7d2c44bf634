import SaleRules.Text.Numeral

/-!
# Options

Options stand anywhere behind the command and take the argument that follows them, whatever it
looks like; of two options of one kind the last counts. What is no option is positional. Reading
stops at the first request for help and at the first option without a proper value.
-/
namespace SaleRules

structure Options where
  positional : List String
  output? : Option String
  index? : Option UInt64
  deriving DecidableEq, Repr

/-- What ends the reading of options early. -/
inductive OptionStop where
  | help
  | missingArgument (name : String)
  | badIndex (text : String)
  deriving DecidableEq, Repr

namespace Options

def empty : Options := ⟨[], none, none⟩

def isHelp (arg : String) : Bool := arg == "--help" || arg == "-h"

def isOutput (arg : String) : Bool := arg == "--output" || arg == "-o"

def isIndex (arg : String) : Bool := arg == "--index"

/-- Adds the options and positional arguments of a list to those read before. -/
def readFrom (before : Options) : List String → Except OptionStop Options
  | [] => .ok before
  | [arg] =>
    if isOutput arg || isIndex arg then .error (.missingArgument arg)
    else if isHelp arg then .error .help
    else .ok { before with positional := before.positional ++ [arg] }
  | arg :: value :: rest =>
    if isOutput arg then readFrom { before with output? := some value } rest
    else if isIndex arg then
      match Text.uint64? value.toList with
      | some index => readFrom { before with index? := some index } rest
      | none => .error (.badIndex value)
    else if isHelp arg then .error .help
    else readFrom { before with positional := before.positional ++ [arg] } (value :: rest)

def read (args : List String) : Except OptionStop Options := empty.readFrom args

end Options

end SaleRules
