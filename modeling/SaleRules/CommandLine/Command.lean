import SaleRules.Blob
import SaleRules.CommandLine.Options
import SaleRules.CommandLine.Plan
import SaleRules.Fingerprint
import SaleRules.Rule

/-!
# Commands

Three commands build a config and print its tuple, and write it to a file if one is named; one
shows a config in a file with the parameter at an index; one encodes a single instruction. Numbers
are looked at from left to right after their count is right, and a config is printed before its
file is written.
-/
namespace SaleRules

/-- Why a command fails. -/
inductive CommandError where
  | missingArgument (option : String)
  | badIndex (text : String)
  | expected (arguments : String)
  | number (cause : WordError)
  | encoding (cause : EncodingError)
  | program (cause : ProgramError)
  | blob (cause : BlobError)
  | file (path : String) (fault : Fault)
  deriving DecidableEq, Repr

def CommandError.message : CommandError → String
  | .missingArgument option => option ++ " requires an argument"
  | .badIndex text => "Invalid index: '" ++ text ++ "' is not a valid number"
  | .expected arguments => "Expected: salegate " ++ arguments
  | .number cause => "invalid number: " ++ cause.message
  | .encoding cause => "encoding error: " ++ cause.message
  | .program cause => cause.message
  | .blob cause => cause.message
  | .file path fault => "io error: " ++ path ++ ": " ++ fault.reason

def Report.ofError (e : CommandError) : Report := .failure [.record .error e.message]

inductive Command where
  | afterBlock | afterTime | endRaiseGrace | inspect | encode
  deriving DecidableEq, Repr

namespace Command

def ofName? (name : String) : Option Command :=
  if name = "after-block" then some afterBlock
  else if name = "after-time" then some afterTime
  else if name = "end-raise-grace" then some endRaiseGrace
  else if name = "inspect" then some inspect
  else if name = "encode" then some encode
  else none

/-- The command with the arguments it expects. -/
def arguments : Command → String
  | afterBlock => "after-block <block>"
  | afterTime => "after-time <timestamp>"
  | endRaiseGrace => "end-raise-grace <end> <extra> <amount>"
  | inspect => "inspect <file>"
  | encode => "encode <MNEMONIC|opcode> [operand]"

def number (text : String) : Except CommandError Word := (Word.parse text).mapError .number

/-! ## Building -/

def writtenReport (path : String) (size : Nat) : Except Fault Unit → Report
  | .ok () =>
    .success "" [.record .info
      ("Wrote " ++ path ++ " (" ++ Text.decimal size ++ " bytes)")]
  | .error fault => .ofError (.file path fault)

/-- Prints the config of a rule, and writes it if a file is named. -/
def build (output? : Option String) (rule : Rule) : Except CommandError Plan := do
  let config ← rule.config.mapError .program
  let line := config.text ++ "\n"
  match output? with
  | none => return .done (.success line [])
  | some path =>
    let blob := Blob.ofConfig config
    return .write line path blob (writtenReport path blob.length)

/-! ## Inspecting -/

/-- The lines on a recognised program. -/
def shapeText (f : Fingerprint) : String :=
  let successors := " | ".intercalate (f.gatedPhase.successors.map Phase.text)
  "program:   " ++ f.name ++ "\n" ++
    "gates:     " ++ f.gatedPhase.text ++ " -> " ++ successors ++ "\n"

/-- The lines on a parameter, which is shown as a number, as seconds, and as a date if it is one. -/
def parameterText (c : StateConfig) (index : Nat) (w : Word) : String :=
  let seconds := match c.seconds? index with
    | some seconds => Text.decimal seconds.toNat
    | none => "(does not fit in 64 bits)"
  let date := match c.date? index with
    | some date => "date:      " ++ date.text ++ "\n"
    | none => ""
  "constant[" ++ Text.decimal index ++ "]: " ++ w.decimal ++ "\n" ++
    "seconds:   " ++ seconds ++ "\n" ++ date

/-- Where there is a source that is not recognised, it is shown to those who debug. -/
def unrecognised (c : StateConfig) : List Message :=
  (c.entry?.map fun s => Message.record .debug ("unrecognised program " ++ s.text)).toList ++
    [.record .warn "Program not recognised; no parameters can be extracted"]

def describe (c : StateConfig) (index : Nat) : Report :=
  let line := c.text ++ "\n"
  match c.fingerprint? with
  | none => .success line (unrecognised c)
  | some f =>
    match c.parameter? index with
    | some w => .success (line ++ shapeText f ++ parameterText c index w) []
    | none =>
      .success (line ++ shapeText f) [.record .warn
        ("No constant at index " ++ Text.decimal index ++ " (" ++
          Text.decimal c.constants.length ++ " present)")]

def inspectReport (path : String) (index : Nat) : Except Fault Bytes → Report
  | .error fault => .ofError (.file path fault)
  | .ok bytes =>
    match Blob.toConfig bytes with
    | .error cause => .ofError (.blob cause)
    | .ok c => describe c index

/-! ## Encoding -/

/-- An operand too wide for 64 bits counts as the greatest that fits, which no field holds. -/
def operandOfWord (w : Word) : Nat := (w.toUInt64?.map UInt64.toNat).getD (UInt64.size - 1)

/-- An opcode by number if the text is one, else by mnemonic. -/
def opcodeOf (text : String) : Except EncodingError Opcode :=
  match Text.uint64? text.toList with
  | some code => Opcode.ofCode code.toNat
  | none => Opcode.ofMnemonic text

def encodeText (name : String) (operand : Nat) : Except EncodingError String := do
  let i ← Instruction.withOperand (← opcodeOf name) operand
  return "0x" ++ Hex.text i.bytes

/-! ## Plans -/

def encodePlan (name : String) (operand : Nat) : Except CommandError Plan := do
  let text ← (encodeText name operand).mapError .encoding
  return .done (.success (text ++ "\n") [])

def plan? (options : Options) : Command → Except CommandError Plan
  | afterBlock =>
    match options.positional with
    | [block] => do build options.output? (.afterBlock (← number block))
    | _ => .error (.expected afterBlock.arguments)
  | afterTime =>
    match options.positional with
    | [timestamp] => do build options.output? (.afterTime (← number timestamp))
    | _ => .error (.expected afterTime.arguments)
  | endRaiseGrace =>
    match options.positional with
    | [finish, extra, amount] => do
      let finish ← number finish
      let extra ← number extra
      let amount ← number amount
      build options.output? (.raiseOrGrace finish extra amount)
    | _ => .error (.expected endRaiseGrace.arguments)
  | inspect =>
    match options.positional with
    | [path] =>
      let index := (options.index?.map UInt64.toNat).getD 0
      .ok (.read path (inspectReport path index))
    | _ => .error (.expected inspect.arguments)
  | encode =>
    match options.positional with
    | [name] => encodePlan name 0
    | [name, operand] => do encodePlan name (operandOfWord (← number operand))
    | _ => .error (.expected encode.arguments)

end Command

end SaleRules
