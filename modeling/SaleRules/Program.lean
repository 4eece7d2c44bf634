import SaleRules.Source.Height
import SaleRules.StateConfig

/-!
# Programs under construction

A program collects instructions and the constants they refer to, one step at a time. A step that
fails leaves the program as it was, so `run` goes on with the next one. `finish` packs the
instructions into a config after three checks, in this order: every `VAL` refers to a constant,
every effect on the stack is known and pops no more than there is, and the declared stack is high
enough.
-/
namespace SaleRules

structure Program where
  instructions : List Instruction
  constants : List Word
  deriving DecidableEq, Repr

/-- Why a step or the last check of a program fails. -/
inductive ProgramError where
  | encoding (cause : EncodingError)
  | source (cause : SourceError)
  | constantOutOfRange (position index count : Nat)
  | stackTooShort (declared : UInt32) (needed : Nat)
  deriving DecidableEq, Repr

def ProgramError.message : ProgramError → String
  | .encoding cause => cause.message
  | .source cause => cause.message
  | .constantOutOfRange position index count =>
    "VAL " ++ Text.decimal index ++ " at instruction " ++ Text.decimal position ++
      " is out of range for " ++ Text.decimal count ++ " constants"
  | .stackTooShort declared needed =>
    "declared stack length " ++ Text.decimal declared.toNat ++ " is below required depth " ++
      Text.decimal needed

/-- One step of construction. -/
inductive Step where
  /-- Emit an instruction with operand zero. -/
  | emit (opcode : Opcode)
  | emitWith (opcode : Opcode) (operand : Nat)
  /-- Add a constant and emit a reference to it. -/
  | constant (value : Word)
  /-- Emit a reference to a constant that is there or will be. -/
  | reference (index : Nat)
  /-- Add constants and emit nothing, so that references may come in an order of their own. -/
  | reserve (values : List Word)
  /-- Emit the instructions of a packed fragment. -/
  | append (fragment : Source)
  deriving DecidableEq, Repr

namespace Program

def empty : Program := ⟨[], []⟩

def emit (p : Program) (i : Instruction) : Program :=
  { p with instructions := p.instructions ++ [i] }

def emitWith (p : Program) (opcode : Opcode) (operand : Nat) : Except EncodingError Program :=
  (Instruction.withOperand opcode operand).map p.emit

/-- Adds constants; the first of them gets the position returned. -/
def reserve (p : Program) (values : List Word) : Nat × Program :=
  (p.constants.length, { p with constants := p.constants ++ values })

/-- The reference is made before the constant is added, so neither is without the other. -/
def constant (p : Program) (value : Word) : Except EncodingError Program :=
  (p.emitWith .val p.constants.length).map fun q => (q.reserve [value]).2

def reference (p : Program) (index : Nat) : Except EncodingError Program := p.emitWith .val index

/-- Nothing of a fragment is emitted unless all of it can be read. -/
def append (p : Program) (fragment : Source) : Except SourceError Program :=
  fragment.instructions.map fun is => { p with instructions := p.instructions ++ is }

def step (p : Program) : Step → Except ProgramError Program
  | .emit opcode => .ok (p.emit (.bare opcode))
  | .emitWith opcode operand => (p.emitWith opcode operand).mapError .encoding
  | .constant value => (p.constant value).mapError .encoding
  | .reference index => (p.reference index).mapError .encoding
  | .reserve values => .ok (p.reserve values).2
  | .append fragment => (p.append fragment).mapError .source

/-- The program after a step, which is the old one if the step fails. -/
def advance (p : Program) (s : Step) : Program := (p.step s).toOption.getD p

/-- The program after all steps, the failed ones left out. -/
def run (p : Program) (steps : List Step) : Program := steps.foldl advance p

/-- The program after all steps, if none of them fails. -/
def runAll (p : Program) (steps : List Step) : Except ProgramError Program := steps.foldlM step p

/-- The first reference past the end of a table of `count` constants, with its position. -/
def firstDangling? (count : Nat) (position : Nat) : List Instruction → Option (Nat × Nat)
  | [] => none
  | i :: is =>
    if i.opcode = .val ∧ count ≤ i.operand.toNat then some (position, i.operand.toNat)
    else firstDangling? count (position + 1) is

/-- The config of one source that the program makes. -/
def finish (p : Program) (stackLength : UInt32) : Except ProgramError StateConfig :=
  match firstDangling? p.constants.length 0 p.instructions with
  | some (position, index) => .error (.constantOutOfRange position index p.constants.length)
  | none =>
    let source := Source.ofInstructions p.instructions
    match source.maxHeight with
    | .error cause => .error (.source cause)
    | .ok needed =>
      if stackLength.toNat < needed then .error (.stackTooShort stackLength needed)
      else .ok ⟨[source], p.constants, stackLength, 0⟩

@[simp] theorem run_nil (p : Program) : p.run [] = p := rfl

@[simp] theorem run_cons (p : Program) (s : Step) (steps : List Step) :
    p.run (s :: steps) = (p.advance s).run steps := rfl

theorem run_append (p : Program) (steps more : List Step) :
    p.run (steps ++ more) = (p.run steps).run more := List.foldl_append

end Program

end SaleRules
