import SaleRules.Program

/-!
# Building in place

The steps of construction as reads and writes of the one program that is being built. They happen in
the order in which they stand here, and what was written before a failure stays written: that a step
which fails has changed nothing follows from the order and not from the type.
-/
namespace SaleRules

/-- Reads and writes of a program that outlives their failure. -/
abbrev Building := ExceptT ProgramError (StateM Program)

namespace Building

/-- The answer, and the program that is left whether it is a failure or not. -/
def result {α : Type} (x : Building α) (p : Program) : Except ProgramError α × Program :=
  (x.run.run p).run

/-- Puts instructions behind those that are there. -/
def push (is : List Instruction) : Building Unit :=
  modify fun p => { p with instructions := p.instructions ++ is }

/-- Puts constants behind those that are there; the first of them gets the position returned. -/
def reserve (values : List Word) : Building Nat := do
  let first := (← get).constants.length
  modify fun p => { p with constants := p.constants ++ values }
  return first

def emitWith (opcode : Opcode) (operand : Nat) : Building Unit := do
  let i ← MonadExcept.ofExcept ((Instruction.withOperand opcode operand).mapError .encoding)
  push [i]

def constant (value : Word) : Building Unit := do
  emitWith .val (← get).constants.length
  discard <| reserve [value]

def append (fragment : Source) : Building Unit := do
  let is ← MonadExcept.ofExcept (fragment.instructions.mapError .source)
  push is

section

variable {α β : Type} {x : Building α} {p q : Program}

theorem result_bind_ok {a : α} (h : x.result p = (.ok a, q)) (f : α → Building β) :
    (x >>= f).result p = (f a).result q := by
  change result (ExceptT.mk (ExceptT.bindCont f (x.result p).1)) (x.result p).2 = _
  rw [h]
  rfl

theorem result_bind_error {e : ProgramError} (h : x.result p = (.error e, q))
    (f : α → Building β) : (x >>= f).result p = (.error e, q) := by
  change result (ExceptT.mk (ExceptT.bindCont f (x.result p).1)) (x.result p).2 = _
  rw [h]
  rfl

end

end Building

/-- Takes a step. The answer is the position of the first constant that it reserves, if it does. -/
def Step.perform : Step → Building (Option Nat)
  | emit opcode => do Building.push [.bare opcode]; return none
  | emitWith opcode operand => do Building.emitWith opcode operand; return none
  | constant value => do Building.constant value; return none
  | reference index => do Building.emitWith .val index; return none
  | reserve values => do return some (← Building.reserve values)
  | append fragment => do Building.append fragment; return none

namespace Program

/-- The answer to a step and the program that the step leaves. -/
def take (p : Program) (s : Step) : Except ProgramError (Option Nat) × Program :=
  s.perform.result p

/-- The answers to steps taken one after another, whether they fail or not, and the program that is
left. -/
def takeAll (p : Program) : List Step → List (Except ProgramError (Option Nat)) × Program
  | [] => ([], p)
  | s :: steps =>
    let rest := (p.take s).2.takeAll steps
    ((p.take s).1 :: rest.1, rest.2)

end Program

end SaleRules
