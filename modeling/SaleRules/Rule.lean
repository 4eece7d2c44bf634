import SaleRules.Program

/-!
# Rules

The conditions that open or close a sale, each as a program over its parameters. No parameter is
checked: what a zero or a wrapped constant means is left to the machine.
-/
namespace SaleRules

inductive Rule where
  /-- From the given block on. -/
  | afterBlock (block : Word)
  /-- Strictly after the given time. -/
  | afterTime (timestamp : Word)
  /-- After `finish` while less than `amount` is raised, or after `extra` in any case. -/
  | raiseOrGrace (finish extra amount : Word)
  deriving DecidableEq, Repr

namespace Rule

/-- Slots declared for a single comparison, which uses two. -/
def simpleStackLength : UInt32 := 3

/-- Slots declared for the raise-or-grace program, which uses three. -/
def raiseOrGraceStackLength : UInt32 := 10

/-- The comparison is strict, so the block before the given one is stored; for block 0 that is the
greatest word. The three parameters of the last rule are listed as the contract expects them and
referred to in another order. -/
def steps : Rule → List Step
  | afterBlock block =>
    [.emit .blockNumber, .constant (block.wrappingSub (.ofNat 1)), .emit .greaterThan]
  | afterTime timestamp =>
    [.emit .blockTimestamp, .constant timestamp, .emit .greaterThan]
  | raiseOrGrace finish extra amount =>
    [.reserve [finish, extra, amount],
     .emit .blockTimestamp, .reference 0, .emit .greaterThan,
     .emit .totalReserveIn, .reference 2, .emit .lessThan,
     .emitWith .every 2,
     .emit .blockTimestamp, .reference 1, .emit .greaterThan,
     .emitWith .any 2]

def stackLength : Rule → UInt32
  | raiseOrGrace .. => raiseOrGraceStackLength
  | _ => simpleStackLength

def config (r : Rule) : Except ProgramError StateConfig :=
  (Program.empty.runAll r.steps).bind (·.finish r.stackLength)

end Rule

end SaleRules
