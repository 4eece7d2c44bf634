import SaleRules.Source

/-!
# Stack heights

How high the stack stands after each instruction, from the effects of the opcodes alone.
`maxHeight` is the number of slots a source needs. An analysis stops at the first instruction that
pops more than there is or whose effect only the contract knows.
-/
namespace SaleRules

/-- The height of the stack and the greatest height after any instruction so far. -/
structure Heights where
  current : Nat
  greatest : Nat
  deriving DecidableEq, Repr

namespace Heights

def start : Heights := ⟨0, 0⟩

/-- The values an instruction pops and pushes, if that is known. -/
def effect? (i : Instruction) : Option (Nat × Nat) :=
  match i.opcode.effect with
  | .fixed pops pushes => some (pops, pushes)
  | .byOperand => some (i.operand.toNat, 1)
  | .dynamic => none

/-- The heights after the instruction at a position. -/
def after (index : Nat) (h : Heights) (i : Instruction) : Except SourceError Heights :=
  match effect? i with
  | none => .error (.dynamicEffect index i.opcode)
  | some (pops, pushes) =>
    if h.current < pops then .error (.stackUnderflow index i.opcode)
    else
      let current := h.current - pops + pushes
      .ok ⟨current, max h.greatest current⟩

/-- The heights after a list of instructions, the first of which stands at the given position. -/
def afterAll (index : Nat) (h : Heights) : List Instruction → Except SourceError Heights
  | [] => .ok h
  | i :: is =>
    match h.after index i with
    | .error cause => .error cause
    | .ok next => next.afterAll (index + 1) is

@[simp] theorem afterAll_nil (index : Nat) (h : Heights) : h.afterAll index [] = .ok h := rfl

theorem afterAll_append (index : Nat) (h : Heights) (is js : List Instruction) :
    h.afterAll index (is ++ js) =
      (h.afterAll index is).bind fun mid => mid.afterAll (index + is.length) js := by
  induction is generalizing index h with
  | nil => rfl
  | cons i is ih =>
    simp only [List.cons_append, afterAll, List.length_cons]
    cases h.after index i with
    | error cause => rfl
    | ok next => simp only [ih, Nat.add_assoc, Nat.add_comm 1]

end Heights

namespace Source

def heights (s : Source) : Except SourceError Heights :=
  s.instructions.bind (Heights.start.afterAll 0)

/-- The stack slots that a source needs. -/
def maxHeight (s : Source) : Except SourceError Nat := s.heights.map (·.greatest)

end Source

end SaleRules
