import SaleRules.Bytes
import SaleRules.Opcode
import SaleRules.Text.Numeral

/-!
# Instructions

An instruction is an opcode with an operand. In the layout of the deployed machine it takes two
bytes, the opcode first, and instructions follow one another without padding.
-/
namespace SaleRules

/-- The widths, in bytes, of the two fields of an instruction. -/
structure Layout where
  version : UInt8
  opcodeWidth : Nat
  operandWidth : Nat
  deriving DecidableEq, Repr

namespace Layout

def width (layout : Layout) : Nat := layout.opcodeWidth + layout.operandWidth

def maxOperand (layout : Layout) : Nat := 1 <<< (8 * layout.operandWidth) - 1

/-- The layout of the deployed machine. -/
def current : Layout := ⟨1, 1, 1⟩

end Layout

structure Instruction where
  opcode : Opcode
  operand : UInt8
  deriving DecidableEq, Repr

def EncodingError.message : EncodingError → String
  | .unknownCode code => "invalid opcode: " ++ Text.decimal code
  | .unknownMnemonic name => "invalid opcode name: " ++ name
  | .operandTooWide opcode operand =>
    "operand " ++ Text.decimal operand ++ " for " ++ opcode.mnemonic ++ " exceeds maximum " ++
      Text.decimal Layout.current.maxOperand

namespace Instruction

def bare (opcode : Opcode) : Instruction := ⟨opcode, 0⟩

/-- An instruction with an operand that fits its field. -/
def withOperand (opcode : Opcode) (operand : Nat) : Except EncodingError Instruction :=
  if operand ≤ Layout.current.maxOperand then .ok ⟨opcode, operand.toUInt8⟩
  else .error (.operandTooWide opcode operand)

def bytes (i : Instruction) : Bytes := [i.opcode.code, i.operand]

def ofBytes (code operand : UInt8) : Except EncodingError Instruction :=
  (Opcode.ofCode code.toNat).map fun opcode => ⟨opcode, operand⟩

/-- Opcodes whose operand is always written, zero included. -/
def alwaysShown : Opcode → Bool
  | .val | .dup | .every | .any => true
  | _ => false

/-- The mnemonic and the operand; an operand of zero is left out where it has no meaning. -/
def text (i : Instruction) : String :=
  if alwaysShown i.opcode ∨ i.operand ≠ 0 then
    i.opcode.mnemonic ++ " " ++ Text.decimal i.operand.toNat
  else i.opcode.mnemonic

@[simp] theorem length_bytes (i : Instruction) : i.bytes.length = Layout.current.width := rfl

@[simp] theorem ofBytes_code (i : Instruction) : ofBytes i.opcode.code i.operand = .ok i := by
  simp [ofBytes, Except.map]

end Instruction

end SaleRules
