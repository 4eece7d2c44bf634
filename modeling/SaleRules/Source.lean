import SaleRules.Bytes.Hex
import SaleRules.Instruction
import SaleRules.Text.Blank

/-!
# Sources

A source is a sequence of packed instructions as the machine receives it. It is kept as bytes, so
that programs are compared on what is or will be deployed; it may therefore hold bytes that are no
instructions, and `instructions` says so.
-/
namespace SaleRules

structure Source where
  bytes : Bytes
  deriving DecidableEq, Repr, Inhabited

/-- Why a source cannot be read or analysed. -/
inductive SourceError where
  | encoding (cause : EncodingError)
  | truncated (length : Nat)
  | stackUnderflow (index : Nat) (opcode : Opcode)
  | dynamicEffect (index : Nat) (opcode : Opcode)
  deriving DecidableEq, Repr

def SourceError.message : SourceError → String
  | .encoding cause => "encoding error: " ++ cause.message
  | .truncated length =>
    "source length " ++ Text.decimal length ++ " is not a multiple of instruction width " ++
      Text.decimal Layout.current.width
  | .stackUnderflow index opcode =>
    "stack underflow at instruction " ++ Text.decimal index ++ " (" ++ opcode.mnemonic ++ ")"
  | .dynamicEffect index opcode =>
    "cannot analyse stack effect of " ++ opcode.mnemonic ++ " at instruction " ++
      Text.decimal index

namespace Source

def empty : Source := ⟨[]⟩

/-- Packs instructions one after another. -/
def ofInstructions (is : List Instruction) : Source := ⟨is.flatMap Instruction.bytes⟩

def append (s t : Source) : Source := ⟨s.bytes ++ t.bytes⟩

/-- The instructions of a byte string of even length; the first byte that is no opcode is
reported. -/
def readPairs : Bytes → Except EncodingError (List Instruction)
  | code :: operand :: rest =>
    match Instruction.ofBytes code operand with
    | .ok i => (readPairs rest).map (i :: ·)
    | .error cause => .error cause
  | _ => .ok []

/-- The instructions of a source. A partial instruction at the end is reported before any opcode is
looked at. -/
def instructions (s : Source) : Except SourceError (List Instruction) :=
  if s.bytes.length % Layout.current.width ≠ 0 then .error (.truncated s.bytes.length)
  else (readPairs s.bytes).mapError .encoding

/-- Lowercase hexadecimal behind `0x`. -/
def text (s : Source) : String := "0x" ++ Hex.text s.bytes

/-- Reads hexadecimal with or without a mark, with blanks around it. -/
def parse (text : String) : Except HexError Source :=
  let token := Text.trim text.toList
  (Hex.read? ((Text.afterHexMark? token).getD token)).map Source.mk

@[simp] theorem bytes_ofInstructions_nil : (ofInstructions []).bytes = [] := rfl

@[simp] theorem bytes_ofInstructions_cons (i : Instruction) (is : List Instruction) :
    (ofInstructions (i :: is)).bytes =
      i.opcode.code :: i.operand :: (ofInstructions is).bytes := rfl

theorem ofInstructions_append (is js : List Instruction) :
    ofInstructions (is ++ js) = (ofInstructions is).append (ofInstructions js) := by
  simp [ofInstructions, append]

theorem readPairs_ofInstructions (is : List Instruction) :
    readPairs (ofInstructions is).bytes = .ok is := by
  induction is with
  | nil => rfl
  | cons i is ih => simp [readPairs, ih, Except.map]

@[simp] theorem length_ofInstructions (is : List Instruction) :
    (ofInstructions is).bytes.length = 2 * is.length := by
  induction is with
  | nil => rfl
  | cons i is ih => simp [ih]; omega

@[simp] theorem instructions_ofInstructions (is : List Instruction) :
    (ofInstructions is).instructions = .ok is := by
  have heven : 2 * is.length % Layout.current.width = 0 := Nat.mul_mod_right 2 is.length
  rw [instructions, length_ofInstructions, heven, readPairs_ofInstructions]
  rfl

end Source

end SaleRules
