import SaleRules.Codec.Reader
import SaleRules.Codec.Sink
import SaleRules.StateConfig

/-!
# The binary format

A schema names the type of a value; `pieces` writes a value of it and `reader` reads one. Integers
are least significant byte first in their own width, sizes as 64-bit integers, arrays are bare
bytes, words stand as they are, lists come behind their length, and a record is its fields in
order.
-/
namespace SaleRules

inductive Schema where
  | u8 | u16 | u32 | u64 | size
  | array (length : Nat)
  | word | source | config
  | list (element : Schema)
  deriving DecidableEq, Repr

namespace Schema

/-- The values of a schema. -/
abbrev Val : Schema → Type
  | u8 => UInt8
  | u16 => UInt16
  | u32 => UInt32
  | u64 => UInt64
  | size => UInt64
  | array length => { bs : Bytes // bs.length = length }
  | word => Word
  | source => Source
  | config => StateConfig
  | list element => List element.Val

/-! ## Writing -/

def lengthPieces (length : Nat) : List Bytes := [Bytes.ofLittleEndian 8 length]

def listPieces {α : Type} (element : α → List Bytes) (as : List α) : List Bytes :=
  lengthPieces as.length ++ as.flatMap element

def bytePieces (b : UInt8) : List Bytes := [[b]]

def wordPieces (w : Word) : List Bytes := [w.bytes]

def sourcePieces (s : Source) : List Bytes := listPieces bytePieces s.bytes

def configPieces (c : StateConfig) : List Bytes :=
  listPieces sourcePieces c.sources ++ listPieces wordPieces c.constants ++
    [Bytes.ofLittleEndian 4 c.stackLength.toNat] ++
    [Bytes.ofLittleEndian 4 c.argumentsLength.toNat]

/-- What is written for a value, one piece after another. -/
def pieces : (t : Schema) → t.Val → List Bytes
  | u8, n => bytePieces n
  | u16, n => [Bytes.ofLittleEndian 2 n.toNat]
  | u32, n => [Bytes.ofLittleEndian 4 n.toNat]
  | u64, n => [Bytes.ofLittleEndian 8 n.toNat]
  | size, n => [Bytes.ofLittleEndian 8 n.toNat]
  | array _, bs => [bs.val]
  | word, w => wordPieces w
  | source, s => sourcePieces s
  | config, c => configPieces c
  | list element, vs => listPieces element.pieces vs

def encode (t : Schema) (v : t.Val) : Bytes := (t.pieces v).flatten

def encodeInto {σ : Type} [Sink σ] (t : Schema) (sink : σ) (v : t.Val) : σ :=
  Sink.writeAll sink (t.pieces v)

/-! ## Reading -/

def byteReader : Reader UInt8 := return (← Reader.number 1).toUInt8

def wordReader : Reader Word := do
  let ⟨bytes, length_bytes⟩ ← Reader.take 32
  return ⟨bytes, length_bytes⟩

def sourceReader : Reader Source := return ⟨← Reader.list byteReader⟩

def uint32Reader : Reader UInt32 := return (← Reader.number 4).toUInt32

def configReader : Reader StateConfig := do
  let sources ← Reader.list sourceReader
  let constants ← Reader.list wordReader
  let stackLength ← uint32Reader
  let argumentsLength ← uint32Reader
  return ⟨sources, constants, stackLength, argumentsLength⟩

def reader : (t : Schema) → Reader t.Val
  | u8 => byteReader
  | u16 => return (← Reader.number 2).toUInt16
  | u32 => uint32Reader
  | u64 => return (← Reader.number 8).toUInt64
  | size => return (← Reader.number 8).toUInt64
  | array length => Reader.take length
  | word => wordReader
  | source => sourceReader
  | config => configReader
  | list element => Reader.list element.reader

/-- The value that a whole byte string encodes. -/
def decode (t : Schema) (input : Bytes) : Except ReadError t.Val := t.reader.all input

theorem count_encodeInto (t : Schema) (sink : ByteCount) (v : t.Val) :
    (t.encodeInto sink v).count = sink.count + (t.encode v).length :=
  Sink.count_writeAll sink _

theorem bytes_encodeInto (t : Schema) (sink : Buffer) (v : t.Val) :
    (t.encodeInto sink v).bytes = sink.bytes ++ t.encode v :=
  Sink.bytes_writeAll sink _

end Schema

end SaleRules
