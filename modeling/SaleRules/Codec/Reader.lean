import SaleRules.Bytes

/-!
# Readers of the binary format

A reader takes its value from the front of the input and hands on the rest, also when it fails: a
read of a fixed number of bytes that fails takes none, and a sequence of reads keeps what the reads
before the failing one took. A list is its length in eight bytes, then its elements; a length above
one million is refused before any element is read.
-/
namespace SaleRules

/-- Why bytes cannot be read. -/
inductive ReadError where
  | endOfInput
  | leftover
  | lengthOverflow
  deriving DecidableEq, Repr

def ReadError.message : ReadError → String
  | .endOfInput => "unexpected end of input"
  | .leftover => "invalid value"
  | .lengthOverflow => "length prefix overflow"

/-- What a read found and the input it left. -/
def Reader (α : Type) := Bytes → Except ReadError α × Bytes

namespace Reader

variable {α β : Type}

def andThen (r : Reader α) (f : α → Reader β) : Reader β := fun input =>
  match r input with
  | (.ok a, rest) => f a rest
  | (.error e, rest) => (.error e, rest)

instance : Monad Reader where
  pure a := fun input => (.ok a, input)
  bind := andThen

def fail (e : ReadError) : Reader α := fun input => (.error e, input)

/-- Exactly `n` bytes. -/
def take (n : Nat) : Reader { bs : Bytes // bs.length = n } := fun input =>
  let front := input.take n
  if h : front.length = n then (.ok ⟨front, h⟩, input.drop n) else (.error .endOfInput, input)

/-- The number spelled by `width` bytes, least significant first. -/
def number (width : Nat) : Reader Nat := do
  let bs ← take width
  return Bytes.littleEndian bs.val

/-- The values read one after another, behind those read before, which come last first. -/
def times (r : Reader α) : Nat → List α → Reader (List α)
  | 0, before, input => (.ok before.reverse, input)
  | n + 1, before, input =>
    match r input with
    | (.ok a, rest) => times r n (a :: before) rest
    | (.error e, rest) => (.error e, rest)

/-- The greatest length of a list that is read. -/
def maxLength : Nat := 1000000

/-- A list behind its length. -/
def list (r : Reader α) : Reader (List α) := do
  let count ← number 8
  if count ≤ maxLength then times r count [] else fail .lengthOverflow

/-- The value of the whole input. -/
def all (r : Reader α) (input : Bytes) : Except ReadError α :=
  match r input with
  | (.ok a, []) => .ok a
  | (.ok _, _ :: _) => .error .leftover
  | (.error e, _) => .error e

@[simp] theorem pure_apply (a : α) (input : Bytes) :
    (pure a : Reader α) input = (.ok a, input) := rfl

theorem bind_apply (r : Reader α) (f : α → Reader β) (input : Bytes) :
    (r >>= f) input = match r input with
      | (.ok a, rest) => f a rest
      | (.error e, rest) => (.error e, rest) := rfl

theorem bind_of_ok {r : Reader α} {input rest : Bytes} {a : α} (h : r input = (.ok a, rest))
    (f : α → Reader β) : (r >>= f) input = f a rest := by
  rw [bind_apply, h]

theorem bind_of_error {r : Reader α} {input rest : Bytes} {e : ReadError}
    (h : r input = (.error e, rest)) (f : α → Reader β) :
    (r >>= f) input = (.error e, rest) := by
  rw [bind_apply, h]

/-- A fixed read takes the front of the input if there is enough of it. -/
theorem take_append {n : Nat} (bs : { bs : Bytes // bs.length = n }) (rest : Bytes) :
    take n (bs.val ++ rest) = (.ok bs, rest) := by
  obtain ⟨bs, rfl⟩ := bs
  simp [take]

theorem take_of_short {n : Nat} {input : Bytes} (h : input.length < n) :
    take n input = (.error .endOfInput, input) := by
  have hlen : (input.take n).length ≠ n := by
    rw [List.length_take]
    omega
  exact dif_neg hlen

end Reader

end SaleRules
