import SaleRules.Calendar
import SaleRules.Phase
import SaleRules.StateConfig

/-!
# Fingerprints

The shapes of program whose parameters can be shown. The first source of a config has to be one of
them byte for byte; a program that only starts like one, or says the same in another way, is not
guessed at.
-/
namespace SaleRules

inductive Fingerprint where
  | afterTime
  | raiseOrGrace
  /-- The first shape under an earlier numbering of the opcodes. -/
  | legacyAfterTime
  deriving DecidableEq, Repr

namespace Fingerprint

def all : List Fingerprint := [afterTime, raiseOrGrace, legacyAfterTime]

def bytes : Fingerprint → Bytes
  | afterTime => [0x06, 0x00, 0x01, 0x00, 0x1F, 0x00]
  | raiseOrGrace => [
    0x06, 0x00, 0x01, 0x00, 0x1F, 0x00, 0x2F, 0x00, 0x01, 0x02, 0x1E, 0x00, 0x20, 0x02,
    0x06, 0x00, 0x01, 0x01, 0x1F, 0x00, 0x21, 0x02]
  | legacyAfterTime => [0x05, 0x00, 0x01, 0x00, 0x0B, 0x00]

def name : Fingerprint → String
  | afterTime => "after-timestamp"
  | raiseOrGrace => "after-timestamp-end-with-raise-or-grace"
  | legacyAfterTime => "legacy-after-timestamp"

/-- The phase that the condition moves a sale out of. -/
def gatedPhase : Fingerprint → Phase
  | afterTime | legacyAfterTime => .pending
  | raiseOrGrace => .active

def ofSource? (s : Source) : Option Fingerprint := all.find? (·.bytes == s.bytes)

theorem ofSource?_eq_some {s : Source} {f : Fingerprint} (h : ofSource? s = some f) :
    s.bytes = f.bytes := by
  have hf := List.find?_some h
  exact (eq_of_beq hf).symm

end Fingerprint

namespace StateConfig

def fingerprint? (c : StateConfig) : Option Fingerprint := c.entry?.bind Fingerprint.ofSource?

/-- The constant at a position of a recognised program. -/
def parameter? (c : StateConfig) (index : Nat) : Option Word :=
  c.fingerprint?.bind fun _ => c.constant? index

/-- The parameter as a number of seconds. -/
def seconds? (c : StateConfig) (index : Nat) : Option UInt64 :=
  (c.parameter? index).bind Word.toUInt64?

/-- The parameter as a date. -/
def date? (c : StateConfig) (index : Nat) : Option Moment :=
  (c.parameter? index).bind fun w =>
    w.toInt64?.bind fun seconds => Moment.ofSeconds? seconds.toInt.toNat

end StateConfig

end SaleRules
