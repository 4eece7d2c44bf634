import SaleRules.Bytes

/-!
# Sinks

Where encoded bytes go. A value is written piece by piece; one sink keeps the bytes, the other
counts them only, and after every piece the count is the length of what the first has kept.
-/
namespace SaleRules

class Sink (σ : Type) where
  write : σ → Bytes → σ

/-- Keeps the bytes. -/
structure Buffer where
  bytes : Bytes
  deriving DecidableEq, Repr

/-- Counts the bytes. -/
structure ByteCount where
  count : Nat
  deriving DecidableEq, Repr

instance : Sink Buffer := ⟨fun sink piece => ⟨sink.bytes ++ piece⟩⟩

instance : Sink ByteCount := ⟨fun sink piece => ⟨sink.count + piece.length⟩⟩

namespace Sink

/-- The sink after each piece in turn. -/
def writeAll {σ : Type} [Sink σ] (sink : σ) (pieces : List Bytes) : σ := pieces.foldl write sink

@[simp] theorem bytes_write (sink : Buffer) (piece : Bytes) :
    (write sink piece).bytes = sink.bytes ++ piece := rfl

@[simp] theorem count_write (sink : ByteCount) (piece : Bytes) :
    (write sink piece).count = sink.count + piece.length := rfl

theorem bytes_writeAll (sink : Buffer) (pieces : List Bytes) :
    (writeAll sink pieces).bytes = sink.bytes ++ pieces.flatten := by
  induction pieces generalizing sink with
  | nil => simp [writeAll]
  | cons piece pieces ih =>
    have h := ih (write sink piece)
    simp only [writeAll, List.foldl_cons, bytes_write] at h ⊢
    rw [h, List.append_assoc, List.flatten_cons]

theorem count_writeAll (sink : ByteCount) (pieces : List Bytes) :
    (writeAll sink pieces).count = sink.count + pieces.flatten.length := by
  induction pieces generalizing sink with
  | nil => simp [writeAll]
  | cons piece pieces ih =>
    have h := ih (write sink piece)
    simp only [writeAll, List.foldl_cons, count_write] at h ⊢
    rw [h, Nat.add_assoc, List.flatten_cons, List.length_append]

end Sink

end SaleRules
