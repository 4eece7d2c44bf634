import SaleRules.Proofs.ReaderSteps

/-!
# Where a reader stops

Whether it finds a value or fails, a reader leaves a suffix of its input. Out of input it stands
before the fixed read that it could not make, and a refused length stands right before the suffix.
In a list of values of one width the place follows from the number of bytes alone. Reads that go on
where the one before stopped, failed or not, therefore take pieces of the input in their order.
-/
namespace SaleRules

namespace Reader

variable {α : Type}

/-- A list of values that one fixed read finds takes them while there are bytes for one more. -/
theorem times_of_short {width : Nat} (f : { bs : Bytes // bs.length = width } → α) {n : Nat}
    (before : List α) {input : Bytes} (h : input.length < n * width) :
    ∃ left, times (take width >>= fun bs => pure (f bs)) n before input =
        (.error .endOfInput, left) ∧
      left.length = input.length % width := by
  induction n generalizing before input with
  | zero =>
    rw [Nat.zero_mul] at h
    exact absurd h (Nat.not_lt_zero _)
  | succ n ih =>
    rw [times]
    rcases fixed_cases (fun bs => pure (f bs)) input with ⟨hshort, heq⟩ | ⟨bs, rest, rfl, heq⟩
    · rw [heq]
      exact ⟨input, rfl, (Nat.mod_eq_of_lt hshort).symm⟩
    · rw [List.length_append, bs.property, Nat.succ_mul] at h
      obtain ⟨left, hleft, hlength⟩ := @ih (f bs :: before) rest (by omega)
      rw [heq]
      refine ⟨left, hleft, ?_⟩
      rw [hlength, List.length_append, bs.property, Nat.add_mod_left]

end Reader

namespace Schema

open Reader

/-- The number of bytes of a value, for the types whose values are read at once. -/
def width? : Schema → Option Nat
  | u8 => some 1
  | u16 => some 2
  | u32 => some 4
  | u64 => some 8
  | size => some 8
  | array length => some length
  | word => some 32
  | source => none
  | config => none
  | list _ => none

theorem reader_of_width {t : Schema} {width : Nat} (h : t.width? = some width) :
    ∃ f : { bs : Bytes // bs.length = width } → t.Val,
      t.reader = take width >>= fun bs => pure (f bs) := by
  cases t with
  | u8 =>
    cases h
    exact ⟨_, number_map 1 Nat.toUInt8⟩
  | u16 =>
    cases h
    exact ⟨_, number_map 2 Nat.toUInt16⟩
  | u32 =>
    cases h
    exact ⟨_, number_map 4 Nat.toUInt32⟩
  | u64 | size =>
    cases h
    exact ⟨_, number_map 8 Nat.toUInt64⟩
  | array length =>
    cases h
    exact ⟨id, (bind_pure _).symm⟩
  | word =>
    cases h
    exact ⟨fun bs => Word.mk bs.val bs.property, rfl⟩
  | source | config | list => cases h

theorem list_of_short {t : Schema} {width : Nat} (hwidth : t.width? = some width)
    {count rest : Bytes} (hcount : count.length = 8)
    (hle : Bytes.littleEndian count ≤ maxLength)
    (hshort : rest.length < Bytes.littleEndian count * width) :
    ∃ left, (list t).reader (count ++ rest) = (.error .endOfInput, left) ∧
      left.length = rest.length % width := by
  obtain ⟨f, hf⟩ := reader_of_width hwidth
  obtain ⟨left, hleft, hlength⟩ := times_of_short f [] hshort
  refine ⟨left, ?_, hlength⟩
  show Reader.list t.reader (count ++ rest) = _
  rw [list_eq, fixed_append _ ⟨count, hcount⟩ rest, if_pos hle, hf, hleft]

/-! ## Reads one after another -/

/-- What is left after reads of several values, each from where the one before stopped. -/
def leftAfter (ts : List Schema) (input : Bytes) : Bytes :=
  ts.foldl (fun input t => (t.reader input).2) input

theorem leftAfter_cons (t : Schema) (ts : List Schema) (input : Bytes) :
    leftAfter (t :: ts) input = leftAfter ts (t.reader input).2 := rfl

theorem exists_pieces (ts : List Schema) (input : Bytes) :
    ∃ pieces : List Bytes, pieces.length = ts.length ∧
      ∀ k, leftAfter (ts.take k) input = (pieces.drop k).flatten ++ leftAfter ts input := by
  induction ts generalizing input with
  | nil => exact ⟨[], rfl, fun k => by simp [leftAfter]⟩
  | cons t ts ih =>
    obtain ⟨pieces, hlength, hpieces⟩ := ih (t.reader input).2
    obtain ⟨piece, hinput⟩ := (reader_stepwise t []).suffix input
    refine ⟨piece :: pieces, congrArg Nat.succ hlength, ?_⟩
    intro k
    cases k with
    | zero =>
      have hrest : (t.reader input).2 = pieces.flatten ++ leftAfter ts (t.reader input).2 :=
        hpieces 0
      rw [List.take_zero, List.drop_zero, leftAfter_cons, List.flatten_cons, List.append_assoc,
        ← hrest, hinput]
      rfl
    | succ k => exact hpieces k

/-- A reader never goes back: it leaves a suffix of the input, whatever comes of the read. It fails
only for lack of input, before a fixed read whose bytes it leaves where they are, or for a length
that it has just taken. What a short list of values of one width leaves is what makes up no whole
value. Reads one after another take pieces of the input that follow each other. -/
theorem readers_advance :
    (∀ (t : Schema) (input : Bytes), (t.reader input).2 <:+ input) ∧
    (∀ (t : Schema) (input left : Bytes) (e : ReadError), t.reader input = (.error e, left) →
      e = .endOfInput ∨ e = .lengthOverflow) ∧
    (∀ (t : Schema) (input left : Bytes), t.reader input = (.error .endOfInput, left) →
      (∃ taken width, input = taken ++ left ∧ left.length < width ∧
        width ≤ max 32 t.longestArray ∧ FixedReadAt t.reader taken width) ∧
      (t.longestArray ≤ 32 → left.length < 32)) ∧
    (∀ (t : Schema) (input left : Bytes), t.reader input = (.error .lengthOverflow, left) →
      ∃ taken count, input = taken ++ (count ++ left) ∧ count.length = 8 ∧
        1000000 < Bytes.littleEndian count ∧ FixedReadAt t.reader taken 8) ∧
    (∀ (t : Schema) (width : Nat) (count rest : Bytes), t.width? = some width →
      count.length = 8 → Bytes.littleEndian count ≤ 1000000 →
      rest.length < Bytes.littleEndian count * width →
      ∃ left, (list t).reader (count ++ rest) = (.error .endOfInput, left) ∧
        left.length = rest.length % width) ∧
    (∀ (ts : List Schema) (input : Bytes), ∃ pieces : List Bytes, pieces.length = ts.length ∧
      ∀ k, leftAfter (ts.take k) input = (pieces.drop k).flatten ++ leftAfter ts input) := by
  refine ⟨fun t => (reader_stepwise t []).suffix, fun t input left e hread => ?_,
    fun t input left hread => ?_, fun t input left hread => ?_, ?_, exists_pieces⟩
  · exact (reader_stepwise t []).error_cases hread
  · obtain ⟨taken, width, hinput, hlt, hle, hat⟩ :=
      (reader_stepwise t []).fixedReadAt_of_endOfInput hread
    refine ⟨⟨taken, width, hinput, hlt, hle, hat⟩, fun harrays => ?_⟩
    rw [Nat.max_eq_left harrays] at hle
    exact Nat.lt_of_lt_of_le hlt hle
  · rcases (reader_stepwise t []).fixedReadAt_of_lengthOverflow hread with ⟨-, hnil, -⟩ | h
    · cases hnil
    · exact h
  · intro t width count rest hwidth hcount hle hshort
    exact list_of_short hwidth hcount hle hshort

/-- A second inner list without its last byte, one whose length is too great, and three bytes for
words of two. -/
theorem readers_advance_nested :
    let nested : Schema := list (list u16)
    let short : Bytes := [2, 0, 0, 0, 0, 0, 0, 0] ++ [0, 0, 0, 0, 0, 0, 0, 0] ++
      [1, 0, 0, 0, 0, 0, 0, 0] ++ [7]
    let long : Bytes := [2, 0, 0, 0, 0, 0, 0, 0] ++ [65, 66, 15, 0, 0, 0, 0, 0] ++ [9, 9]
    (nested.reader short = (.error .endOfInput, [7]) ∧
      ∃ taken width, short = taken ++ [7] ∧ 1 < width ∧ FixedReadAt nested.reader taken width) ∧
    (nested.reader long = (.error .lengthOverflow, [9, 9]) ∧
      ∃ taken count, long = taken ++ (count ++ [9, 9]) ∧ 1000000 < Bytes.littleEndian count) ∧
    ∃ left, (list u16).reader ([5, 0, 0, 0, 0, 0, 0, 0] ++ [1, 2, 3]) =
      (.error .endOfInput, left) ∧ left.length = 1 := by
  intro nested short long
  have hshort : nested.reader short = (.error .endOfInput, [7]) := rfl
  have hlong : nested.reader long = (.error .lengthOverflow, [9, 9]) := rfl
  obtain ⟨⟨taken, width, htaken, hlt, -, hat⟩, -⟩ := readers_advance.2.2.1 nested short [7] hshort
  obtain ⟨front, count, hfront, -, hcount, -⟩ :=
    readers_advance.2.2.2.1 nested long [9, 9] hlong
  have hleft := readers_advance.2.2.2.2.1 u16 2 [5, 0, 0, 0, 0, 0, 0, 0] [1, 2, 3] rfl rfl
    (by decide) (by decide)
  exact ⟨⟨hshort, taken, width, htaken, hlt, hat⟩, ⟨hlong, front, count, hfront, hcount⟩, hleft⟩

end Schema

end SaleRules
