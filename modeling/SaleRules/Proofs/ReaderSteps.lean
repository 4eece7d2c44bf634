import SaleRules.Codec.Schema

/-!
# Readers as fixed reads one after another

Every reader of the format takes strings of fixed widths, one after another, until it has its value,
runs out of input, or refuses a length that it has just taken. What follows from that alone is shown
here once for all of them: what is left is a suffix of the input, an answer that did not come from a
lack of input stays when there is more of it, and a read that failed has taken nothing.
-/
namespace SaleRules

namespace Reader

variable {α β : Type}

theorem bind_pure (r : Reader α) : (r >>= fun a => pure a) = r := by
  funext input
  rw [bind_apply]
  obtain ⟨outcome, rest⟩ := r input
  cases outcome <;> rfl

theorem bind_assoc {γ : Type} (r : Reader α) (f : α → Reader β) (g : β → Reader γ) :
    (r >>= f >>= g) = r >>= fun a => f a >>= g := by
  funext input
  rw [bind_apply, bind_apply, bind_apply]
  obtain ⟨outcome, rest⟩ := r input
  cases outcome <;> rfl

/-- A reader as the fixed reads that it makes: behind a read that took `last` it has its value,
refuses `last` as a length, or takes a number of bytes within the bound and goes on from there. -/
inductive Stepwise (bound : Nat) : Bytes → Reader α → Prop where
  | found (last : Bytes) (a : α) : Stepwise bound last (pure a)
  | refused {last : Bytes} (length : last.length = 8) (long : maxLength < Bytes.littleEndian last) :
      Stepwise bound last (fail .lengthOverflow)
  | fixed (last : Bytes) {width : Nat} {next : { bs : Bytes // bs.length = width } → Reader α}
      (le : width ≤ bound) (tail : ∀ bs, Stepwise bound bs.val (next bs)) :
      Stepwise bound last (take width >>= next)

/-- Behind `taken` the reader makes one fixed read: fewer bytes than its width it leaves where they
are, and as soon as there are enough it takes them. -/
structure FixedReadAt (r : Reader α) (taken : Bytes) (width : Nat) : Prop where
  short : ∀ more, more.length < width → r (taken ++ more) = (.error .endOfInput, more)
  enough : ∀ more, width ≤ more.length → (r (taken ++ more)).2 <:+ more.drop width

variable {r : Reader α} {bound width : Nat} {last : Bytes}
  {next : { bs : Bytes // bs.length = width } → Reader α}

/-- All that a fixed read in front can do. -/
theorem fixed_cases (next : { bs : Bytes // bs.length = width } → Reader α) (input : Bytes) :
    (input.length < width ∧ (take width >>= next) input = (.error .endOfInput, input)) ∨
      ∃ bs rest, input = bs.val ++ rest ∧ (take width >>= next) input = next bs rest := by
  rcases Nat.lt_or_ge input.length width with h | h
  · exact .inl ⟨h, bind_of_error (take_of_short h) next⟩
  · have hinput := (List.take_append_drop width input).symm
    have hread := take_append ⟨input.take width, List.length_take_of_le h⟩ (input.drop width)
    rw [← hinput] at hread
    exact .inr ⟨_, _, hinput, bind_of_ok hread next⟩

theorem fixed_append (next : { bs : Bytes // bs.length = width } → Reader α)
    (bs : { bs : Bytes // bs.length = width }) (rest : Bytes) :
    (take width >>= next) (bs.val ++ rest) = next bs rest := bind_of_ok (take_append bs rest) next

theorem number_map (width : Nat) (f : Nat → α) :
    (number width >>= fun n => pure (f n)) =
      take width >>= fun bs => pure (f (Bytes.littleEndian bs.val)) := by
  rw [number, bind_assoc]
  rfl

theorem list_eq (r : Reader α) :
    list r = take 8 >>= fun bs =>
      if Bytes.littleEndian bs.val ≤ maxLength then times r (Bytes.littleEndian bs.val) []
      else fail .lengthOverflow := by
  rw [list, number, bind_assoc]
  rfl

/-! ## What is made of steps -/

namespace Stepwise

theorem bind {f : α → Reader β} (h : Stepwise bound last r)
    (hf : ∀ a last, Stepwise bound last (f a)) : Stepwise bound last (r >>= f) := by
  induction h with
  | found last a => exact hf a last
  | refused length long => exact refused length long
  | fixed last le tail ih =>
    rw [bind_assoc]
    exact fixed last le ih

theorem take (le : width ≤ bound) : Stepwise bound last (take width) := by
  rw [← bind_pure (Reader.take width)]
  exact fixed last le fun bs => found bs.val bs

theorem number (le : width ≤ bound) : Stepwise bound last (number width) :=
  fixed last le fun bs => found bs.val (Bytes.littleEndian bs.val)

theorem times (h : ∀ last, Stepwise bound last r) (n : Nat) (before : List α) (last : Bytes) :
    Stepwise bound last (times r n before) := by
  induction n generalizing before last with
  | zero => exact found last before.reverse
  | succ n ih => exact (h last).bind fun a last => ih (a :: before) last

theorem list (le : 8 ≤ bound) (h : ∀ last, Stepwise bound last r) (last : Bytes) :
    Stepwise bound last (list r) := by
  rw [list_eq]
  apply fixed last le
  intro bs
  by_cases hle : Bytes.littleEndian bs.val ≤ maxLength
  · rw [if_pos hle]
    exact times h _ _ _
  · rw [if_neg hle]
    exact refused bs.property (Nat.not_le.mp hle)

/-! ## What is left -/

theorem suffix (h : Stepwise bound last r) (input : Bytes) : (r input).2 <:+ input := by
  induction h generalizing input with
  | found last a => exact List.suffix_rfl
  | refused length long => exact List.suffix_rfl
  | @fixed last width next le tail ih =>
    rcases fixed_cases next input with ⟨_, heq⟩ | ⟨bs, rest, rfl, heq⟩
    · simp only [heq, List.suffix_rfl]
    · rw [heq]
      exact (ih bs rest).trans (List.suffix_append bs.val rest)

theorem error_cases (h : Stepwise bound last r) {input left : Bytes} {e : ReadError}
    (hread : r input = (.error e, left)) : e = .endOfInput ∨ e = .lengthOverflow := by
  induction h generalizing input with
  | found last a => cases hread
  | refused length long =>
    cases hread
    exact .inr rfl
  | @fixed last width next le tail ih =>
    rcases fixed_cases next input with ⟨_, heq⟩ | ⟨bs, rest, rfl, heq⟩
    · rw [heq] at hread
      cases hread
      exact .inl rfl
    · exact ih bs (heq ▸ hread)

/-- An answer that did not come from a lack of input stays when there is more of it. -/
theorem apply_append (h : Stepwise bound last r) {input left : Bytes}
    {outcome : Except ReadError α} (hread : r input = (outcome, left))
    (hne : outcome ≠ .error .endOfInput) (more : Bytes) :
    r (input ++ more) = (outcome, left ++ more) := by
  induction h generalizing input with
  | found last a =>
    cases hread
    rfl
  | refused length long =>
    cases hread
    rfl
  | @fixed last width next le tail ih =>
    rcases fixed_cases next input with ⟨_, heq⟩ | ⟨bs, rest, rfl, heq⟩
    · rw [heq] at hread
      exact absurd (congrArg Prod.fst hread).symm hne
    · rw [List.append_assoc, fixed_append]
      exact ih bs (heq ▸ hread)

end Stepwise

/-! ## Where a read fails -/

namespace FixedReadAt

theorem first (tail : ∀ bs, Stepwise bound bs.val (next bs)) :
    FixedReadAt (Reader.take width >>= next) [] width where
  short more hmore := bind_of_error (take_of_short hmore) next
  enough more hmore := by
    rcases fixed_cases next more with ⟨hshort, _⟩ | ⟨bs, rest, rfl, heq⟩
    · exact absurd hmore (Nat.not_le.mpr hshort)
    · rw [List.nil_append, heq, List.drop_left' bs.property]
      exact (tail bs).suffix rest

theorem behind {bs : { bs : Bytes // bs.length = width }} {taken : Bytes} {w : Nat}
    (h : FixedReadAt (next bs) taken w) :
    FixedReadAt (Reader.take width >>= next) (bs.val ++ taken) w where
  short more hmore := by
    rw [List.append_assoc, fixed_append]
    exact h.short more hmore
  enough more hmore := by
    rw [List.append_assoc, fixed_append]
    exact h.enough more hmore

end FixedReadAt

namespace Stepwise

/-- A read that runs out of input stands at a fixed read of more bytes than are left. -/
theorem fixedReadAt_of_endOfInput (h : Stepwise bound last r) {input left : Bytes}
    (hread : r input = (.error .endOfInput, left)) :
    ∃ taken w, input = taken ++ left ∧ left.length < w ∧ w ≤ bound ∧ FixedReadAt r taken w := by
  induction h generalizing input with
  | found last a => cases hread
  | refused length long => cases hread
  | @fixed last width next le tail ih =>
    rcases fixed_cases next input with ⟨hshort, heq⟩ | ⟨bs, rest, rfl, heq⟩
    · rw [heq] at hread
      cases hread
      exact ⟨[], width, rfl, hshort, le, .first tail⟩
    · obtain ⟨taken, w, rfl, hlt, hle, hat⟩ := ih bs (heq ▸ hread)
      exact ⟨bs.val ++ taken, w, (List.append_assoc ..).symm, hlt, hle, hat.behind⟩

/-- A length is refused right behind its eight bytes, which may be those of the read before. -/
theorem fixedReadAt_of_lengthOverflow (h : Stepwise bound last r) {input left : Bytes}
    (hread : r input = (.error .lengthOverflow, left)) :
    (input = left ∧ last.length = 8 ∧ maxLength < Bytes.littleEndian last) ∨
      ∃ taken count, input = taken ++ (count ++ left) ∧ count.length = 8 ∧
        maxLength < Bytes.littleEndian count ∧ FixedReadAt r taken 8 := by
  induction h generalizing input with
  | found last a => cases hread
  | refused length long =>
    cases hread
    exact .inl ⟨rfl, length, long⟩
  | @fixed last width next le tail ih =>
    rcases fixed_cases next input with ⟨_, heq⟩ | ⟨⟨bs, rfl⟩, rest, rfl, heq⟩
    · rw [heq] at hread
      cases hread
    · rcases ih _ (heq ▸ hread) with
        ⟨rfl, hlength, hlong⟩ | ⟨taken, count, rfl, hlength, hlong, hat⟩
      · exact .inr ⟨[], bs, rfl, hlength, hlong, hlength ▸ .first tail⟩
      · exact .inr ⟨bs ++ taken, count, (List.append_assoc ..).symm, hlength, hlong, hat.behind⟩

end Stepwise

end Reader

/-! ## The readers of the format -/

namespace Schema

open Reader

/-- The greatest length of the arrays in a value. -/
def longestArray : Schema → Nat
  | u8 => 0
  | u16 => 0
  | u32 => 0
  | u64 => 0
  | size => 0
  | array length => length
  | word => 0
  | source => 0
  | config => 0
  | list element => element.longestArray

variable {bound : Nat} {last : Bytes}

theorem byteReader_stepwise (le : 1 ≤ bound) : Stepwise bound last byteReader :=
  (Stepwise.number le).bind fun n last => .found last n.toUInt8

theorem uint32Reader_stepwise (le : 4 ≤ bound) : Stepwise bound last uint32Reader :=
  (Stepwise.number le).bind fun n last => .found last n.toUInt32

theorem wordReader_stepwise (le : 32 ≤ bound) : Stepwise bound last wordReader :=
  (Stepwise.take le).bind fun bs last => .found last (Word.mk bs.val bs.property)

theorem sourceReader_stepwise (le : 8 ≤ bound) : Stepwise bound last sourceReader :=
  (Stepwise.list le (fun _ => byteReader_stepwise (by omega)) last).bind
    fun bytes last => .found last (Source.mk bytes)

theorem configReader_stepwise (le : 32 ≤ bound) : Stepwise bound last configReader := by
  have hlength : 8 ≤ bound := Nat.le_trans (by decide) le
  apply (Stepwise.list hlength (fun _ => sourceReader_stepwise hlength) last).bind
  intro sources last
  apply (Stepwise.list hlength (fun _ => wordReader_stepwise le) last).bind
  intro constants last
  apply (uint32Reader_stepwise (by omega)).bind
  intro stackLength last
  apply (uint32Reader_stepwise (by omega)).bind
  intro argumentsLength last
  exact .found last (StateConfig.mk sources constants stackLength argumentsLength)

/-- No read is wider than a word or the longest array. -/
theorem reader_stepwise (t : Schema) (last : Bytes) :
    Stepwise (max 32 t.longestArray) last t.reader := by
  induction t generalizing last with
  | u8 => exact byteReader_stepwise (by decide)
  | u16 => exact (Stepwise.number (by decide)).bind fun n last => .found last n.toUInt16
  | u32 => exact uint32Reader_stepwise (by decide)
  | u64 => exact (Stepwise.number (by decide)).bind fun n last => .found last n.toUInt64
  | size => exact (Stepwise.number (by decide)).bind fun n last => .found last n.toUInt64
  | array length => exact Stepwise.take (Nat.le_max_right 32 length)
  | word => exact wordReader_stepwise (by decide)
  | source => exact sourceReader_stepwise (by decide)
  | config => exact configReader_stepwise (by decide)
  | list element ih =>
    exact Stepwise.list (Nat.le_trans (by decide) (Nat.le_max_left 32 element.longestArray)) ih last

end Schema

end SaleRules
