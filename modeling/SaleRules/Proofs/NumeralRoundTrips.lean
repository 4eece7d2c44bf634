import SaleRules.Proofs.WordReading
import SaleRules.Proofs.WordValues
import Mathlib.Data.List.Basic
import Mathlib.Logic.Function.Iterate

/-!
# Written words are read back

What is written for a word is a run of digits that denotes its number: the shortest decimal one, or
64 hexadecimal digits. No digit is a blank or looks like a mark, so a written numeral is its own
token, and reading adds its digits up to the number that they were taken from.
-/
namespace SaleRules

namespace Text

/-- The digits of a radix as they are written, the letters among them in lower case. -/
def Written (radix : Nat) (cs : List Char) : Prop := ∀ c ∈ cs, ∃ d < radix, c = Nat.digitChar d

theorem digitValue_digitChar : ∀ d < 16, digitValue (Nat.digitChar d) = d := by decide

theorem isBlank_digitChar : ∀ d < 16, isBlank (Nat.digitChar d) = false := by decide

theorem digitChar_ne_mark : ∀ d < 10, Nat.digitChar d ≠ 'x' ∧ Nat.digitChar d ≠ 'X' := by decide

theorem digitChar_eq_zero : ∀ d < 10, Nat.digitChar d = '0' ↔ d = 0 := by decide

theorem numeralValue_append (radix : Nat) (as bs : List Char) :
    numeralValue radix (as ++ bs) =
      numeralValue radix as * radix ^ bs.length + numeralValue radix bs := by
  rw [numeralValue, List.reverse_append, List.map_append, Nat.ofDigits_append, List.length_map,
    List.length_reverse, Nat.mul_comm, Nat.add_comm]
  rfl

theorem numeralValue_digitChar (radix : Nat) {d : Nat} (hd : d < 16) :
    numeralValue radix [Nat.digitChar d] = d := by
  rw [numeralValue_cons, digitValue_digitChar d hd]
  simp

/-! ## Written digits -/

namespace Written

variable {radix : Nat} {cs : List Char}

/-- What holds of each digit holds of each character that is written. -/
theorem forall_mem (h : Written radix cs) {P : Char → Prop}
    (hP : ∀ d < radix, P (Nat.digitChar d)) : ∀ c ∈ cs, P c := by
  intro c hc
  obtain ⟨d, hd, rfl⟩ := h c hc
  exact hP d hd

theorem all_digits (h : Written radix cs) (hradix : radix ≤ 16) :
    cs.takeWhile (isDigit radix) = cs := by
  refine List.takeWhile_eq_self_iff.mpr (h.forall_mem fun d hd => decide_eq_true ?_)
  rwa [digitValue_digitChar d (Nat.lt_of_lt_of_le hd hradix)]

theorem not_blank (h : Written radix cs) (hradix : radix ≤ 16) : ∀ c ∈ cs, isBlank c = false :=
  h.forall_mem fun d hd => isBlank_digitChar d (Nat.lt_of_lt_of_le hd hradix)

/-- Decimal digits hold no letter, so they do not start with a mark. -/
theorem marked (h : Written 10 cs) : Marked cs 10 cs := by
  have hmark : ∀ c ∈ cs, c ≠ 'x' ∧ c ≠ 'X' := h.forall_mem digitChar_ne_mark
  refine .none ?_ ?_
  · rintro digits rfl
    exact (hmark 'x' (by simp)).1 rfl
  · rintro digits rfl
    exact (hmark 'X' (by simp)).2 rfl

end Written

theorem isTrimmed_self {cs : List Char} (h : ∀ c ∈ cs, isBlank c = false) : IsTrimmed cs cs where
  around := ⟨[], [], (List.append_nil cs).symm, by simp, by simp⟩
  first c hc := h c (List.mem_of_mem_head? hc)
  last c hc := h c (List.mem_of_mem_getLast? hc)

/-! ## Decimal digits -/

/-- A decimal numeral is one digit, or that of a number greater than zero with a digit behind it. -/
theorem toDigits_induction {P : Nat → List Char → Prop}
    (digit : ∀ d < 10, P d [Nat.digitChar d])
    (behind : ∀ n d, 0 < n → d < 10 → P n (Nat.toDigits 10 n) →
      P (n * 10 + d) (Nat.toDigits 10 n ++ [Nat.digitChar d]))
    (n : Nat) : P n (Nat.toDigits 10 n) := by
  induction n using Nat.strongRecOn with
  | ind n ih =>
    by_cases h : n < 10
    · rw [Nat.toDigits_of_lt_base h]
      exact digit n h
    · have hfront := ih (n / 10) (by omega)
      have hlast := behind (n / 10) (n % 10) (by omega) (Nat.mod_lt n (by decide)) hfront
      rw [Nat.div_add_mod'] at hlast
      rwa [Nat.toDigits_of_base_le (by decide) (Nat.not_lt.mp h)]

theorem written_toDigits (n : Nat) : Written 10 (Nat.toDigits 10 n) := by
  apply toDigits_induction (P := fun _ cs => Written 10 cs)
  · intro d hd
    exact List.forall_mem_singleton.mpr ⟨d, hd, rfl⟩
  · intro n d _ hd hfront
    exact List.forall_mem_append.mpr ⟨hfront, List.forall_mem_singleton.mpr ⟨d, hd, rfl⟩⟩

theorem numeralValue_toDigits (n : Nat) : numeralValue 10 (Nat.toDigits 10 n) = n := by
  apply toDigits_induction (P := fun n cs => numeralValue 10 cs = n)
  · intro d hd
    exact numeralValue_digitChar 10 (by omega)
  · intro n d _ hd hfront
    rw [numeralValue_append, hfront, numeralValue_digitChar 10 (by omega), List.length_singleton,
      pow_one]

/-- A numeral that starts with zero is that of zero. -/
theorem head?_toDigits (n : Nat) : (Nat.toDigits 10 n).head? = some '0' ↔ n = 0 := by
  apply toDigits_induction (P := fun n cs => cs.head? = some '0' ↔ n = 0)
  · intro d hd
    rw [List.head?_cons, Option.some_inj, digitChar_eq_zero d hd]
  · intro n d hpos _ hfront
    rw [List.head?_append_of_ne_nil _ Nat.toDigits_ne_nil, hfront]
    omega

/-! ## Hexadecimal digits -/

theorem written_hex (bs : Bytes) : Written 16 (Hex.digits bs) := by
  intro c hc
  obtain ⟨b, -, hb⟩ := List.mem_flatMap.mp hc
  have hlt := b.toNat_lt
  rcases List.mem_cons.mp hb with rfl | hlow
  · exact ⟨b.toNat / 16, by omega, rfl⟩
  · exact ⟨b.toNat % 16, by omega, List.mem_singleton.mp hlow⟩

theorem numeralValue_pair (b : UInt8) : numeralValue 16 (Hex.pair b) = b.toNat := by
  have hlt := b.toNat_lt
  rw [Hex.pair, numeralValue_cons, numeralValue_digitChar 16 (by omega),
    digitValue_digitChar _ (by omega), List.length_singleton, pow_one]
  omega

/-- Two digits for each byte make the number that the bytes make. -/
theorem numeralValue_hex (bs : Bytes) : numeralValue 16 (Hex.digits bs) = Bytes.bigEndian bs := by
  induction bs with
  | nil => rfl
  | cons b bs ih =>
    have hpow : (16 : Nat) ^ 2 = 256 := rfl
    rw [Hex.digits_cons, numeralValue_append, numeralValue_pair, ih, Hex.length_digits, pow_mul,
      hpow, Bytes.bigEndian_cons]

end Text

namespace Word

open Text

/-- A token of digits alone is read as the word of the number that they denote. -/
theorem parse_of_digits {text : String} {token digits : List Char} {radix : Nat} {w : Word}
    (htrim : IsTrimmed text.toList token) (hmark : Marked token radix digits)
    (hne : digits ≠ []) (hall : digits.takeWhile (isDigit radix) = digits)
    (hvalue : numeralValue radix digits = w.toNat) : parse text = .ok w := by
  have hrest : digits.dropWhile (isDigit radix) = [] := by
    rwa [List.dropWhile_eq_nil_iff, ← List.takeWhile_eq_self_iff]
  rw [parse_eq htrim hmark, if_neg hne, hall, hvalue, answer_toNat, if_pos hrest]

theorem toList_decimal (w : Word) : w.decimal.toList = Nat.toDigits 10 w.toNat := by
  rw [decimal_eq, Text.decimal, String.toList_ofList]

theorem toList_hex (w : Word) : w.hex.toList = Hex.digits w.bytes := String.toList_ofList

theorem parse_decimal (w : Word) : parse w.decimal = .ok w := by
  have hwritten := written_toDigits w.toNat
  have htrim := isTrimmed_self (hwritten.not_blank (by decide))
  rw [← toList_decimal] at htrim hwritten
  refine parse_of_digits htrim hwritten.marked ?_ (hwritten.all_digits (by decide)) ?_
  · rw [toList_decimal]
    exact Nat.toDigits_ne_nil
  · rw [toList_decimal, numeralValue_toDigits]

theorem parse_hex (w : Word) : parse ("0x" ++ w.hex) = .ok w := by
  have hwritten := written_hex w.bytes
  have htext : ("0x" ++ w.hex).toList = '0' :: 'x' :: Hex.digits w.bytes := by
    rw [String.toList_append, toList_hex]
    rfl
  have hblank : ∀ c ∈ '0' :: 'x' :: Hex.digits w.bytes, isBlank c = false :=
    List.forall_mem_cons.mpr ⟨rfl, List.forall_mem_cons.mpr ⟨rfl, hwritten.not_blank (by decide)⟩⟩
  have htrim := isTrimmed_self hblank
  rw [← htext] at htrim
  refine parse_of_digits htrim (htext ▸ .lower _) ?_ (hwritten.all_digits (by decide)) ?_
  · intro hnil
    have hlength := congrArg List.length hnil
    rw [Hex.length_digits, w.length_bytes] at hlength
    cases hlength
  · exact numeralValue_hex w.bytes

/-! ## The rounds of the division -/

/-- What is left of a word after `k` divisions by ten. -/
theorem toNat_iterate_divRem (w : Word) (k : Nat) :
    ((fun v : Word => (v.divRem 10).1)^[k] w).toNat = w.toNat / 10 ^ k := by
  have hten : (10 : UInt8).toNat = 10 := rfl
  induction k with
  | zero => simp
  | succ k ih =>
    rw [Function.iterate_succ_apply', (divRem_eq (by decide) _).1, ih, hten, Nat.div_div_eq_div_mul,
      pow_succ]

/-- There are as many rounds as digits. -/
theorem isZero_iterate_divRem (w : Word) (k : Nat) :
    ((fun v : Word => (v.divRem 10).1)^[k + 1] w).isZero = true ↔ w.decimal.length ≤ k + 1 := by
  rw [isZero_iff, toNat_iterate_divRem, ← String.length_toList, toList_decimal,
    Nat.length_toDigits_le_iff (by decide) (Nat.succ_pos k), Nat.div_eq_zero_iff]
  have hpos : 10 ^ (k + 1) ≠ 0 := (Nat.pow_pos (by decide)).ne'
  exact or_iff_right hpos

theorem length_decimal_le (w : Word) : w.decimal.length ≤ 78 := by
  have hlt := w.toNat_lt
  have hbound : 2 ^ 256 ≤ 10 ^ 78 := by norm_num
  rw [← String.length_toList, toList_decimal, Nat.length_toDigits_le_iff (by decide) (by decide)]
  exact Nat.lt_of_lt_of_le hlt hbound

/-- A word is written as the decimal numeral of its number, without a zero in front and in at most
78 digits, one for each division by ten until nothing is left; or as 64 lower-case hexadecimal
digits. Both are read back as the same word. -/
theorem numerals_read_back (w : Word) :
    (w.decimal.toList.all Char.isDigit = true ∧ numeralValue 10 w.decimal.toList = w.toNat ∧
      (w.decimal.toList.head? = some '0' ↔ w.toNat = 0) ∧ (w.decimal = "0" ↔ w.toNat = 0) ∧
      1 ≤ w.decimal.length ∧ w.decimal.length ≤ 78) ∧
    (∀ k, ((fun v : Word => (v.divRem 10).1)^[k + 1] w).isZero = true ↔
      w.decimal.length ≤ k + 1) ∧
    (w.hex.length = 64 ∧ w.hex.toList.all ("0123456789abcdef".toList.contains ·) = true ∧
      numeralValue 16 w.hex.toList = w.toNat) ∧
    parse w.decimal = .ok w ∧ parse ("0x" ++ w.hex) = .ok w := by
  have hhead := head?_toDigits w.toNat
  refine ⟨⟨?_, ?_, ?_, ?_, ?_, w.length_decimal_le⟩, w.isZero_iterate_divRem, ⟨?_, ?_, ?_⟩,
    w.parse_decimal, w.parse_hex⟩
  · rw [toList_decimal, List.all_eq_true]
    exact (written_toDigits w.toNat).forall_mem (by decide)
  · rw [toList_decimal, numeralValue_toDigits]
  · rwa [toList_decimal]
  · constructor
    · intro hzero
      rw [← hhead, ← toList_decimal, hzero]
      rfl
    · intro hzero
      rw [decimal_eq, hzero]
      rfl
  · rw [← String.length_toList, toList_decimal]
    exact Nat.length_toDigits_pos
  · rw [← String.length_toList, toList_hex, Hex.length_digits, w.length_bytes]
  · rw [toList_hex, List.all_eq_true]
    exact (written_hex w.bytes).forall_mem (by decide)
  · rw [toList_hex, numeralValue_hex]
    rfl

end Word

end SaleRules
