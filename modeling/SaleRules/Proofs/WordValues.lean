import SaleRules.Proofs.WordColumns
import SaleRules.Word.Numeral

/-!
# Words as numerals and as machine integers

A word is written as the shortest decimal numeral of its number, and it is a 64-bit integer exactly
if its number is below the bound. Neither way is a digit lost.
-/
namespace SaleRules.Word

/-! ## Decimal numerals -/

theorem prependDecimal_eq {w : Word} (h : w.toNat ≠ 0) (digits : List Char) :
    w.prependDecimal digits = Nat.toDigits 10 w.toNat ++ digits := by
  fun_induction prependDecimal w digits with
  | case1 w digits hzero => exact absurd (isZero_iff.mp hzero) h
  | case2 w digits _ ih =>
    have hten : (10 : UInt8).toNat = 10 := rfl
    obtain ⟨hquotient, hremainder⟩ := @divRem_eq 10 (by decide) w
    rw [hten] at hquotient hremainder
    -- a quotient of zero writes nothing in front of the remainder, which is then the first digit
    by_cases hlast : (w.divRem 10).1.toNat = 0
    · have hlt : w.toNat < 10 := by omega
      rw [prependDecimal, dif_pos (isZero_iff.mpr hlast), hremainder, Nat.mod_eq_of_lt hlt,
        Nat.toDigits_of_lt_base hlt]
      rfl
    · have hle : 10 ≤ w.toNat := by omega
      rw [ih hlast, hquotient, hremainder, Nat.toDigits_of_base_le (by decide) hle]
      simp

theorem decimal_eq (w : Word) : w.decimal = Text.decimal w.toNat := by
  rw [decimal, decimalDigits, Text.decimal]
  by_cases h : w.toNat = 0
  · rw [if_pos (isZero_iff.mpr h), h]
    rfl
  · rw [if_neg (mt isZero_iff.mp h), prependDecimal_eq h, List.append_nil]

/-! ## Machine integers -/

/-- The last eight bytes are the number modulo the bound of a 64-bit integer. -/
theorem toNat_eq_add (w : Word) :
    w.toNat = Bytes.bigEndian (w.bytes.take 24) * 2 ^ 64 + Bytes.bigEndian (w.bytes.drop 24) ∧
      Bytes.bigEndian (w.bytes.drop 24) < 2 ^ 64 := by
  have hlength : (w.bytes.drop 24).length = 8 := by rw [List.length_drop, w.length_bytes]
  have hbound : 256 ^ 8 = 2 ^ 64 := by norm_num
  have hlt := Bytes.bigEndian_lt (w.bytes.drop 24)
  have hsplit := Bytes.extend_eq (Bytes.bigEndian (w.bytes.take 24)) (w.bytes.drop 24)
  rw [Bytes.bigEndian, ← Bytes.extend_append, List.take_append_drop] at hsplit
  rw [hlength, hbound] at hlt hsplit
  exact ⟨hsplit, hlt⟩

theorem toUInt64?_eq (w : Word) :
    w.toUInt64? = if w.toNat < 2 ^ 64 then some (UInt64.ofNat w.toNat) else none := by
  obtain ⟨hsplit, hlt⟩ := w.toNat_eq_add
  have hhigh : (w.bytes.take 24).all (· == 0) = true ↔ Bytes.bigEndian (w.bytes.take 24) = 0 := by
    simp only [List.all_eq_true, beq_iff_eq, Bytes.bigEndian_eq_zero]
  -- the last eight bytes stay below the bound, so the number reaches it if any byte before counts
  rw [toUInt64?]
  by_cases h : Bytes.bigEndian (w.bytes.take 24) = 0
  · rw [h, Nat.zero_mul, Nat.zero_add] at hsplit
    rw [if_pos (hhigh.mpr h), ← hsplit, if_pos (hsplit ▸ hlt)]
  · have hle : 2 ^ 64 ≤ w.toNat := by omega
    rw [if_neg (mt hhigh.mp h), if_neg (Nat.not_lt.mpr hle)]

theorem map_toUInt64?_eq_some_iff {w : Word} {n : Nat} :
    w.toUInt64?.map UInt64.toNat = some n ↔ w.toNat = n ∧ n < 2 ^ 64 := by
  rw [toUInt64?_eq]
  by_cases h : w.toNat < 2 ^ 64
  · rw [if_pos h, Option.map_some, UInt64.toNat_ofNat_of_lt' h, Option.some_inj]
    constructor
    · intro hn
      exact ⟨hn, hn ▸ h⟩
    · exact And.left
  · rw [if_neg h]
    constructor
    · intro hn
      cases hn
    · intro hn
      exact absurd (hn.1 ▸ hn.2) h

theorem toInt64?_eq (w : Word) :
    w.toInt64? = if w.toNat < 2 ^ 63 then some (Int64.ofNat w.toNat) else none := by
  rw [toInt64?, toUInt64?_eq]
  by_cases h : w.toNat < 2 ^ 64
  · have hhalf : UInt64.ofNat w.toNat < 0x8000000000000000 ↔ w.toNat < 2 ^ 63 := by
      rw [UInt64.lt_iff_toNat_lt, UInt64.toNat_ofNat_of_lt' h]
      rfl
    rw [if_pos h, Option.bind_some]
    simp only [hhalf, UInt64.toInt64_ofNat']
  · have hle : ¬ w.toNat < 2 ^ 63 := by omega
    rw [if_neg h, if_neg hle]
    rfl

theorem map_toInt64?_eq_some_iff {w : Word} {n : Int} :
    w.toInt64?.map Int64.toInt = some n ↔ w.toNat = n ∧ n < 2 ^ 63 := by
  rw [toInt64?_eq]
  by_cases h : w.toNat < 2 ^ 63
  · rw [if_pos h, Option.map_some, Int64.toInt_ofNat_of_lt h, Option.some_inj]
    omega
  · rw [if_neg h, Option.map_none]
    refine iff_of_false (fun hn => by cases hn) ?_
    omega

end SaleRules.Word
