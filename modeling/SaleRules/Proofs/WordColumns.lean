import SaleRules.Proofs.ByteNumbers
import SaleRules.Word
import Mathlib.Tactic.LinearCombination

/-!
# Columns of bytes as integers

Subtraction and multiplication by a small factor go from the rightmost column to the left. In each
column the machine integers hold the exact sum, so the bytes kept and the borrow or carry handed on
make up that sum, and the columns together make up the operation on the numbers.
-/
namespace SaleRules

namespace Word

theorem bound_eq : 256 ^ 32 = 2 ^ 256 := by norm_num

theorem toNat_lt (w : Word) : w.toNat < 2 ^ 256 := by
  have h := Bytes.bigEndian_lt w.bytes
  rwa [w.length_bytes, bound_eq] at h

theorem toNat_ofNat (n : Nat) : (ofNat n).toNat = n % 2 ^ 256 := by
  rw [toNat, ofNat, Bytes.bigEndian_ofBigEndian, bound_eq]

theorem ofNat_toNat (w : Word) : ofNat w.toNat = w := by
  rw [← toNat_inj, toNat_ofNat, Nat.mod_eq_of_lt w.toNat_lt]

theorem toNat_zero : zero.toNat = 0 := isZero_iff.mp rfl

/-- The byte in a column, the leftmost being column zero. -/
def column (w : Word) (i : Fin 32) : UInt8 := w.bytes.get (i.cast w.length_bytes.symm)

theorem drop_bytes (w : Word) (i : Fin 32) : w.bytes.drop i = w.column i :: w.bytes.drop (i + 1) :=
  List.drop_eq_getElem_cons (i.isLt.trans_eq w.length_bytes.symm)

/-! ## Subtraction -/

theorem toInt_difference (a b : UInt8) {borrow : Int16} (h : borrow.toInt = 0 ∨ borrow.toInt = 1) :
    (difference a b borrow).toInt = a.toNat - b.toNat - borrow.toInt := by
  have ha := a.toNat_lt
  have hb := b.toNat_lt
  have hab : (Int16.ofNat a.toNat - Int16.ofNat b.toNat).toInt = a.toNat - b.toNat := by
    rw [Int16.toInt_sub, Int16.toInt_ofNat_of_lt (by omega), Int16.toInt_ofNat_of_lt (by omega)]
    exact Int.bmod_eq_of_le (by omega) (by omega)
  rw [difference, Int16.toInt_sub, hab]
  exact Int.bmod_eq_of_le (by omega) (by omega)

/-- A signed difference that is a digit is cut to a byte without loss. -/
theorem toNat_digit {d : Int16} (hd : 0 ≤ d.toInt) (hlt : d.toInt < 256) :
    (d.toUInt16.toUInt8.toNat : Int) = d.toInt := by
  have hle : (0 : Int16) ≤ d := Int16.le_iff_toInt_le.mpr hd
  rw [UInt16.toNat_toUInt8, Int16.toNat_toUInt16_of_le hle, Int16.toNatClampNeg]
  omega

theorem neg_iff {d : Int16} : d < 0 ↔ d.toInt < 0 := Int16.lt_iff_toInt_lt

theorem toInt_add_256 {d : Int16} (hneg : d.toInt < 0) : (d + 256).toInt = d.toInt + 256 := by
  have hle := d.le_toInt
  have h256 : (256 : Int16).toInt = 256 := rfl
  rw [Int16.toInt_add, h256]
  exact Int.bmod_eq_of_le (by omega) (by omega)

theorem settle_eq {d : Int16} (hge : -256 ≤ d.toInt) (hlt : d.toInt < 256) :
    ((settle d).2.toInt = 0 ∨ (settle d).2.toInt = 1) ∧
      ((settle d).1.toNat : Int) - 256 * (settle d).2.toInt = d.toInt := by
  rw [settle]
  split
  · next hneg =>
    rw [neg_iff] at hneg
    have hone : (1 : Int16).toInt = 1 := rfl
    have hsum := toInt_add_256 hneg
    refine ⟨.inr hone, ?_⟩
    rw [toNat_digit (by omega) (by omega), hsum, hone]
    omega
  · next hnonneg =>
    rw [neg_iff] at hnonneg
    have hzero : (0 : Int16).toInt = 0 := rfl
    refine ⟨.inl hzero, ?_⟩
    rw [toNat_digit (by omega) hlt, hzero]
    omega

/-- The borrow out of the leftmost column stands for the power of 256 that the difference lacks. -/
theorem subColumns_value {as bs : Bytes} (h : as.length = bs.length) :
    ((subColumns as bs).2.toInt = 0 ∨ (subColumns as bs).2.toInt = 1) ∧
      (Bytes.bigEndian (subColumns as bs).1 : Int) -
          256 ^ as.length * (subColumns as bs).2.toInt =
        Bytes.bigEndian as - Bytes.bigEndian bs := by
  induction as generalizing bs with
  | nil =>
    rw [List.length_eq_zero_iff.mp h.symm]
    exact ⟨.inl rfl, rfl⟩
  | cons a as ih =>
    cases bs with
    | nil => cases h
    | cons b bs =>
      have hlen := Nat.succ.inj h
      obtain ⟨hborrow, hvalue⟩ := ih hlen
      have hdiff := toInt_difference a b hborrow
      have ha := a.toNat_lt
      have hb := b.toNat_lt
      have hrange : -256 ≤ (difference a b (subColumns as bs).2).toInt ∧
          (difference a b (subColumns as bs).2).toInt < 256 := by omega
      obtain ⟨hout, hcolumn⟩ := settle_eq hrange.1 hrange.2
      rw [hdiff] at hcolumn
      refine ⟨hout, ?_⟩
      rw [subColumns, Bytes.bigEndian_cons, Bytes.bigEndian_cons, Bytes.bigEndian_cons,
        length_subColumns hlen, ← hlen, List.length_cons, pow_succ]
      push_cast
      -- the column's own sum, moved to its place, and the sum of the columns to its right
      linear_combination (256 : Int) ^ as.length * hcolumn + hvalue

/-- Subtraction is modulo `2 ^ 256`. -/
theorem toNat_wrappingSub (a b : Word) :
    (a.wrappingSub b).toNat = (a.toNat + (2 ^ 256 - b.toNat)) % 2 ^ 256 := by
  obtain ⟨hborrow, hvalue⟩ := subColumns_value (a.length_bytes.trans b.length_bytes.symm)
  have ha := a.toNat_lt
  have hb := b.toNat_lt
  have hlt := (a.wrappingSub b).toNat_lt
  have hpow : (256 : Int) ^ 32 = 2 ^ 256 := by norm_num
  rw [a.length_bytes, hpow] at hvalue
  change ((a.wrappingSub b).toNat : Int) - _ = a.toNat - b.toNat at hvalue
  rcases hborrow with h | h
  · rw [h] at hvalue
    omega
  · rw [h] at hvalue
    omega

/-! ## Multiplication -/

theorem toNat_mul_le (a b : UInt8) : a.toNat * b.toNat ≤ 255 * 255 :=
  Nat.mul_le_mul (Nat.le_of_lt_succ a.toNat_lt) (Nat.le_of_lt_succ b.toNat_lt)

theorem toNat_product (factor b : UInt8) {carry : UInt32} (h : carry.toNat < 256) :
    (product factor b carry).toNat = b.toNat * factor.toNat + carry.toNat := by
  have hmul := toNat_mul_le b factor
  rw [product, UInt32.toNat_add, UInt32.toNat_mul, UInt8.toNat_toUInt32, UInt8.toNat_toUInt32]
  omega

/-- A column keeps the low byte of its sum and hands on the rest. -/
theorem toNat_column (v : UInt32) :
    v.toUInt8.toNat = v.toNat % 256 ∧ (v >>> 8).toNat = v.toNat / 256 := by
  refine ⟨UInt32.toNat_toUInt8 v, ?_⟩
  rw [UInt32.toNat_shiftRight, Nat.shiftRight_eq_div_pow]
  rfl

/-- What the columns keep and the carry out of the leftmost make up the product and the addend. -/
theorem mulColumns_value (factor addend : UInt8) (bs : Bytes) :
    (mulColumns factor addend bs).2.toNat < 256 ∧
      (mulColumns factor addend bs).2.toNat * 256 ^ bs.length +
          Bytes.bigEndian (mulColumns factor addend bs).1 =
        Bytes.bigEndian bs * factor.toNat + addend.toNat := by
  induction bs with
  | nil =>
    refine ⟨addend.toNat_lt, ?_⟩
    simp [mulColumns]
  | cons b bs ih =>
    obtain ⟨hcarry, hvalue⟩ := ih
    have hmul := toNat_mul_le b factor
    have hproduct := toNat_product factor b hcarry
    obtain ⟨hlow, hhigh⟩ := toNat_column (product factor b (mulColumns factor addend bs).2)
    rw [hproduct] at hlow hhigh
    have hcolumn := Nat.div_add_mod (b.toNat * factor.toNat +
      (mulColumns factor addend bs).2.toNat) 256
    rw [← hlow, ← hhigh] at hcolumn
    -- a carry below 256 makes a sum below 256 * 256, so the carry handed on is below 256 again
    have hout : (product factor b (mulColumns factor addend bs).2 >>> 8).toNat < 256 := by omega
    refine ⟨hout, ?_⟩
    rw [mulColumns, Bytes.bigEndian_cons, Bytes.bigEndian_cons, length_mulColumns,
      List.length_cons, pow_succ]
    linear_combination 256 ^ bs.length * hcolumn + hvalue

theorem mulAdd?_eq_some_iff {w v : Word} {factor addend : UInt8} :
    w.mulAdd? factor addend = some v ↔ v.toNat = w.toNat * factor.toNat + addend.toNat := by
  obtain ⟨-, hvalue⟩ := mulColumns_value factor addend w.bytes
  rw [w.length_bytes, bound_eq] at hvalue
  change _ = w.toNat * factor.toNat + addend.toNat at hvalue
  have hv := v.toNat_lt
  rw [mulAdd?]
  split
  · next hcarry =>
    rw [hcarry, UInt32.toNat_zero, Nat.zero_mul, Nat.zero_add] at hvalue
    rw [Option.some.injEq, ← toNat_inj, ← hvalue, eq_comm]
    rfl
  · next hcarry =>
    have hpos : (mulColumns factor addend w.bytes).2.toNat ≠ 0 :=
      fun h => hcarry (UInt32.toNat_inj.mp h)
    have hle : 2 ^ 256 ≤ (mulColumns factor addend w.bytes).2.toNat * 2 ^ 256 :=
      Nat.le_mul_of_pos_left _ (Nat.pos_of_ne_zero hpos)
    refine iff_of_false (by simp) ?_
    omega

theorem mulAdd?_eq_none_iff {w : Word} {factor addend : UInt8} :
    w.mulAdd? factor addend = none ↔ 2 ^ 256 ≤ w.toNat * factor.toNat + addend.toNat := by
  constructor
  · intro h
    by_contra hlt
    have hsome := (mulAdd?_eq_some_iff (v := ofNat (w.toNat * factor.toNat + addend.toNat))).mpr
      ((toNat_ofNat _).trans (Nat.mod_eq_of_lt (Nat.not_le.mp hlt)))
    rw [h] at hsome
    cases hsome
  · intro hle
    cases hw : w.mulAdd? factor addend with
    | none => rfl
    | some v =>
      have hv := v.toNat_lt
      rw [mulAdd?_eq_some_iff.mp hw] at hv
      omega

end Word

end SaleRules
