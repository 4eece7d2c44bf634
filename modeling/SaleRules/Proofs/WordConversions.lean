import SaleRules.Proofs.WordOrder
import SaleRules.Proofs.WordValues

/-!
# Words and machine integers

A machine integer is made a word by zeros in front of its bytes, and a word is made a machine
integer if nothing but zeros stands in front of the bytes that are kept. Both ways leave the number
as it is, and the order of words, which is that of their bytes, is the order of their numbers.
-/
namespace SaleRules

/-! ## Zeros in front -/

namespace Bytes

theorem bigEndian_zeros (k : Nat) (bs : Bytes) :
    bigEndian (List.replicate k 0 ++ bs) = bigEndian bs := by
  have hzeros : extend 0 (List.replicate k 0) = 0 :=
    extend_eq_zero.mpr ⟨rfl, fun b hb => List.eq_of_mem_replicate hb⟩
  rw [bigEndian, extend_append, hzeros, bigEndian]

/-- In a greater width a number that fits the smaller one has zeros in front. -/
theorem ofBigEndian_add (k width : Nat) {n : Nat} (h : n < 256 ^ width) :
    ofBigEndian (k + width) n = List.replicate k 0 ++ ofBigEndian width n := by
  have hle : 256 ^ width ≤ 256 ^ (k + width) := Nat.pow_le_pow_right (by decide) (by omega)
  apply eq_of_bigEndian_eq
  · simp
  · rw [bigEndian_zeros, bigEndian_ofBigEndian, bigEndian_ofBigEndian, Nat.mod_eq_of_lt h,
      Nat.mod_eq_of_lt (Nat.lt_of_lt_of_le h hle)]

end Bytes

namespace Word

/-! ## Machine integers as words -/

theorem toNat_ofUInt64 (n : UInt64) : (ofUInt64 n).toNat = n.toNat := by
  have hn := n.toNat_lt
  rw [ofUInt64, toNat_ofNat, Nat.mod_eq_of_lt (by omega)]

theorem toNat_ofUInt128 (n : BitVec 128) : (ofUInt128 n).toNat = n.toNat := by
  have hn := n.isLt
  rw [ofUInt128, toNat_ofNat, Nat.mod_eq_of_lt (by omega)]

theorem bytes_ofUInt64 (n : UInt64) :
    (ofUInt64 n).bytes = List.replicate 24 0 ++ Bytes.ofBigEndian 8 n.toNat :=
  Bytes.ofBigEndian_add 24 8 n.toNat_lt

theorem bytes_ofUInt128 (n : BitVec 128) :
    (ofUInt128 n).bytes = List.replicate 16 0 ++ Bytes.ofBigEndian 16 n.toNat :=
  Bytes.ofBigEndian_add 16 16 n.isLt

theorem toUInt64?_ofUInt64 (n : UInt64) : (ofUInt64 n).toUInt64? = some n := by
  rw [toUInt64?_eq, toNat_ofUInt64, if_pos n.toNat_lt, UInt64.ofNat_toNat]

/-- Words are ordered as their numbers are, and only equal ones have equal bytes. Machine integers
become words of the same number, with zeros in front of their bytes. A word becomes a machine
integer of the same number exactly if the number is below the bound of that integer, and is zero
exactly if the number is. -/
theorem order_and_conversions (a b : Word) :
    ((compare a b = .lt ↔ a.toNat < b.toNat) ∧ (compare a b = .eq ↔ a.toNat = b.toNat) ∧
      (compare a b = .gt ↔ b.toNat < a.toNat)) ∧
    (∀ n : UInt64, (ofUInt64 n).toNat = n.toNat ∧
      (ofUInt64 n).bytes = List.replicate 24 0 ++ Bytes.ofBigEndian 8 n.toNat ∧
      (ofUInt64 n).toUInt64? = some n) ∧
    (∀ n : BitVec 128, (ofUInt128 n).toNat = n.toNat ∧
      (ofUInt128 n).bytes = List.replicate 16 0 ++ Bytes.ofBigEndian 16 n.toNat) ∧
    (∀ n : Nat, a.toUInt64?.map UInt64.toNat = some n ↔ a.toNat = n ∧ n < 2 ^ 64) ∧
    (∀ n : Int, a.toInt64?.map Int64.toInt = some n ↔ a.toNat = n ∧ n < 2 ^ 63) ∧
    (a.isZero = true ↔ a.toNat = 0) ∧
    (a.toNat = b.toNat ↔ a.bytes = b.bytes) := by
  refine ⟨⟨compare_eq_lt_iff, compare_eq_eq_iff, compare_eq_gt_iff⟩, ?_, ?_, ?_, ?_, isZero_iff, ?_⟩
  · intro n
    exact ⟨toNat_ofUInt64 n, bytes_ofUInt64 n, toUInt64?_ofUInt64 n⟩
  · intro n
    exact ⟨toNat_ofUInt128 n, bytes_ofUInt128 n⟩
  · intro n
    exact map_toUInt64?_eq_some_iff
  · intro n
    exact map_toInt64?_eq_some_iff
  · rw [toNat_inj]
    exact ⟨congrArg bytes, ext⟩

end Word

end SaleRules
