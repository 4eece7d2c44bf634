import SaleRules.Proofs.WordColumns

/-!
# The order of words

Words are compared by their bytes, the most significant first. Bytes to the right of the first
difference cannot make up for it, so this is the order of the numbers.
-/
namespace SaleRules

/-- A number in front decides, whatever stands below the bound behind it. -/
theorem Bytes.compare_columns {bound x y : Nat} (hx : x < bound) (hy : y < bound) (m n : Nat) :
    compare (m * bound + x) (n * bound + y) = (compare m n).then (compare x y) := by
  rcases Nat.lt_trichotomy m n with h | rfl | h
  · have hle := Nat.mul_le_mul_right bound (Nat.succ_le_of_lt h)
    rw [Nat.succ_mul] at hle
    rw [Nat.compare_eq_lt.mpr h]
    apply Nat.compare_eq_lt.mpr
    omega
  · rw [Nat.compare_eq_eq.mpr rfl]
    show compareOfLessAndEq (m * bound + x) (m * bound + y) = compareOfLessAndEq x y
    simp only [compareOfLessAndEq, Nat.add_lt_add_iff_left, Nat.add_left_cancel_iff]
  · have hle := Nat.mul_le_mul_right bound (Nat.succ_le_of_lt h)
    rw [Nat.succ_mul] at hle
    rw [Nat.compare_eq_gt.mpr h]
    apply Nat.compare_eq_gt.mpr
    omega

theorem Bytes.compare_byte (a b : UInt8) : compare a b = compare a.toNat b.toNat := by
  show compareOfLessAndEq a b = compareOfLessAndEq a.toNat b.toNat
  simp only [compareOfLessAndEq, UInt8.lt_iff_toNat_lt, UInt8.toNat_inj]

theorem Bytes.compare_eq {as bs : Bytes} (h : as.length = bs.length) :
    compare as bs = compare as.bigEndian bs.bigEndian := by
  induction as generalizing bs with
  | nil =>
    rw [List.length_eq_zero_iff.mp h.symm]
    rfl
  | cons a as ih =>
    cases bs with
    | nil => cases h
    | cons b bs =>
      have hlen := Nat.succ.inj h
      have hlt := Bytes.bigEndian_lt as
      rw [hlen] at hlt
      rw [List.compare_cons_cons, ih hlen, Bytes.compare_byte, Bytes.bigEndian_cons,
        Bytes.bigEndian_cons, hlen, Bytes.compare_columns hlt (Bytes.bigEndian_lt bs)]

namespace Word

theorem compare_eq (a b : Word) : compare a b = compare a.toNat b.toNat :=
  Bytes.compare_eq (a.length_bytes.trans b.length_bytes.symm)

theorem compare_eq_lt_iff {a b : Word} : compare a b = .lt ↔ a.toNat < b.toNat := by
  rw [compare_eq, Nat.compare_eq_lt]

theorem compare_eq_eq_iff {a b : Word} : compare a b = .eq ↔ a.toNat = b.toNat := by
  rw [compare_eq, Nat.compare_eq_eq]

theorem compare_eq_gt_iff {a b : Word} : compare a b = .gt ↔ b.toNat < a.toNat := by
  rw [compare_eq, Nat.compare_eq_gt]

end Word

end SaleRules
