import SaleRules.Bytes
import Mathlib.Algebra.Group.Nat.Defs
import Mathlib.Tactic.Ring

/-!
# Numbers of a fixed width

A number written in `width` bytes reads back modulo `256 ^ width`, so numbers below that bound are
in one-to-one correspondence with the byte strings of that length.
-/
namespace SaleRules.Bytes

theorem littleEndian_lt (bs : Bytes) : littleEndian bs < 256 ^ bs.length := by
  induction bs with
  | nil => simp
  | cons b bs ih =>
    have hb := b.toNat_lt
    rw [littleEndian_cons, List.length_cons, pow_succ]
    omega

theorem littleEndian_ofLittleEndian (width n : Nat) :
    littleEndian (ofLittleEndian width n) = n % 256 ^ width := by
  induction width generalizing n with
  | zero => simp [ofLittleEndian, Nat.mod_one]
  | succ width ih =>
    have hlow : (UInt8.ofNat n).toNat = n % 256 := UInt8.toNat_ofNat'
    rw [ofLittleEndian, littleEndian_cons, ih, hlow, pow_succ', Nat.mod_mul]

/-- A byte string is the only one of its length that spells its number. -/
theorem eq_ofLittleEndian_iff {width n : Nat} {bs : Bytes} (hlen : bs.length = width) :
    (littleEndian bs = n) ↔ bs = ofLittleEndian width n ∧ n < 256 ^ width := by
  subst hlen
  constructor
  · rintro rfl
    exact ⟨(ofLittleEndian_littleEndian bs).symm, littleEndian_lt bs⟩
  · intro hx
    obtain ⟨hbs, hn⟩ := hx
    rw [hbs, littleEndian_ofLittleEndian, Nat.mod_eq_of_lt hn]

/-! ## Most significant byte first -/

theorem bigEndian_lt (bs : Bytes) : bigEndian bs < 256 ^ bs.length := by
  rw [← List.reverse_reverse bs, bigEndian_reverse, List.length_reverse]
  exact littleEndian_lt bs.reverse

theorem bigEndian_ofBigEndian (width n : Nat) :
    bigEndian (ofBigEndian width n) = n % 256 ^ width := by
  rw [ofBigEndian, bigEndian_reverse, littleEndian_ofLittleEndian]

theorem extend_eq (n : Nat) (bs : Bytes) : extend n bs = n * 256 ^ bs.length + bigEndian bs := by
  induction bs generalizing n with
  | nil => simp
  | cons b bs ih =>
    rw [bigEndian, extend_cons, extend_cons, ih, ih, List.length_cons, pow_succ']
    ring

theorem bigEndian_cons (b : UInt8) (bs : Bytes) :
    bigEndian (b :: bs) = b.toNat * 256 ^ bs.length + bigEndian bs := by
  rw [bigEndian, extend_cons, Nat.mul_zero, Nat.zero_add, extend_eq]

end SaleRules.Bytes
