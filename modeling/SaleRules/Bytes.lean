/-!
# Byte strings and the numbers they spell

A byte string is a list of bytes. It spells a number in base 256 in two ways: the words of a
program are written most significant byte first, the integers of the binary format least
significant byte first. `ofBigEndian` and `ofLittleEndian` write a number in a given width and drop
what lies above it.
-/
namespace SaleRules

abbrev Bytes := List UInt8

namespace Bytes

/-- The number written by the digits of `n` and then the given bytes, in base 256. -/
def extend (n : Nat) (bs : Bytes) : Nat := bs.foldl (fun n b => 256 * n + b.toNat) n

/-- The number whose base-256 digits are the given bytes, most significant first. -/
def bigEndian (bs : Bytes) : Nat := extend 0 bs

/-- The number whose base-256 digits are the given bytes, least significant first. -/
def littleEndian : Bytes → Nat
  | [] => 0
  | b :: bs => b.toNat + 256 * littleEndian bs

/-- The lowest `width` base-256 digits of `n`, least significant first. -/
def ofLittleEndian : (width n : Nat) → Bytes
  | 0, _ => []
  | width + 1, n => UInt8.ofNat n :: ofLittleEndian width (n / 256)

/-- The lowest `width` base-256 digits of `n`, most significant first. -/
def ofBigEndian (width n : Nat) : Bytes := (ofLittleEndian width n).reverse

@[simp] theorem extend_nil (n : Nat) : extend n [] = n := rfl

@[simp] theorem extend_cons (n : Nat) (b : UInt8) (bs : Bytes) :
    extend n (b :: bs) = extend (256 * n + b.toNat) bs := rfl

theorem extend_append (n : Nat) (as bs : Bytes) :
    extend n (as ++ bs) = extend (extend n as) bs := List.foldl_append

@[simp] theorem bigEndian_nil : bigEndian [] = 0 := rfl

@[simp] theorem littleEndian_nil : littleEndian [] = 0 := rfl

@[simp] theorem littleEndian_cons (b : UInt8) (bs : Bytes) :
    littleEndian (b :: bs) = b.toNat + 256 * littleEndian bs := rfl

@[simp] theorem length_ofLittleEndian (width n : Nat) :
    (ofLittleEndian width n).length = width := by
  induction width generalizing n with
  | zero => rfl
  | succ width ih => simp [ofLittleEndian, ih]

@[simp] theorem length_ofBigEndian (width n : Nat) : (ofBigEndian width n).length = width := by
  simp [ofBigEndian]

/-- The two readings are of one byte string and its reverse. -/
theorem bigEndian_reverse (bs : Bytes) : bigEndian bs.reverse = littleEndian bs := by
  induction bs with
  | nil => rfl
  | cons b bs ih =>
    rw [bigEndian] at ih ⊢
    rw [List.reverse_cons, extend_append, ih, littleEndian_cons, extend_cons, extend_nil]
    exact Nat.add_comm _ _

theorem ofLittleEndian_littleEndian (bs : Bytes) :
    ofLittleEndian bs.length (littleEndian bs) = bs := by
  induction bs with
  | nil => rfl
  | cons b bs ih =>
    have hb := b.toNat_lt
    have hdiv : (b.toNat + 256 * littleEndian bs) / 256 = littleEndian bs := by omega
    have hlow : UInt8.ofNat (b.toNat + 256 * littleEndian bs) = b := by
      apply UInt8.toNat_inj.mp
      rw [UInt8.toNat_ofNat']
      omega
    rw [List.length_cons, ofLittleEndian, littleEndian_cons, hdiv, ih, hlow]

theorem ofBigEndian_bigEndian (bs : Bytes) : ofBigEndian bs.length (bigEndian bs) = bs := by
  have h := ofLittleEndian_littleEndian bs.reverse
  rw [List.length_reverse, ← bigEndian_reverse, List.reverse_reverse] at h
  rw [ofBigEndian, h, List.reverse_reverse]

/-- Byte strings of one length differ if their numbers do not agree. -/
theorem eq_of_bigEndian_eq {as bs : Bytes} (hlen : as.length = bs.length)
    (h : bigEndian as = bigEndian bs) : as = bs := by
  rw [← ofBigEndian_bigEndian as, ← ofBigEndian_bigEndian bs, hlen, h]

theorem extend_eq_zero {n : Nat} {bs : Bytes} :
    extend n bs = 0 ↔ n = 0 ∧ ∀ b ∈ bs, b = 0 := by
  induction bs generalizing n with
  | nil => simp
  | cons b bs ih =>
    have hb : b.toNat = 0 ↔ b = 0 := by rw [← UInt8.toNat_inj]; rfl
    have hn : 256 * n + b.toNat = 0 ↔ n = 0 ∧ b = 0 := by rw [← hb]; omega
    rw [extend_cons, ih, hn, List.forall_mem_cons, and_assoc]

theorem bigEndian_eq_zero {bs : Bytes} : bigEndian bs = 0 ↔ ∀ b ∈ bs, b = 0 := by
  rw [bigEndian, extend_eq_zero]
  exact and_iff_right rfl

end Bytes

end SaleRules
