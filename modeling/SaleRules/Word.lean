import SaleRules.Bytes

/-!
# Words

A word is an unsigned 256-bit number, held as 32 bytes, most significant first. Arithmetic runs
over the columns of bytes in machine integers just wide enough for one column: differences with a
borrow in 16 signed bits, products and remainders with a carry in 32 unsigned bits. Words of one
value have equal bytes, so the order of byte strings is the order of numbers.
-/
namespace SaleRules

/-- A 256-bit unsigned number, most significant byte first. -/
structure Word where
  bytes : Bytes
  length_bytes : bytes.length = 32
  deriving DecidableEq, Repr

namespace Word

/-- The number that a word denotes. -/
def toNat (w : Word) : Nat := w.bytes.bigEndian

/-- The word of a number modulo `2 ^ 256`. -/
def ofNat (n : Nat) : Word := ⟨Bytes.ofBigEndian 32 n, Bytes.length_ofBigEndian 32 n⟩

def ofUInt64 (n : UInt64) : Word := ofNat n.toNat

def ofUInt128 (n : BitVec 128) : Word := ofNat n.toNat

def zero : Word := ⟨List.replicate 32 0, rfl⟩

def max : Word := ⟨List.replicate 32 255, rfl⟩

instance : Inhabited Word := ⟨zero⟩

@[ext] theorem ext {a b : Word} (h : a.bytes = b.bytes) : a = b := by
  cases a; cases b; congr

theorem toNat_inj {a b : Word} : a.toNat = b.toNat ↔ a = b :=
  ⟨fun h => ext (Bytes.eq_of_bigEndian_eq (a.length_bytes.trans b.length_bytes.symm) h),
    congrArg toNat⟩

/-! ## Order and conversions -/

/-- Words are ordered by their bytes, the most significant first. -/
instance : Ord Word := ⟨fun a b => compare a.bytes b.bytes⟩

def isZero (w : Word) : Bool := w.bytes.all (· == 0)

theorem isZero_iff {w : Word} : w.isZero = true ↔ w.toNat = 0 := by
  simp [isZero, toNat, Bytes.bigEndian_eq_zero]

/-- The value as an unsigned 64-bit integer, if the upper 24 bytes are zero. -/
def toUInt64? (w : Word) : Option UInt64 :=
  if (w.bytes.take 24).all (· == 0) then some (UInt64.ofNat (Bytes.bigEndian (w.bytes.drop 24)))
  else none

/-- The value as a signed 64-bit integer, if it is one. -/
def toInt64? (w : Word) : Option Int64 :=
  w.toUInt64?.bind fun n => if n < 0x8000000000000000 then some n.toInt64 else none

/-! ## Subtraction -/

/-- The signed difference of one column, with the borrow that the column to its right asks for. -/
def difference (a b : UInt8) (borrow : Int16) : Int16 :=
  Int16.ofNat a.toNat - Int16.ofNat b.toNat - borrow

/-- The digit that a signed difference leaves in its column, and the borrow it asks for. -/
def settle (difference : Int16) : UInt8 × Int16 :=
  if difference < 0 then ((difference + 256).toUInt16.toUInt8, 1)
  else (difference.toUInt16.toUInt8, 0)

/-- Subtracts from the rightmost column on; the second part is the borrow out of the leftmost. -/
def subColumns : Bytes → Bytes → Bytes × Int16
  | a :: as, b :: bs =>
    let low := subColumns as bs
    let column := settle (difference a b low.2)
    (column.1 :: low.1, column.2)
  | _, _ => ([], 0)

theorem length_subColumns {as bs : Bytes} (h : as.length = bs.length) :
    (subColumns as bs).1.length = as.length := by
  induction as generalizing bs with
  | nil => rfl
  | cons a as ih =>
    cases bs with
    | nil => simp at h
    | cons b bs => simp [subColumns, ih (Nat.succ.inj h)]

/-- The difference modulo `2 ^ 256`: the borrow out of the leftmost column is lost. -/
def wrappingSub (a b : Word) : Word :=
  ⟨(subColumns a.bytes b.bytes).1, by
    rw [length_subColumns (a.length_bytes.trans b.length_bytes.symm), a.length_bytes]⟩

/-! ## Multiplication by a small factor -/

/-- The sum of one column: its product and the carry from the column to its right. -/
def product (factor b : UInt8) (carry : UInt32) : UInt32 := b.toUInt32 * factor.toUInt32 + carry

/-- Multiplies from the rightmost column on, starting from the addend as the carry; the second part
is the carry out of the leftmost column. -/
def mulColumns (factor addend : UInt8) : Bytes → Bytes × UInt32
  | [] => ([], addend.toUInt32)
  | b :: bs =>
    let low := mulColumns factor addend bs
    let v := product factor b low.2
    (v.toUInt8 :: low.1, v >>> 8)

@[simp] theorem length_mulColumns (factor addend : UInt8) (bs : Bytes) :
    (mulColumns factor addend bs).1.length = bs.length := by
  induction bs with
  | nil => rfl
  | cons b bs ih => simp [mulColumns, ih]

/-- The word times the factor plus the addend, if no carry leaves the leftmost column. -/
def mulAdd? (w : Word) (factor addend : UInt8) : Option Word :=
  if (mulColumns factor addend w.bytes).2 = 0 then
    some ⟨(mulColumns factor addend w.bytes).1, by rw [length_mulColumns, w.length_bytes]⟩
  else none

/-! ## Division by a small divisor -/

/-- What one column of a long division divides: the remainder so far, then the byte. -/
def dividend (rem : UInt32) (b : UInt8) : UInt32 := (rem <<< 8) ||| b.toUInt32

/-- Long division from the leftmost column on: the quotient's bytes and the last remainder. -/
def divColumns (divisor : UInt8) (rem : UInt32) : Bytes → Bytes × UInt32
  | [] => ([], rem)
  | b :: bs =>
    let cur := dividend rem b
    let low := divColumns divisor (cur % divisor.toUInt32) bs
    ((cur / divisor.toUInt32).toUInt8 :: low.1, low.2)

@[simp] theorem length_divColumns (divisor : UInt8) (rem : UInt32) (bs : Bytes) :
    (divColumns divisor rem bs).1.length = bs.length := by
  induction bs generalizing rem with
  | nil => rfl
  | cons b bs ih => simp [divColumns, ih]

/-- The quotient and the remainder by a divisor other than zero. -/
def divRem (w : Word) (divisor : UInt8) : Word × UInt8 :=
  (⟨(divColumns divisor 0 w.bytes).1, by rw [length_divColumns, w.length_bytes]⟩,
    (divColumns divisor 0 w.bytes).2.toUInt8)

theorem toNat_dividend {rem : UInt32} (h : rem.toNat < 256) (b : UInt8) :
    (dividend rem b).toNat = rem.toNat * 256 + b.toNat := by
  have hb : b.toNat < 2 ^ 8 := b.toNat_lt
  have hshift : (rem.toNat <<< 8) % 2 ^ 32 = rem.toNat <<< 8 := by
    rw [Nat.shiftLeft_eq]; omega
  rw [dividend, UInt32.toNat_or, UInt32.toNat_shiftLeft, UInt8.toNat_toUInt32]
  show (rem.toNat <<< 8) % 2 ^ 32 ||| b.toNat = _
  rw [hshift, ← Nat.shiftLeft_add_eq_or_of_lt hb, Nat.shiftLeft_eq]

/-- One column of a long division leaves a quotient that fits a byte. -/
theorem toNat_quotient {divisor : UInt8} {rem : UInt32} (h : rem.toNat < divisor.toNat)
    (b : UInt8) :
    (dividend rem b / divisor.toUInt32).toUInt8.toNat =
      (rem.toNat * 256 + b.toNat) / divisor.toNat := by
  have hd := divisor.toNat_lt
  have hb := b.toNat_lt
  have hlt : (rem.toNat * 256 + b.toNat) / divisor.toNat < 256 := by
    rw [Nat.div_lt_iff_lt_mul (by omega)]
    omega
  rw [UInt32.toNat_toUInt8, UInt32.toNat_div, toNat_dividend (by omega), UInt8.toNat_toUInt32]
  exact Nat.mod_eq_of_lt hlt

theorem toNat_remainder {divisor : UInt8} {rem : UInt32} (h : rem.toNat < divisor.toNat)
    (b : UInt8) :
    (dividend rem b % divisor.toUInt32).toNat = (rem.toNat * 256 + b.toNat) % divisor.toNat := by
  have hd := divisor.toNat_lt
  rw [UInt32.toNat_mod, toNat_dividend (by omega), UInt8.toNat_toUInt32]

theorem divColumns_lt {divisor : UInt8} {rem : UInt32} (h : rem.toNat < divisor.toNat)
    (bs : Bytes) : (divColumns divisor rem bs).2.toNat < divisor.toNat := by
  induction bs generalizing rem with
  | nil => exact h
  | cons b bs ih =>
    exact ih (by rw [toNat_remainder h]; exact Nat.mod_lt _ (by omega))

/-- Behind a number that the divisor divides with the quotient `a`, long division keeps dividing. -/
theorem divColumns_value {divisor : UInt8} {rem : UInt32} (h : rem.toNat < divisor.toNat)
    (a : Nat) (bs : Bytes) :
    divisor.toNat * Bytes.extend a (divColumns divisor rem bs).1 +
        (divColumns divisor rem bs).2.toNat =
      Bytes.extend (divisor.toNat * a + rem.toNat) bs := by
  induction bs generalizing rem a with
  | nil => rfl
  | cons b bs ih =>
    have hrem := toNat_remainder h b
    have hlow : (dividend rem b % divisor.toUInt32).toNat < divisor.toNat := by
      rw [hrem]
      exact Nat.mod_lt _ (by omega)
    have hcol := Nat.div_add_mod (rem.toNat * 256 + b.toNat) divisor.toNat
    have hmul : divisor.toNat * (256 * a) = 256 * (divisor.toNat * a) := Nat.mul_left_comm _ _ _
    rw [divColumns, Bytes.extend_cons, ih hlow, Bytes.extend_cons, toNat_quotient h, hrem]
    congr 1
    rw [Nat.mul_add, hmul]
    omega

theorem divRem_eq {divisor : UInt8} (h : 0 < divisor.toNat) (w : Word) :
    (w.divRem divisor).1.toNat = w.toNat / divisor.toNat ∧
      (w.divRem divisor).2.toNat = w.toNat % divisor.toNat := by
  have hlt := @divColumns_lt divisor 0 h w.bytes
  have hval := @divColumns_value divisor 0 h 0 w.bytes
  have hd := divisor.toNat_lt
  have hlow : (divColumns divisor 0 w.bytes).2.toUInt8.toNat =
      (divColumns divisor 0 w.bytes).2.toNat := by
    rw [UInt32.toNat_toUInt8]
    exact Nat.mod_eq_of_lt (by omega)
  have hqr := (Nat.div_mod_unique h).mpr ⟨(Nat.add_comm _ _).trans hval, hlt⟩
  exact ⟨hqr.1.symm, hlow.trans hqr.2.symm⟩

end Word

end SaleRules
