import SaleRules.Proofs.WordColumns

/-!
# Multiplication and division column by column

A product is worked off from right to left and hands on a carry, a quotient from left to right and
hands on a remainder. Either stays so small that no machine integer of a column overflows and no
byte is cut from a quotient. Division therefore takes back what multiplication did, and finds the
addend again as the remainder if it is below the factor.
-/
namespace SaleRules.Word

variable (w : Word) (factor addend divisor : UInt8)

/-! ## Products -/

/-- What the columns from `i` on hand to the column to their left. Behind the last column that is
the addend. -/
def carry (i : Nat) : UInt32 := (mulColumns factor addend (w.bytes.drop i)).2

/-- The sum of a column: its product and the carry handed to it. -/
def columnProduct (i : Fin 32) : UInt32 :=
  product factor (w.column i) (w.carry factor addend (i + 1))

/-- The machine integers of a column hold the numbers that they stand for: neither the product nor
the sum overflows, the low byte of the sum is kept and all else of it is handed on. -/
structure ExactProduct (i : Fin 32) : Prop where
  carry : (w.carry factor addend (i + 1)).toNat =
    (Bytes.bigEndian (w.bytes.drop (i + 1)) * factor.toNat + addend.toNat) / 256 ^ (31 - i.val)
  bytes : ((w.column i).toUInt32 * factor.toUInt32).toNat = (w.column i).toNat * factor.toNat
  sum : (w.columnProduct factor addend i).toNat =
    (w.column i).toNat * factor.toNat + (w.carry factor addend (i + 1)).toNat
  kept : ∀ v, w.mulAdd? factor addend = some v →
    (v.column i).toNat = (w.columnProduct factor addend i).toNat % 256
  handed : (w.carry factor addend i).toNat = (w.columnProduct factor addend i).toNat / 256

theorem carry_lt (i : Nat) : (w.carry factor addend i).toNat < 256 :=
  (mulColumns_value factor addend (w.bytes.drop i)).1

/-- What the columns keep is below the bound of their number, so the carry is the quotient by it. -/
theorem toNat_carry (i : Nat) :
    (w.carry factor addend i).toNat =
      (Bytes.bigEndian (w.bytes.drop i) * factor.toNat + addend.toNat) / 256 ^ (32 - i) := by
  have hvalue := (mulColumns_value factor addend (w.bytes.drop i)).2
  have hkept := Bytes.bigEndian_lt (mulColumns factor addend (w.bytes.drop i)).1
  rw [length_mulColumns, List.length_drop, w.length_bytes] at hkept
  rw [List.length_drop, w.length_bytes] at hvalue
  rw [← hvalue, Nat.add_comm, Nat.add_mul_div_right _ _ (Nat.pow_pos (by decide)),
    Nat.div_eq_of_lt hkept, Nat.zero_add]
  rfl

theorem mulColumns_drop_bytes (i : Fin 32) :
    mulColumns factor addend (w.bytes.drop i) =
      ((w.columnProduct factor addend i).toUInt8 ::
        (mulColumns factor addend (w.bytes.drop (i + 1))).1,
        w.columnProduct factor addend i >>> 8) := by
  rw [w.drop_bytes i]
  rfl

theorem drop_mulColumns (bs : Bytes) (i : Nat) :
    (mulColumns factor addend bs).1.drop i = (mulColumns factor addend (bs.drop i)).1 := by
  induction i generalizing bs with
  | zero => rfl
  | succ i ih =>
    cases bs with
    | nil => rfl
    | cons b bs => exact ih bs

variable {w factor addend}

theorem bytes_of_mulAdd {v : Word} (h : w.mulAdd? factor addend = some v) :
    v.bytes = (mulColumns factor addend w.bytes).1 := by
  rw [mulAdd?] at h
  split at h
  · exact congrArg Word.bytes (Option.some.inj h).symm
  · cases h

theorem column_of_mulAdd {v : Word} (h : w.mulAdd? factor addend = some v) (i : Fin 32) :
    v.column i = (w.columnProduct factor addend i).toUInt8 := by
  have hdrop := drop_mulColumns factor addend w.bytes i
  rw [← bytes_of_mulAdd h, drop_bytes, mulColumns_drop_bytes] at hdrop
  exact (List.cons.inj hdrop).1

variable (w factor addend)

theorem exactProduct (i : Fin 32) : w.ExactProduct factor addend i := by
  obtain ⟨hlow, hhigh⟩ := toNat_column (w.columnProduct factor addend i)
  have hbytes := @toNat_product factor (w.column i) 0 (by decide)
  rw [product, UInt32.add_zero] at hbytes
  refine ⟨?_, hbytes, toNat_product factor _ (w.carry_lt factor addend _), ?_, ?_⟩
  · rw [toNat_carry, Nat.add_comm i.val, Nat.sub_add_eq]
  · intro v hv
    rw [column_of_mulAdd hv, hlow]
  · rw [carry, mulColumns_drop_bytes, hhigh]

theorem mulAdd?_eq :
    w.mulAdd? factor addend =
      if w.toNat * factor.toNat + addend.toNat < 2 ^ 256 then
        some (ofNat (w.toNat * factor.toNat + addend.toNat))
      else none := by
  split
  · next hlt => rw [mulAdd?_eq_some_iff, toNat_ofNat, Nat.mod_eq_of_lt hlt]
  · next hle => exact mulAdd?_eq_none_iff.mpr (Nat.not_lt.mp hle)

/-! ## Quotients -/

/-- What the columns to the left of `i` leave to be divided further. -/
def remainder (i : Nat) : UInt32 := (divColumns divisor 0 (w.bytes.take i)).2

/-- What a column divides: the remainder handed to it, then its byte. -/
def columnDividend (i : Fin 32) : UInt32 := dividend (w.remainder divisor i) (w.column i)

/-- The machine integers of a column hold the numbers that they stand for: no bit of the remainder
is shifted out, the quotient is a byte that is kept whole, and the remainder is handed on. -/
structure ExactQuotient (i : Fin 32) : Prop where
  remainder : (w.remainder divisor i).toNat = Bytes.bigEndian (w.bytes.take i) % divisor.toNat
  dividend : (w.columnDividend divisor i).toNat =
    256 * (w.remainder divisor i).toNat + (w.column i).toNat
  quotient_lt : (w.columnDividend divisor i / divisor.toUInt32).toNat < 256
  kept : ((w.divRem divisor).1.column i).toNat =
    (w.columnDividend divisor i / divisor.toUInt32).toNat
  handed : (w.remainder divisor (i + 1)).toNat =
    (w.columnDividend divisor i % divisor.toUInt32).toNat

theorem divColumns_append (rem : UInt32) (as bs : Bytes) :
    divColumns divisor rem (as ++ bs) =
      ((divColumns divisor rem as).1 ++ (divColumns divisor (divColumns divisor rem as).2 bs).1,
        (divColumns divisor (divColumns divisor rem as).2 bs).2) := by
  induction as generalizing rem with
  | nil => rfl
  | cons a as ih => simp [divColumns, ih]

theorem take_bytes (i : Fin 32) : w.bytes.take (i + 1) = w.bytes.take i ++ [w.column i] :=
  (List.take_append_getElem (i.isLt.trans_eq w.length_bytes.symm)).symm

theorem remainder_succ (i : Fin 32) :
    w.remainder divisor (i + 1) = w.columnDividend divisor i % divisor.toUInt32 := by
  rw [remainder, take_bytes, divColumns_append]
  rfl

theorem column_divRem (i : Fin 32) :
    (w.divRem divisor).1.column i = (w.columnDividend divisor i / divisor.toUInt32).toUInt8 := by
  have hbytes : (w.divRem divisor).1.bytes = _ :=
    congrArg (fun bs => (divColumns divisor 0 bs).1) (List.take_append_drop i w.bytes).symm
  have hlength : (divColumns divisor 0 (w.bytes.take i)).1.length = i.val := by
    rw [length_divColumns, List.length_take, w.length_bytes, Nat.min_eq_left i.isLt.le]
  have hdrop := congrArg (List.drop i) hbytes
  rw [divColumns_append, List.drop_left' hlength, drop_bytes, w.drop_bytes] at hdrop
  exact (List.cons.inj hdrop).1

variable {divisor}

theorem remainder_lt (h : 1 ≤ divisor.toNat) (i : Nat) :
    (w.remainder divisor i).toNat < divisor.toNat :=
  @divColumns_lt divisor 0 h (w.bytes.take i)

theorem toNat_remainder_take (h : 1 ≤ divisor.toNat) (i : Nat) :
    (w.remainder divisor i).toNat = Bytes.bigEndian (w.bytes.take i) % divisor.toNat := by
  have hvalue := @divColumns_value divisor 0 h 0 (w.bytes.take i)
  change _ = Bytes.bigEndian (w.bytes.take i) at hvalue
  rw [← hvalue, Nat.mul_add_mod, Nat.mod_eq_of_lt (@divColumns_lt divisor 0 h _)]
  rfl

theorem exactQuotient (h : 1 ≤ divisor.toNat) (i : Fin 32) : w.ExactQuotient divisor i := by
  have hlt := w.remainder_lt h i
  have hdivisor := divisor.toNat_lt
  have hdividend := toNat_dividend (hlt.trans hdivisor) (w.column i)
  have hquotient : (w.columnDividend divisor i / divisor.toUInt32).toNat < 256 := by
    have hcolumn := (w.column i).toNat_lt
    rw [UInt32.toNat_div, UInt8.toNat_toUInt32, columnDividend, hdividend,
      Nat.div_lt_iff_lt_mul (by omega)]
    omega
  refine ⟨w.toNat_remainder_take h i, ?_, hquotient, ?_, ?_⟩
  · rw [columnDividend, hdividend, Nat.mul_comm]
  · rw [column_divRem, UInt32.toNat_toUInt8]
    exact Nat.mod_eq_of_lt hquotient
  · rw [remainder_succ]

/-- The last remainder is below the divisor, so no part of it is cut off. -/
theorem toNat_divRem_snd (h : 1 ≤ divisor.toNat) :
    (w.divRem divisor).2.toNat = (w.remainder divisor 32).toNat := by
  rw [toNat_remainder_take w h, (divRem_eq h w).2, List.take_of_length_le w.length_bytes.le]
  rfl

/-- Dividing by the factor takes the addend off again if it is smaller. -/
theorem divRem_of_mulAdd {v : Word} {r : UInt8} (hr : r.toNat < divisor.toNat)
    (h : w.mulAdd? divisor r = some v) : v.divRem divisor = (w, r) := by
  have hpos : 1 ≤ divisor.toNat := Nat.lt_of_le_of_lt (Nat.zero_le _) hr
  obtain ⟨hquotient, hremainder⟩ := divRem_eq hpos v
  rw [mulAdd?_eq_some_iff.mp h, Nat.mul_comm] at hquotient hremainder
  rw [Nat.mul_add_div hpos, Nat.div_eq_of_lt hr, Nat.add_zero, toNat_inj] at hquotient
  rw [Nat.mul_add_mod, Nat.mod_eq_of_lt hr, UInt8.toNat_inj] at hremainder
  exact Prod.ext hquotient hremainder

/-- A word times a byte plus a byte is the word of that number, or none if it is no word; a word by
a byte other than zero is the word of the quotient, and the remainder. No machine integer of any
column overflows or is cut. Division takes multiplication back. -/
theorem scaling_exact (w : Word) :
    (∀ factor addend, w.mulAdd? factor addend =
        (if w.toNat * factor.toNat + addend.toNat < 2 ^ 256 then
          some (ofNat (w.toNat * factor.toNat + addend.toNat))
        else none) ∧
      ∀ i, w.ExactProduct factor addend i) ∧
    (∀ divisor : UInt8, 1 ≤ divisor.toNat →
      (w.divRem divisor).1.toNat = w.toNat / divisor.toNat ∧
      (w.divRem divisor).2.toNat = w.toNat % divisor.toNat ∧
      (w.divRem divisor).2.toNat = (w.remainder divisor 32).toNat ∧
      ∀ i, w.ExactQuotient divisor i) ∧
    ∀ (divisor r : UInt8) (v : Word), r.toNat < divisor.toNat → w.mulAdd? divisor r = some v →
      v.divRem divisor = (w, r) := by
  refine ⟨fun factor addend => ⟨w.mulAdd?_eq factor addend, w.exactProduct factor addend⟩, ?_, ?_⟩
  · intro divisor h
    obtain ⟨hquotient, hremainder⟩ := divRem_eq h w
    exact ⟨hquotient, hremainder, w.toNat_divRem_snd h, w.exactQuotient h⟩
  · intro divisor r v hr h
    exact w.divRem_of_mulAdd hr h

/-- The greatest word is 255 times another one, with nothing added; one more is no word. -/
theorem scaling_exact_greatest :
    let w := ofNat ((2 ^ 256 - 1) / 255)
    w.mulAdd? 255 0 = some max ∧ w.mulAdd? 255 1 = none ∧ 1 ≤ (255 : UInt8).toNat ∧
      (0 : UInt8).toNat < (255 : UInt8).toNat ∧ max.divRem 255 = (w, 0) ∧
      max.ExactQuotient 255 31 := by
  intro w
  have hmax : w.mulAdd? 255 0 = some max := by decide +kernel
  obtain ⟨hproduct, -, hback⟩ := scaling_exact w
  have hnone : w.mulAdd? 255 1 = none := by
    rw [(hproduct 255 1).1]
    decide +kernel
  have hdivisor : 1 ≤ (255 : UInt8).toNat := by decide
  have hr : (0 : UInt8).toNat < (255 : UInt8).toNat := by decide
  exact ⟨hmax, hnone, hdivisor, hr, hback 255 0 max hr hmax,
    ((scaling_exact max).2.1 255 hdivisor).2.2.2 31⟩

end SaleRules.Word
