import SaleRules.Proofs.WordOrder

/-!
# Subtraction column by column

The columns of a difference are worked off from right to left, each with the borrow that the columns
to its right ask for. Every signed number on the way is the exact one and the byte kept of it is the
whole of it. The borrow out of the leftmost column is lost: that is the subtraction modulo
`2 ^ 256`, and a borrow is lost exactly if the first word is the smaller one.
-/
namespace SaleRules.Word

/-- What the columns from `i` on ask of the column to their left. -/
def borrow (a b : Word) (i : Nat) : Int16 := (subColumns (a.bytes.drop i) (b.bytes.drop i)).2

/-- The signed difference in a column. -/
def columnDifference (a b : Word) (i : Fin 32) : Int16 :=
  difference (a.column i) (b.column i) (a.borrow b (i + 1))

/-- What is cut to a byte in a column. -/
def columnDigit (a b : Word) (i : Fin 32) : Int16 :=
  if a.columnDifference b i < 0 then a.columnDifference b i + 256 else a.columnDifference b i

/-- The machine integers of a column hold the numbers that they stand for: the borrow is what the
bytes to the right lack, nothing signed leaves its range, and no part of the digit is cut off. -/
structure ExactColumn (a b : Word) (i : Fin 32) : Prop where
  borrow : (a.borrow b (i + 1)).toInt =
    if Bytes.bigEndian (a.bytes.drop (i + 1)) < Bytes.bigEndian (b.bytes.drop (i + 1)) then 1 else 0
  bytes : (Int16.ofNat (a.column i).toNat - Int16.ofNat (b.column i).toNat).toInt =
    (a.column i).toNat - (b.column i).toNat
  difference : (a.columnDifference b i).toInt =
    (a.column i).toNat - (b.column i).toNat - (a.borrow b (i + 1)).toInt
  digit : (a.columnDigit b i).toInt =
    (a.columnDifference b i).toInt + 256 * (a.borrow b i).toInt
  kept : (((a.wrappingSub b).column i).toNat : Int) = (a.columnDigit b i).toInt

variable (a b c : Word)

theorem drop_subColumns {as bs : Bytes} (h : as.length = bs.length) (i : Nat) :
    (subColumns as bs).1.drop i = (subColumns (as.drop i) (bs.drop i)).1 := by
  induction i generalizing as bs with
  | zero => rfl
  | succ i ih =>
    cases as with
    | nil => simp [subColumns]
    | cons a as =>
      cases bs with
      | nil => cases h
      | cons b bs => exact ih (Nat.succ.inj h)

theorem subColumns_drop_bytes (i : Fin 32) :
    subColumns (a.bytes.drop i) (b.bytes.drop i) =
      ((settle (a.columnDifference b i)).1 ::
        (subColumns (a.bytes.drop (i + 1)) (b.bytes.drop (i + 1))).1,
        (settle (a.columnDifference b i)).2) := by
  rw [a.drop_bytes i, b.drop_bytes i]
  rfl

theorem borrow_eq (i : Fin 32) : a.borrow b i = (settle (a.columnDifference b i)).2 := by
  rw [borrow, subColumns_drop_bytes]

theorem column_wrappingSub (i : Fin 32) :
    (a.wrappingSub b).column i = (settle (a.columnDifference b i)).1 := by
  have hdrop : (a.wrappingSub b).bytes.drop i = _ :=
    drop_subColumns (a.length_bytes.trans b.length_bytes.symm) i
  rw [subColumns_drop_bytes, drop_bytes] at hdrop
  exact (List.cons.inj hdrop).1

/-- Whatever the columns from `i` on keep is below the bound of their number, so they ask for a
borrow exactly if their number in `a` is the smaller one. -/
theorem toInt_borrow (i : Nat) :
    (a.borrow b i).toInt =
      if Bytes.bigEndian (a.bytes.drop i) < Bytes.bigEndian (b.bytes.drop i) then 1 else 0 := by
  have hlen : (a.bytes.drop i).length = (b.bytes.drop i).length := by
    rw [List.length_drop, List.length_drop, a.length_bytes, b.length_bytes]
  obtain ⟨hborrow, hvalue⟩ := subColumns_value hlen
  have hlt := Bytes.bigEndian_lt (subColumns (a.bytes.drop i) (b.bytes.drop i)).1
  rw [length_subColumns hlen, ← Int.ofNat_lt] at hlt
  push_cast at hlt
  rw [borrow]
  rcases hborrow with h | h
  · rw [h] at hvalue ⊢
    rw [if_neg (by omega)]
  · rw [h] at hvalue ⊢
    rw [if_pos (by omega)]

theorem borrow_cases (i : Nat) : (a.borrow b i).toInt = 0 ∨ (a.borrow b i).toInt = 1 := by
  rw [toInt_borrow]
  split
  · exact .inr rfl
  · exact .inl rfl

theorem toInt_subtract_bytes (x y : UInt8) :
    (Int16.ofNat x.toNat - Int16.ofNat y.toNat).toInt = x.toNat - y.toNat := by
  have h := @toInt_difference x y 0 (.inl rfl)
  rwa [difference, Int16.sub_zero, Int16.toInt_zero, sub_zero] at h

/-- Where the difference is negative, a borrow of 256 makes it a digit. -/
theorem toInt_columnDigit (i : Fin 32) :
    (a.columnDigit b i).toInt = (a.columnDifference b i).toInt + 256 * (a.borrow b i).toInt := by
  rw [borrow_eq, columnDigit]
  by_cases hneg : a.columnDifference b i < 0
  · have hsettle : (settle (a.columnDifference b i)).2 = 1 := congrArg Prod.snd (if_pos hneg)
    rw [if_pos hneg, hsettle, toInt_add_256 (neg_iff.mp hneg)]
    rfl
  · have hsettle : (settle (a.columnDifference b i)).2 = 0 := congrArg Prod.snd (if_neg hneg)
    rw [if_neg hneg, hsettle]
    exact (add_zero _).symm

theorem exactColumn (i : Fin 32) : a.ExactColumn b i := by
  have hdifference := toInt_difference (a.column i) (b.column i) (a.borrow_cases b (i + 1))
  have hdigit := a.toInt_columnDigit b i
  have ha := (a.column i).toNat_lt
  have hb := (b.column i).toNat_lt
  have hborrow := a.borrow_cases b (i + 1)
  have hrange : -256 ≤ (a.columnDifference b i).toInt ∧ (a.columnDifference b i).toInt < 256 := by
    rw [columnDifference, hdifference]
    omega
  -- what is kept of the column and the borrow make up the difference, as the digit does
  have hsettle := (settle_eq hrange.1 hrange.2).2
  rw [← column_wrappingSub, ← borrow_eq] at hsettle
  refine ⟨a.toInt_borrow b (i + 1), toInt_subtract_bytes _ _, hdifference, hdigit, ?_⟩
  rw [hdigit, ← hsettle]
  exact (sub_add_cancel _ _).symm

/-! ## The difference as a number -/

theorem wrappingSub_eq_iff : a.wrappingSub b = c ↔ a = ofNat (c.toNat + b.toNat) := by
  have ha := a.toNat_lt
  have hb := b.toNat_lt
  have hc := c.toNat_lt
  rw [← toNat_inj, ← toNat_inj, toNat_wrappingSub, toNat_ofNat]
  omega

theorem wrappingSub_exchange : a.wrappingSub b = c ↔ b = a.wrappingSub c := by
  have ha := a.toNat_lt
  have hb := b.toNat_lt
  have hc := c.toNat_lt
  rw [← toNat_inj, ← toNat_inj, toNat_wrappingSub, toNat_wrappingSub]
  omega

theorem toInt_wrappingSub :
    ((a.wrappingSub b).toNat : Int) =
      a.toNat - b.toNat + if a.toNat < b.toNat then 2 ^ 256 else 0 := by
  have ha := a.toNat_lt
  have hb := b.toNat_lt
  rw [toNat_wrappingSub]
  split <;> omega

/-- The difference is that of the numbers modulo `2 ^ 256`, and no machine integer of any column
wraps or is cut. Each argument is determined by the other and the difference. The word wraps below
zero exactly if the first argument comes before the second. -/
theorem wrappingSub_exact (a b : Word) :
    ((a.wrappingSub b).toNat : Int) = ((a.toNat : Int) - b.toNat) % 2 ^ 256 ∧
    (∀ i, a.ExactColumn b i) ∧
    (∀ c, (∃! x : Word, x.wrappingSub b = c) ∧ ∃! y : Word, a.wrappingSub y = c) ∧
    (compare a b = .lt ↔ (a.borrow b 0).toInt = 1) ∧
    (compare a b = .lt ↔ ((a.wrappingSub b).toNat : Int) ≠ a.toNat - b.toNat) := by
  have ha := a.toNat_lt
  have hb := b.toNat_lt
  refine ⟨?_, a.exactColumn b, fun c => ⟨?_, ?_⟩, ?_, ?_⟩
  · rw [toNat_wrappingSub]
    omega
  · exact ⟨ofNat (c.toNat + b.toNat), (wrappingSub_eq_iff _ _ _).mpr rfl,
      fun x hx => (wrappingSub_eq_iff _ _ _).mp hx⟩
  · exact ⟨a.wrappingSub c, (wrappingSub_exchange _ _ _).mpr rfl,
      fun y hy => (wrappingSub_exchange _ _ _).mp hy⟩
  · rw [compare_eq_lt_iff, toInt_borrow]
    change _ ↔ (if a.toNat < b.toNat then 1 else 0 : Int) = 1
    split <;> omega
  · rw [compare_eq_lt_iff, toInt_wrappingSub]
    split <;> omega

end SaleRules.Word
