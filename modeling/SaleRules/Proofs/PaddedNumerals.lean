import SaleRules.Proofs.NumeralRoundTrips

/-!
# Numerals of a fixed width

A number is padded with zeros up to a width, and one that needs more digits than that is written
with all of them. Digits that fill the width are therefore the numeral of the number that they
denote, and so are more digits, unless a zero stands in front. Reading as many digits as the width
is wide takes exactly such a numeral off a text.
-/
namespace SaleRules.Text

/-! ## Digits and their number -/

theorem eq_digitChar {c : Char} (h : isDigit 10 c = true) : c = Nat.digitChar (digitValue c) := by
  revert h
  revert c
  apply ascii_cases
  · decide +kernel
  · intro c hle h
    exact absurd (ascii_of_digit (by decide) h) (Nat.not_lt.mpr hle)

theorem written_of_digits {cs : List Char} (h : cs.all (isDigit 10) = true) : Written 10 cs := by
  intro c hc
  have hdigit := List.all_eq_true.mp h c hc
  exact ⟨digitValue c, of_decide_eq_true hdigit, eq_digitChar hdigit⟩

theorem Written.all {cs : List Char} (h : Written 10 cs) : cs.all (isDigit 10) = true :=
  List.all_eq_true.mpr (h.forall_mem (by decide))

theorem Written.digitValue_lt {cs : List Char} (h : Written 10 cs) :
    ∀ d ∈ cs.reverse.map digitValue, d < 10 := by
  intro d hd
  obtain ⟨c, hc, rfl⟩ := List.mem_map.mp hd
  exact h.forall_mem (P := fun c => digitValue c < 10) (by decide) c (List.mem_reverse.mp hc)

theorem Written.map_digitChar {cs : List Char} (h : Written 10 cs) :
    (cs.map digitValue).map Nat.digitChar = cs := by
  rw [List.map_map]
  refine (List.map_congr_left fun c hc => ?_).trans (List.map_id cs)
  exact (eq_digitChar (List.all_eq_true.mp h.all c hc)).symm

theorem Written.numeralValue_lt {cs : List Char} (h : Written 10 cs) :
    numeralValue 10 cs < 10 ^ cs.length := by
  have hlt := Nat.ofDigits_lt_base_pow_length (by decide) h.digitValue_lt
  rwa [List.length_map, List.length_reverse] at hlt

/-- Digits of one length that denote one number are the same. -/
theorem Written.eq_of_value {cs ds : List Char} (hcs : Written 10 cs) (hds : Written 10 ds)
    (hlen : cs.length = ds.length) (h : numeralValue 10 cs = numeralValue 10 ds) : cs = ds := by
  have hvalues := Nat.ofDigits_inj_of_len_eq (by decide) (by simpa using hlen) hcs.digitValue_lt
    hds.digitValue_lt h
  rw [List.map_reverse, List.map_reverse, List.reverse_inj] at hvalues
  rw [← hcs.map_digitChar, hvalues, hds.map_digitChar]

/-! ## Padded numerals -/

theorem toList_padded (width n : Nat) :
    (padded width n).toList =
      List.replicate (width - (Nat.toDigits 10 n).length) '0' ++ Nat.toDigits 10 n :=
  String.toList_ofList

theorem written_padded (width n : Nat) : Written 10 (padded width n).toList := by
  rw [toList_padded]
  refine List.forall_mem_append.mpr ⟨fun c hc => ?_, written_toDigits n⟩
  exact ⟨0, by decide, List.eq_of_mem_replicate hc⟩

theorem length_padded (width n : Nat) :
    (padded width n).toList.length = max width (Nat.toDigits 10 n).length := by
  rw [toList_padded, List.length_append, List.length_replicate]
  omega

theorem numeralValue_zeros (k : Nat) : numeralValue 10 (List.replicate k '0') = 0 := by
  have hzero : digitValue '0' = 0 := by decide
  induction k with
  | zero => rfl
  | succ k ih => rw [List.replicate_succ, numeralValue_cons, ih, hzero, Nat.zero_mul]

theorem numeralValue_padded (width n : Nat) : numeralValue 10 (padded width n).toList = n := by
  rw [toList_padded, numeralValue_append, numeralValue_zeros, numeralValue_toDigits, Nat.zero_mul,
    Nat.zero_add]

theorem length_padded_of_lt {width n : Nat} (hwidth : 0 < width) (h : n < 10 ^ width) :
    (padded width n).toList.length = width := by
  rw [length_padded, Nat.max_eq_left ((Nat.length_toDigits_le_iff (by decide) hwidth).mpr h)]

/-- A digit other than zero counts at its place. -/
theorem Written.le_numeralValue {cs : List Char} (h : Written 10 cs) (hne : cs ≠ [])
    (hzero : cs.head? ≠ some '0') : 10 ^ (cs.length - 1) ≤ numeralValue 10 cs := by
  cases cs with
  | nil => exact absurd rfl hne
  | cons c cs =>
    obtain ⟨d, hd, rfl⟩ := h c List.mem_cons_self
    have hpos : 0 < d := by
      refine Nat.pos_of_ne_zero fun h0 => hzero ?_
      rw [List.head?_cons, (digitChar_eq_zero d hd).mpr h0]
    rw [numeralValue_cons, digitValue_digitChar d (by omega), List.length_cons, Nat.add_sub_cancel]
    exact Nat.le_add_right_of_le (Nat.le_mul_of_pos_left _ hpos)

/-- Digits are the numeral of their number in the width that they fill. -/
theorem Written.padded_of_length {cs : List Char} (h : Written 10 cs) {width : Nat}
    (hwidth : 0 < width) (hlen : cs.length = width) :
    (padded width (numeralValue 10 cs)).toList = cs := by
  refine (written_padded _ _).eq_of_value h ?_ (numeralValue_padded _ _)
  rw [hlen, length_padded_of_lt hwidth (hlen ▸ h.numeralValue_lt)]

/-- More digits than the width are the numeral of their number if no zero stands in front. -/
theorem Written.padded_of_lt {cs : List Char} (h : Written 10 cs) {width : Nat} (hwidth : 0 < width)
    (hlt : width < cs.length) (hzero : cs.head? ≠ some '0') :
    (padded width (numeralValue 10 cs)).toList = cs := by
  have hne : cs ≠ [] := List.ne_nil_of_length_pos (by omega)
  -- the number lies between two powers of ten, so it has as many digits as there are
  have hfits := (Nat.length_toDigits_le_iff (by decide) (by omega)).mpr h.numeralValue_lt
  have hexceeds : ¬ (Nat.toDigits 10 (numeralValue 10 cs)).length ≤ cs.length - 1 := by
    rw [Nat.length_toDigits_le_iff (by decide) (by omega), Nat.not_lt]
    exact h.le_numeralValue hne hzero
  refine (written_padded _ _).eq_of_value h ?_ (numeralValue_padded _ _)
  rw [length_padded]
  omega

/-! ## Reading numbers -/

/-- The number of exactly as many digits in front. -/
def number? (width : Nat) (cs : List Char) : Option (Nat × List Char) :=
  if (cs.take width).length = width ∧ (cs.take width).all (isDigit 10) = true then
    some (numeralValue 10 (cs.take width), cs.drop width)
  else none

/-- A number of two digits behind a mark. -/
def pair? (mark : Char) : List Char → Option (Nat × List Char)
  | [] => none
  | c :: cs => if c = mark then number? 2 cs else none

theorem number?_eq_some_iff {width n : Nat} (hwidth : 0 < width) {cs rest : List Char} :
    number? width cs = some (n, rest) ↔
      n < 10 ^ width ∧ cs = (padded width n).toList ++ rest := by
  rw [number?]
  constructor
  · intro h
    split at h
    · next hdigits =>
      obtain ⟨hlength, hall⟩ := hdigits
      have hwritten := written_of_digits hall
      have hlt := hwritten.numeralValue_lt
      cases h
      rw [hlength] at hlt
      rw [hwritten.padded_of_length hwidth hlength]
      exact ⟨hlt, (List.take_append_drop width cs).symm⟩
    · cases h
  · rintro ⟨hlt, rfl⟩
    have hlength := length_padded_of_lt hwidth hlt
    rw [List.take_left' hlength, List.drop_left' hlength,
      if_pos ⟨hlength, (written_padded width n).all⟩, numeralValue_padded]

theorem pair?_eq_some_iff {mark : Char} {n : Nat} {cs rest : List Char} :
    pair? mark cs = some (n, rest) ↔ n < 100 ∧ cs = mark :: ((padded 2 n).toList ++ rest) := by
  cases cs with
  | nil => simp [pair?]
  | cons c cs =>
    by_cases hc : c = mark
    · rw [pair?, if_pos hc, number?_eq_some_iff (by decide), hc, List.cons.injEq, and_iff_right rfl]
      rfl
    · simp [pair?, hc]

end SaleRules.Text
