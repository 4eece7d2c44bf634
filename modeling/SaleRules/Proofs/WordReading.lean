import SaleRules.Proofs.TextParts
import SaleRules.Proofs.WordColumns
import SaleRules.Word.Numeral

/-!
# What a text is read as

A word is read digit by digit, each time with the number so far multiplied by the radix. Up to the
first character that is no digit this number is what the digits denote by their positions, and once
it is too large it stays so. The answer therefore depends on the digits in front, the number they
denote, and whether anything follows them.
-/
namespace SaleRules

namespace Word

open Text

/-- What reading answers once the digits in front of `rest` have been added up to `n`. -/
def answer (token : String) (n : Nat) (rest : List Char) : Except WordError Word :=
  if 2 ^ 256 ≤ n then .error (.overflow token)
  else if rest = [] then .ok (ofNat n)
  else .error (.invalidDigit token)

theorem answer_toNat (token : String) (w : Word) (rest : List Char) :
    answer token w.toNat rest = if rest = [] then .ok w else .error (.invalidDigit token) := by
  rw [answer, if_neg (Nat.not_le.mpr w.toNat_lt), ofNat_toNat]

/-- A number that is too large stays so, whatever digits follow. -/
theorem answer_of_le (token : String) {radix n m : Nat} (hradix : 0 < radix) (h : 2 ^ 256 ≤ n)
    (width : Nat) (rest : List Char) :
    answer token (n * radix ^ width + m) rest = .error (.overflow token) := by
  have hle : n ≤ n * radix ^ width := Nat.le_mul_of_pos_right n (Nat.pow_pos hradix)
  exact if_pos (by omega)

/-- What is read depends on the number so far and the digits behind it only through the number that
they make up together. -/
theorem appendDigits_eq {radix : UInt8} (hpos : 0 < radix.toNat) (hradix : radix.toNat ≤ 16)
    (token : String) (w : Word) (cs : List Char) :
    appendDigits radix token w cs =
      answer token
        (w.toNat * radix.toNat ^ (cs.takeWhile (isDigit radix.toNat)).length +
          numeralValue radix.toNat (cs.takeWhile (isDigit radix.toNat)))
        (cs.dropWhile (isDigit radix.toNat)) := by
  induction cs generalizing w with
  | nil =>
    rw [appendDigits, List.takeWhile_nil, List.dropWhile_nil, List.length_nil, pow_zero,
      Nat.mul_one, numeralValue_nil, Nat.add_zero, answer_toNat, if_pos rfl]
  | cons c cs ih =>
    rw [appendDigits, digit?_eq hradix]
    by_cases hc : isDigit radix.toNat c = true
    · have hvalue : (UInt8.ofNat (digitValue c)).toNat = digitValue c := by
        have hlt : digitValue c < radix.toNat := of_decide_eq_true hc
        exact UInt8.toNat_ofNat_of_lt' (Nat.lt_trans hlt radix.toNat_lt)
      rw [if_pos hc, List.takeWhile_cons_of_pos hc, List.dropWhile_cons_of_pos hc,
        extend_numeralValue]
      -- the number with this digit is either too large already or the word that is read on from
      cases hmul : w.mulAdd? radix (UInt8.ofNat (digitValue c)) with
      | none =>
        have hle := mulAdd?_eq_none_iff.mp hmul
        rw [hvalue] at hle
        simp only [hmul, answer_of_le token hpos hle]
      | some v =>
        have hv := mulAdd?_eq_some_iff.mp hmul
        rw [hvalue] at hv
        simp only [hmul, ← hv]
        exact ih v
    · rw [if_neg hc, List.takeWhile_cons_of_neg hc, List.dropWhile_cons_of_neg hc, List.length_nil,
        pow_zero, Nat.mul_one, numeralValue_nil, Nat.add_zero, answer_toNat,
        if_neg (List.cons_ne_nil c cs)]

/-- The digits are added up from zero, unless there are none. -/
theorem ofDigits_eq {radix : UInt8} (hpos : 0 < radix.toNat) (hradix : radix.toNat ≤ 16)
    (token : String) (digits : List Char) :
    ofDigits radix token digits =
      if digits = [] then .error .empty
      else answer token (numeralValue radix.toNat (digits.takeWhile (isDigit radix.toNat)))
        (digits.dropWhile (isDigit radix.toNat)) := by
  cases digits with
  | nil => rfl
  | cons c cs =>
    rw [if_neg (List.cons_ne_nil c cs), ofDigits, appendDigits_eq hpos hradix, toNat_zero,
      Nat.zero_mul, Nat.zero_add]
    exact List.cons_ne_nil c cs

theorem parse_eq {text : String} {token digits : List Char} {radix : Nat}
    (htrim : IsTrimmed text.toList token) (hmark : Marked token radix digits) :
    parse text =
      if digits = [] then .error .empty
      else answer (String.ofList token) (numeralValue radix (digits.takeWhile (isDigit radix)))
        (digits.dropWhile (isDigit radix)) := by
  rw [parse, ← htrim.eq_trim]
  cases hmark with
  | lower => exact ofDigits_eq (by decide) (by decide) _ digits
  | upper => exact ofDigits_eq (by decide) (by decide) _ digits
  | none hlower hupper =>
    simp only [afterHexMark?_eq_none hlower hupper]
    exact ofDigits_eq (by decide) (by decide) _ token

/-- What a text is read as. Of the digits in front, however many of them are zeros, a number too
large is reported before a character that is no digit, and no number is cut to a smaller one. -/
theorem parse_outcome (text : String) :
    (∃ token radix digits, IsTrimmed text.toList token ∧ Marked token radix digits) ∧
    ∀ token radix digits, IsTrimmed text.toList token → Marked token radix digits →
      (digits = [] → parse text = .error .empty) ∧
      (digits ≠ [] → 2 ^ 256 ≤ numeralValue radix (digits.takeWhile (isDigit radix)) →
        parse text = .error (.overflow (String.ofList token))) ∧
      (digits ≠ [] → numeralValue radix (digits.takeWhile (isDigit radix)) < 2 ^ 256 →
        digits.takeWhile (isDigit radix) ≠ digits →
        parse text = .error (.invalidDigit (String.ofList token))) ∧
      (digits ≠ [] → digits.takeWhile (isDigit radix) = digits →
        numeralValue radix digits < 2 ^ 256 →
        ∃ w, parse text = .ok w ∧ w.toNat = numeralValue radix digits) ∧
      (∀ w, parse text = .ok w →
        digits.takeWhile (isDigit radix) = digits ∧ w.toNat = numeralValue radix digits) := by
  constructor
  · obtain ⟨radix, digits, hmark⟩ := exists_marked (trim text.toList)
    exact ⟨_, radix, digits, trim_isTrimmed _, hmark⟩
  · intro token radix digits htrim hmark
    have hparse := parse_eq htrim hmark
    have hrest : digits.dropWhile (isDigit radix) = [] ↔
        digits.takeWhile (isDigit radix) = digits := by
      rw [List.dropWhile_eq_nil_iff, List.takeWhile_eq_self_iff]
    refine ⟨?_, ?_, ?_, ?_, ?_⟩
    · intro hnil
      rw [hparse, if_pos hnil]
    · intro hne hle
      rw [hparse, if_neg hne, answer, if_pos hle]
    · intro hne hlt hbad
      rw [hparse, if_neg hne, answer, if_neg (Nat.not_le.mpr hlt), if_neg (mt hrest.mp hbad)]
    · intro hne hall hlt
      refine ⟨ofNat (numeralValue radix digits), ?_, ?_⟩
      · rw [hparse, if_neg hne, answer, hall, if_neg (Nat.not_le.mpr hlt), if_pos (hrest.mpr hall)]
      · rw [toNat_ofNat, Nat.mod_eq_of_lt hlt]
    · intro w hw
      rw [hparse, answer] at hw
      split at hw
      · cases hw
      · split at hw
        · cases hw
        · next hlt =>
          split at hw
          · next hall =>
            have htake := hrest.mp hall
            rw [htake] at hlt hw
            rw [← Except.ok.inj hw, toNat_ofNat, Nat.mod_eq_of_lt (Nat.not_le.mp hlt)]
            exact ⟨htake, rfl⟩
          · cases hw

theorem parse_outcome_marked :
    let front : List Char := List.replicate 70 '0' ++ '1' :: List.replicate 64 '0'
    let digits : List Char := front ++ ['g']
    let token : List Char := '0' :: 'X' :: digits
    let text := String.ofList (Char.ofNat 0x2003 :: (token ++ [Char.ofNat 9]))
    IsTrimmed text.toList token ∧ Marked token 16 digits ∧ digits ≠ [] ∧
      2 ^ 256 ≤ numeralValue 16 (digits.takeWhile (isDigit 16)) ∧
      parse text = .error (.overflow (String.ofList token)) := by
  intro front digits token text
  have hlast : token.getLast? = some 'g' := List.getLast?_concat (l := '0' :: 'X' :: front)
  have htrim : IsTrimmed text.toList token := by
    refine ⟨⟨[Char.ofNat 0x2003], [Char.ofNat 9], String.toList_ofList, ?_, ?_⟩, ?_, ?_⟩
    · exact List.forall_mem_singleton.mpr rfl
    · exact List.forall_mem_singleton.mpr rfl
    · rintro c ⟨⟩
      rfl
    · rw [hlast]
      rintro c ⟨⟩
      rfl
  have hmark : Marked token 16 digits := .upper digits
  have hne : digits ≠ [] := List.append_ne_nil_of_right_ne_nil front (List.cons_ne_nil _ _)
  have hle : 2 ^ 256 ≤ numeralValue 16 (digits.takeWhile (isDigit 16)) := by decide +kernel
  exact ⟨htrim, hmark, hne, hle, ((parse_outcome text).2 token 16 digits htrim hmark).2.1 hne hle⟩

end Word

end SaleRules
