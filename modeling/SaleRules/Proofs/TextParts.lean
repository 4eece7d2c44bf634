import SaleRules.Text.Blank
import SaleRules.Text.Numeral
import Mathlib.Data.List.TakeWhile
import Mathlib.Data.Nat.Digits.Defs
import Mathlib.Tactic.Ring

/-!
# The parts of a numeral text

A text is blanks, a token and blanks again; a token is a mark and digits, or digits alone; and a run
of digits denotes a number by the positions of the digits. Each part is stated here without the loop
that finds it.
-/
namespace SaleRules.Text

/-! ## Digits -/

/-- The value of an ASCII digit, in which letters count in either case; sixteen for any other
character. -/
def digitValue (c : Char) : Nat := "0123456789abcdef".toList.idxOf c.toLower

/-- The character is an ASCII digit of the radix. -/
def isDigit (radix : Nat) (c : Char) : Bool := digitValue c < radix

/-- The number that digits denote by their positions. -/
def numeralValue (radix : Nat) (cs : List Char) : Nat :=
  Nat.ofDigits radix (cs.reverse.map digitValue)

@[simp] theorem numeralValue_nil (radix : Nat) : numeralValue radix [] = 0 := rfl

theorem numeralValue_cons (radix : Nat) (c : Char) (cs : List Char) :
    numeralValue radix (c :: cs) = digitValue c * radix ^ cs.length + numeralValue radix cs := by
  rw [numeralValue, List.reverse_cons, List.map_append, Nat.ofDigits_append, List.length_map,
    List.length_reverse, numeralValue, List.map_singleton, Nat.ofDigits_singleton]
  ring

/-- The first digit counts as if it stood at the end of the number before it. -/
theorem extend_numeralValue (radix n : Nat) (c : Char) (cs : List Char) :
    n * radix ^ (c :: cs).length + numeralValue radix (c :: cs) =
      (n * radix + digitValue c) * radix ^ cs.length + numeralValue radix cs := by
  rw [numeralValue_cons, List.length_cons, pow_succ']
  ring

/-- What is checked of every ASCII character and holds of all others holds of any character. -/
theorem ascii_cases {P : Char → Prop} (ascii : ∀ n < 128, P (Char.ofNat n))
    (other : ∀ c : Char, 128 ≤ c.toNat → P c) (c : Char) : P c := by
  by_cases hc : c.toNat < 128
  · rw [← Char.ofNat_toNat c]
    exact ascii c.toNat hc
  · exact other c (Nat.not_lt.mp hc)

theorem not_le_of_nonAscii {c d : Char} (h : 128 ≤ c.toNat) (hd : d.toNat < 128) : ¬ c ≤ d := by
  intro hle
  have hnat : c.toNat ≤ d.toNat := UInt32.le_iff_toNat_le.mp (Char.le_def.mp hle)
  omega

theorem toLower_nonAscii {c : Char} (h : 128 ≤ c.toNat) : c.toLower = c := by
  have hle : ¬ c.val ≤ 'Z'.val := not_le_of_nonAscii (d := 'Z') h (by decide)
  exact dif_neg fun hupper => hle hupper.2

theorem digitValue_nonAscii {c : Char} (h : 128 ≤ c.toNat) : digitValue c = 16 := by
  have hascii : "0123456789abcdef".toList.all (·.toNat.blt 128) = true := rfl
  have hmem : c ∉ "0123456789abcdef".toList := by
    intro hc
    have hlt := Nat.blt_eq.mp (List.all_eq_true.mp hascii c hc)
    omega
  rw [digitValue, toLower_nonAscii h]
  exact List.idxOf_eq_length hmem

theorem ascii_of_digit {radix : Nat} (hradix : radix ≤ 16) {c : Char}
    (h : isDigit radix c = true) : c.toNat < 128 := by
  by_contra hle
  have hlt : digitValue c < radix := of_decide_eq_true h
  rw [digitValue_nonAscii (Nat.not_lt.mp hle)] at hlt
  exact absurd hradix (Nat.not_le_of_lt hlt)

/-- Below a radix that no digit reaches, all sixteen digits are read. -/
theorem digit?_wide (c : Char) :
    digit? 256 c = if digitValue c < 16 then some (UInt8.ofNat (digitValue c)) else none := by
  revert c
  apply ascii_cases
  · decide +kernel
  · intro c hle
    have hnine := not_le_of_nonAscii (d := '9') hle (by decide)
    have hf := not_le_of_nonAscii (d := 'f') hle (by decide)
    have hF := not_le_of_nonAscii (d := 'F') hle (by decide)
    simp only [digit?, hnine, hf, hF, and_false, if_false, digitValue_nonAscii hle,
      Option.filter_none, Nat.lt_irrefl]

/-- A radix leaves out the digits that reach it. -/
theorem digit?_eq_filter (radix : Nat) (c : Char) :
    digit? radix c = (digit? 256 c).filter (·.toNat < radix) := by
  rw [digit?, digit?, Option.filter_filter]
  congr 1
  funext v
  simp [v.toNat_lt]

/-- The characters that are read as digits, and the values they are read as. -/
theorem digit?_eq {radix : Nat} (hradix : radix ≤ 16) (c : Char) :
    digit? radix c = if isDigit radix c then some (UInt8.ofNat (digitValue c)) else none := by
  rw [digit?_eq_filter, digit?_wide]
  by_cases h : digitValue c < 16
  · have hlow : (UInt8.ofNat (digitValue c)).toNat = digitValue c :=
      UInt8.toNat_ofNat_of_lt' (Nat.lt_trans h (by decide))
    rw [if_pos h, Option.filter_some, hlow]
    simp only [isDigit, decide_eq_true_eq]
  · have hnot : isDigit radix c = false := decide_eq_false (by omega)
    rw [if_neg h, hnot]
    rfl

/-! ## Blanks and marks -/

/-- The token is the text without the blanks around it. -/
structure IsTrimmed (text token : List Char) : Prop where
  around : ∃ front back, text = front ++ (token ++ back) ∧
    (∀ c ∈ front, isBlank c = true) ∧ ∀ c ∈ back, isBlank c = true
  first : ∀ c ∈ token.head?, isBlank c = false
  last : ∀ c ∈ token.getLast?, isBlank c = false

/-- The radix of a token and its digits: what follows one mark is hexadecimal, and a token without
a mark is decimal as a whole. -/
inductive Marked : List Char → Nat → List Char → Prop where
  | lower (digits : List Char) : Marked ('0' :: 'x' :: digits) 16 digits
  | upper (digits : List Char) : Marked ('0' :: 'X' :: digits) 16 digits
  | none {token : List Char} (lower : ∀ digits, token ≠ '0' :: 'x' :: digits)
      (upper : ∀ digits, token ≠ '0' :: 'X' :: digits) : Marked token 10 token

theorem dropWhile_of_head {p : Char → Bool} {cs : List Char} (h : ∀ c ∈ cs.head?, p c = false) :
    cs.dropWhile p = cs := by
  cases cs with
  | nil => rfl
  | cons c cs =>
    have hc := h c rfl
    exact List.dropWhile_cons_of_neg (by simp [hc])

theorem head_dropWhile (p : Char → Bool) (cs : List Char) :
    ∀ c ∈ (cs.dropWhile p).head?, p c = false := by
  intro c hc
  have h := List.head?_dropWhile_not p cs
  rw [Option.mem_def.mp hc] at h
  exact h

theorem trim_isTrimmed (text : List Char) : IsTrimmed text (trim text) := by
  have hfront := List.takeWhile_append_dropWhile (p := isBlank) (l := text)
  have hback := List.takeWhile_append_dropWhile (p := isBlank)
    (l := (text.dropWhile isBlank).reverse)
  have hmid : text.dropWhile isBlank =
      trim text ++ ((text.dropWhile isBlank).reverse.takeWhile isBlank).reverse := by
    rw [trim, ← List.reverse_append, hback, List.reverse_reverse]
  -- the first character may be looked up behind the blanks in front, before those behind are cut
  refine ⟨⟨text.takeWhile isBlank, _, (hmid ▸ hfront).symm, ?_, ?_⟩, ?_, ?_⟩
  · intro c hc
    exact List.mem_takeWhile_imp hc
  · intro c hc
    exact List.mem_takeWhile_imp (List.mem_reverse.mp hc)
  · intro c hc
    apply head_dropWhile isBlank text
    rw [hmid, List.head?_append, Option.mem_def.mp hc]
    rfl
  · intro c hc
    rw [trim, List.getLast?_reverse] at hc
    exact head_dropWhile isBlank _ c hc

theorem IsTrimmed.eq_trim {text token : List Char} (h : IsTrimmed text token) :
    token = trim text := by
  obtain ⟨front, back, rfl, hfront, hback⟩ := h.around
  have hlast : ∀ c ∈ token.reverse.head?, isBlank c = false := by
    rw [List.head?_reverse]
    exact h.last
  cases token with
  | nil =>
    -- a blank text leaves open where the front ends, but not what is left of it
    have hnil : back.dropWhile isBlank = [] := List.dropWhile_eq_nil_iff.mpr hback
    rw [trim, List.dropWhile_append_of_pos hfront, List.nil_append, hnil]
    rfl
  | cons c cs =>
    have hkeep : (c :: cs ++ back).dropWhile isBlank = c :: cs ++ back := dropWhile_of_head h.first
    have hback' : ∀ c ∈ back.reverse, isBlank c = true :=
      fun c hc => hback c (List.mem_reverse.mp hc)
    rw [trim, List.dropWhile_append_of_pos hfront, hkeep, List.reverse_append,
      List.dropWhile_append_of_pos hback', dropWhile_of_head hlast, List.reverse_reverse]

theorem exists_marked (token : List Char) : ∃ radix digits, Marked token radix digits := by
  by_cases hlower : ∃ digits, token = '0' :: 'x' :: digits
  · obtain ⟨digits, rfl⟩ := hlower
    exact ⟨16, digits, .lower digits⟩
  · by_cases hupper : ∃ digits, token = '0' :: 'X' :: digits
    · obtain ⟨digits, rfl⟩ := hupper
      exact ⟨16, digits, .upper digits⟩
    · exact ⟨10, token, .none (not_exists.mp hlower) (not_exists.mp hupper)⟩

theorem afterHexMark?_eq_none {token : List Char} (lower : ∀ digits, token ≠ '0' :: 'x' :: digits)
    (upper : ∀ digits, token ≠ '0' :: 'X' :: digits) : afterHexMark? token = none := by
  unfold afterHexMark?
  split
  · exact absurd rfl (lower _)
  · exact absurd rfl (upper _)
  · rfl

end SaleRules.Text
