import SaleRules.Proofs.NumeralRoundTrips
import SaleRules.Proofs.Outcomes
import SaleRules.Source

/-!
# What a hexadecimal text is read as

A source is read from the bytes of a text without the blanks around it and one mark. An odd number
of them is refused, then the first one that is no digit; what is left are digits two by two, and the
bytes they spell make the same number. A digit is a character of one byte that is no blank and no
letter of a mark, so a text of a source may be written in letters of either case.
-/
namespace SaleRules

namespace Text

/-- The case of a letter is no part of its value. -/
theorem digitValue_toLower (c : Char) : digitValue c.toLower = digitValue c := by
  revert c
  apply ascii_cases
  · decide +kernel
  · intro c hc
    rw [toLower_nonAscii hc]

theorem numeralValue_map_toLower (radix : Nat) (cs : List Char) :
    numeralValue radix (cs.map Char.toLower) = numeralValue radix cs := by
  have hvalue : digitValue ∘ Char.toLower = digitValue := funext digitValue_toLower
  rw [numeralValue, ← List.map_reverse, List.map_map, hvalue]
  rfl

theorem not_blank_of_digit {c : Char} (h : isDigit 16 c = true) : isBlank c = false := by
  revert c
  apply ascii_cases
  · decide +kernel
  · intro c hc h
    exact absurd (ascii_of_digit (by decide) h) (Nat.not_lt.mpr hc)

/-! ## Characters and their bytes -/

/-- The bytes of a text. -/
def utf8 (cs : List Char) : Bytes := cs.flatMap String.utf8EncodeChar

theorem utf8EncodeChar_ascii {c : Char} (h : c.toNat < 128) :
    String.utf8EncodeChar c = [UInt8.ofNat c.toNat] := if_pos (Nat.le_of_lt_succ h)

theorem toNat_ofUInt8 (b : UInt8) : (Char.ofUInt8 b).toNat = b.toNat := UInt8.toNat_toUInt32 b

theorem ofUInt8_ofNat {c : Char} (h : c.toNat < 128) : Char.ofUInt8 (UInt8.ofNat c.toNat) = c := by
  apply Char.toNat_inj.mp
  rw [toNat_ofUInt8]
  exact UInt8.toNat_ofNat_of_lt' (Nat.lt_trans h (by decide))

/-- ASCII characters are one byte each. -/
theorem map_utf8 {cs : List Char} (h : ∀ c ∈ cs, c.toNat < 128) :
    (utf8 cs).map Char.ofUInt8 = cs := by
  induction cs with
  | nil => rfl
  | cons c cs ih =>
    obtain ⟨hc, hcs⟩ := List.forall_mem_cons.mp h
    rw [utf8, List.flatMap_cons, utf8EncodeChar_ascii hc, List.singleton_append, List.map_cons,
      ofUInt8_ofNat hc]
    exact congrArg (c :: ·) (ih hcs)

/-! ## Tokens -/

/-- The digits are what follows one mark, or all of a token that starts with none. -/
def AfterMark (token digits : List Char) : Prop := ∃ radix, Marked token radix digits

theorem AfterMark.getD_afterHexMark? {token digits : List Char} (h : AfterMark token digits) :
    (afterHexMark? token).getD token = digits := by
  obtain ⟨radix, hmark⟩ := h
  cases hmark with
  | lower => rfl
  | upper => rfl
  | none hlower hupper =>
    rw [afterHexMark?_eq_none hlower hupper]
    rfl

/-- Digits start with no mark, for its letter is none. -/
theorem afterMark_digits {cs : List Char} (h : ∀ c ∈ cs, isDigit 16 c = true) :
    AfterMark cs cs := by
  refine ⟨10, .none ?_ ?_⟩
  · rintro digits rfl
    exact absurd (h 'x' (by simp)) (by decide)
  · rintro digits rfl
    exact absurd (h 'X' (by simp)) (by decide)

theorem isTrimmed_between {front token back : List Char} (hfront : ∀ c ∈ front, isBlank c = true)
    (htoken : ∀ c ∈ token, isBlank c = false) (hback : ∀ c ∈ back, isBlank c = true) :
    IsTrimmed (front ++ (token ++ back)) token where
  around := ⟨front, back, rfl, hfront, hback⟩
  first c hc := htoken c (List.mem_of_mem_head? hc)
  last c hc := htoken c (List.mem_of_mem_getLast? hc)

end Text

namespace Hex

open Text

/-- The byte is an ASCII hexadecimal digit, a letter in either case. -/
def isDigit (b : UInt8) : Bool := Text.isDigit 16 (Char.ofUInt8 b)

/-- The number that the bytes denote as digits. -/
def value (bs : Bytes) : Nat := numeralValue 16 (bs.map Char.ofUInt8)

/-- The first byte that is no digit, and where it stands. -/
structure FirstBad (bs : Bytes) (b : UInt8) (i : Nat) : Prop where
  found : bs[i]? = some b
  bad : isDigit b = false
  before : ∀ c ∈ bs.take i, isDigit c = true

theorem digit?_of_digit {b : UInt8} (h : isDigit b = true) :
    digit? b = some (UInt8.ofNat (digitValue (Char.ofUInt8 b))) := by
  rw [digit?, digit?_eq (by decide)]
  exact if_pos h

theorem digit?_of_bad {b : UInt8} (h : isDigit b = false) : digit? b = none := by
  rw [digit?, digit?_eq (by decide)]
  exact if_neg (Bool.eq_false_iff.mp h)

theorem digits_or_firstBad (bs : Bytes) :
    (∀ b ∈ bs, isDigit b = true) ∨ ∃ b i, FirstBad bs b i := by
  induction bs with
  | nil => exact .inl (by simp)
  | cons b bs ih =>
    cases hb : isDigit b with
    | false => exact .inr ⟨b, 0, rfl, hb, by simp⟩
    | true =>
      rcases ih with hall | ⟨c, i, hfound, hbad, hbefore⟩
      · exact .inl (List.forall_mem_cons.mpr ⟨hb, hall⟩)
      · exact .inr ⟨c, i + 1, hfound, hbad, List.forall_mem_cons.mpr ⟨hb, hbefore⟩⟩

/-! ## Pairs of digits -/

/-- Digits two by two make up the byte of their number. -/
theorem toNat_join {high low : UInt8} (hhigh : isDigit high = true) (hlow : isDigit low = true) :
    (16 * UInt8.ofNat (digitValue (Char.ofUInt8 high)) +
        UInt8.ofNat (digitValue (Char.ofUInt8 low))).toNat = value [high, low] := by
  have hh : digitValue (Char.ofUInt8 high) < 16 := of_decide_eq_true hhigh
  have hl : digitValue (Char.ofUInt8 low) < 16 := of_decide_eq_true hlow
  have hsixteen : (16 : UInt8).toNat = 16 := rfl
  rw [value, List.map_cons, List.map_singleton, numeralValue_cons, numeralValue_cons,
    numeralValue_nil, List.length_singleton, List.length_nil, UInt8.toNat_add, UInt8.toNat_mul,
    UInt8.toNat_ofNat', UInt8.toNat_ofNat', hsixteen]
  omega

theorem value_cons_cons (high low : UInt8) {rest : Bytes} {n : Nat} (h : rest.length = 2 * n) :
    value (high :: low :: rest) = value [high, low] * 256 ^ n + value rest := by
  have hpow : (16 : Nat) ^ (2 * n) = 256 ^ n := pow_mul 16 2 n
  have hsplit := numeralValue_append 16 ([high, low].map Char.ofUInt8) (rest.map Char.ofUInt8)
  rw [List.length_map, h, hpow, ← List.map_append] at hsplit
  exact hsplit

/-- An even number of bytes are none, or two and then an even number. -/
theorem even_induction {P : Bytes → Prop} (nil : P [])
    (pair : ∀ high low rest, P rest → P (high :: low :: rest)) (bs : Bytes)
    (heven : bs.length % 2 = 0) : P bs := by
  match bs with
  | [] => exact nil
  | [b] => cases heven
  | high :: low :: rest =>
    rw [List.length_cons, List.length_cons] at heven
    exact pair high low rest (even_induction nil pair rest (by omega))

theorem readPairs_cons {high low : UInt8} (hhigh : isDigit high = true)
    (hlow : isDigit low = true) (position : Nat) (rest : Bytes) :
    readPairs position (high :: low :: rest) =
      (readPairs (position + 2) rest).map
        ((16 * UInt8.ofNat (digitValue (Char.ofUInt8 high)) +
          UInt8.ofNat (digitValue (Char.ofUInt8 low))) :: ·) := by
  rw [readPairs, digit?_of_digit hhigh, digit?_of_digit hlow]

/-- Digits alone are read as the bytes of their number, two for each byte. -/
theorem readPairs_of_digits {bs : Bytes} (heven : bs.length % 2 = 0)
    (hall : ∀ b ∈ bs, isDigit b = true) (position : Nat) :
    ∃ xs, readPairs position bs = .ok xs ∧ bs.length = 2 * xs.length ∧
      value bs = Bytes.bigEndian xs := by
  revert hall position
  apply even_induction (P := fun bs => (∀ b ∈ bs, isDigit b = true) → ∀ position,
    ∃ xs, readPairs position bs = .ok xs ∧ bs.length = 2 * xs.length ∧
      value bs = Bytes.bigEndian xs) ?_ ?_ bs heven
  · intro _ position
    exact ⟨[], rfl, rfl, rfl⟩
  · intro high low rest ih hall position
    rw [List.forall_mem_cons, List.forall_mem_cons] at hall
    obtain ⟨hhigh, hlow, hrest⟩ := hall
    obtain ⟨xs, hxs, hlength, hvalue⟩ := ih hrest (position + 2)
    rw [readPairs_cons hhigh hlow, hxs]
    refine ⟨_, rfl, ?_, ?_⟩
    · rw [List.length_cons, List.length_cons, List.length_cons, hlength]
      omega
    · rw [value_cons_cons high low hlength, Bytes.bigEndian_cons, toNat_join hhigh hlow, hvalue]

theorem readPairs_of_firstBad {bs : Bytes} {b : UInt8} (heven : bs.length % 2 = 0) (i : Nat)
    (h : FirstBad bs b i) (position : Nat) :
    readPairs position bs = .error (.notADigit b (position + i)) := by
  revert i position
  apply even_induction (P := fun bs => ∀ i, FirstBad bs b i → ∀ position,
    readPairs position bs = .error (.notADigit b (position + i))) ?_ ?_ bs heven
  · intro i h
    cases h.found
  · intro high low rest ih i h position
    obtain ⟨hfound, hbad, hbefore⟩ := h
    -- it is the first digit of this pair, the second one, or stands in the pairs behind
    match i with
    | 0 =>
      cases hfound
      rw [readPairs, digit?_of_bad hbad]
      rfl
    | 1 =>
      cases hfound
      have hhigh := hbefore high (List.mem_singleton_self high)
      rw [readPairs, digit?_of_digit hhigh, digit?_of_bad hbad]
    | i + 2 =>
      rw [List.take_succ_cons, List.take_succ_cons, List.forall_mem_cons,
        List.forall_mem_cons] at hbefore
      obtain ⟨hhigh, hlow, hrest⟩ := hbefore
      rw [readPairs_cons hhigh hlow, ih i ⟨hfound, hbad, hrest⟩ (position + 2), Nat.add_assoc,
        Nat.add_comm 2 i]
      rfl

/-! ## Texts -/

/-- The bytes are digits, two for each byte that they make up. -/
structure Spells (bs xs : Bytes) : Prop where
  pairs : bs.length = 2 * xs.length
  digits : ∀ b ∈ bs, isDigit b = true
  same : value bs = Bytes.bigEndian xs

/-- Why bytes spell nothing. Their number is looked at before any of them is. -/
inductive Unreadable (bs : Bytes) : HexError → Prop where
  | oddLength (odd : bs.length % 2 = 1) : Unreadable bs .oddLength
  | notADigit {b : UInt8} {i : Nat} (even : bs.length % 2 = 0) (first : FirstBad bs b i) :
      Unreadable bs (.notADigit b i)

theorem Spells.even {bs xs : Bytes} (h : Spells bs xs) : bs.length % 2 = 0 := by
  rw [h.pairs]
  exact Nat.mul_mod_right 2 xs.length

theorem Spells.unique {bs xs ys : Bytes} (hx : Spells bs xs) (hy : Spells bs ys) : xs = ys := by
  have hlength : xs.length = ys.length := Nat.eq_of_mul_eq_mul_left two_pos (hx.pairs ▸ hy.pairs)
  exact Bytes.eq_of_bigEndian_eq hlength (hx.same ▸ hy.same)

theorem digits_or_unreadable (bs : Bytes) :
    (bs.length % 2 = 0 ∧ ∀ b ∈ bs, isDigit b = true) ∨ ∃ e, Unreadable bs e := by
  rcases Nat.mod_two_eq_zero_or_one bs.length with heven | hodd
  · rcases digits_or_firstBad bs with hall | ⟨b, i, hfirst⟩
    · exact .inl ⟨heven, hall⟩
    · exact .inr ⟨_, .notADigit heven hfirst⟩
  · exact .inr ⟨_, .oddLength hodd⟩

variable {cs : List Char} {xs : Bytes} {e : HexError}

theorem read?_of_even (heven : (utf8 cs).length % 2 = 0) : read? cs = readPairs 0 (utf8 cs) := by
  have hodd : ¬ (utf8 cs).length % 2 = 1 := by omega
  exact if_neg hodd

theorem read?_of_digits (heven : (utf8 cs).length % 2 = 0)
    (hall : ∀ b ∈ utf8 cs, isDigit b = true) : ∃ xs, read? cs = .ok xs ∧ Spells (utf8 cs) xs := by
  obtain ⟨xs, hxs, hpairs, hsame⟩ := readPairs_of_digits heven hall 0
  rw [read?_of_even heven]
  exact ⟨xs, hxs, hpairs, hall, hsame⟩

theorem read?_of_unreadable (h : Unreadable (utf8 cs) e) : read? cs = .error e := by
  cases h with
  | oddLength hodd => exact if_pos hodd
  | notADigit heven hfirst =>
    rw [read?_of_even heven, readPairs_of_firstBad heven _ hfirst, Nat.zero_add]

theorem read?_eq_ok_iff : read? cs = .ok xs ↔ Spells (utf8 cs) xs := by
  constructor
  · intro h
    rcases digits_or_unreadable (utf8 cs) with ⟨heven, hall⟩ | ⟨e, hbad⟩
    · obtain ⟨ys, hys, hspells⟩ := read?_of_digits heven hall
      cases hys.symm.trans h
      exact hspells
    · cases (read?_of_unreadable hbad).symm.trans h
  · intro h
    obtain ⟨ys, hys, hspells⟩ := read?_of_digits h.even h.digits
    rw [hys, hspells.unique h]

theorem read?_eq_error_iff : read? cs = .error e ↔ Unreadable (utf8 cs) e := by
  refine ⟨?_, read?_of_unreadable⟩
  intro h
  rcases digits_or_unreadable (utf8 cs) with ⟨heven, hall⟩ | ⟨f, hbad⟩
  · obtain ⟨ys, hys, -⟩ := read?_of_digits heven hall
    cases hys.symm.trans h
  · cases (read?_of_unreadable hbad).symm.trans h
    exact hbad

/-- Characters that are digits are so as bytes, and of the same value. -/
theorem spells_utf8 (hpairs : cs.length = 2 * xs.length)
    (hdigits : ∀ c ∈ cs, Text.isDigit 16 c = true)
    (hsame : numeralValue 16 cs = Bytes.bigEndian xs) : Spells (utf8 cs) xs := by
  have hmap := map_utf8 fun c hc => ascii_of_digit (by decide) (hdigits c hc)
  refine ⟨?_, ?_, ?_⟩
  · rw [← List.length_map Char.ofUInt8, hmap, hpairs]
  · intro b hb
    have hmem := List.mem_map_of_mem (f := Char.ofUInt8) hb
    rw [hmap] at hmem
    exact hdigits _ hmem
  · rw [value, hmap, hsame]

end Hex

namespace Source

open Text

variable {x : Source} {cs : List Char}

/-! ## Texts of a source -/

theorem toLower_hex (bs : Bytes) : (Hex.digits bs).map Char.toLower = Hex.digits bs := by
  have hlower : ∀ c ∈ Hex.digits bs, c.toLower = c := (written_hex bs).forall_mem (by decide)
  rw [List.map_congr_left hlower, List.map_id']

theorem digits_of_toLower (h : cs.map Char.toLower = Hex.digits x.bytes) :
    ∀ c ∈ cs, Text.isDigit 16 c = true := by
  intro c hc
  have hmem := List.mem_map_of_mem (f := Char.toLower) hc
  rw [h] at hmem
  obtain ⟨d, hd, hchar⟩ := written_hex x.bytes _ hmem
  apply decide_eq_true
  rwa [← digitValue_toLower, hchar, digitValue_digitChar d hd]

theorem spells_of_toLower (h : cs.map Char.toLower = Hex.digits x.bytes) :
    Hex.Spells (utf8 cs) x.bytes := by
  apply Hex.spells_utf8 ?_ (digits_of_toLower h) ?_
  · rw [← List.length_map Char.toLower, h, Hex.length_digits]
  · rw [← numeralValue_map_toLower, h, numeralValue_hex]

theorem not_blank_of_mark {mark : List Char} (h : mark ∈ [[], ['0', 'x'], ['0', 'X']]) :
    ∀ c ∈ mark, isBlank c = false := by
  have hzero : isBlank '0' = false := rfl
  simp only [List.mem_cons, List.not_mem_nil, or_false] at h
  rcases h with rfl | rfl | rfl
  · exact List.forall_mem_nil _
  · exact List.forall_mem_cons.mpr ⟨hzero, List.forall_mem_singleton.mpr rfl⟩
  · exact List.forall_mem_cons.mpr ⟨hzero, List.forall_mem_singleton.mpr rfl⟩

theorem afterMark_append {mark : List Char} (h : mark ∈ [[], ['0', 'x'], ['0', 'X']])
    (hdigits : ∀ c ∈ cs, Text.isDigit 16 c = true) : AfterMark (mark ++ cs) cs := by
  simp only [List.mem_cons, List.not_mem_nil, or_false] at h
  rcases h with rfl | rfl | rfl
  · exact afterMark_digits hdigits
  · exact ⟨16, .lower cs⟩
  · exact ⟨16, .upper cs⟩

/-! ## What a text is read as -/

theorem parse_eq_read {text : String} {token digits : List Char}
    (htrim : IsTrimmed text.toList token) (hmark : AfterMark token digits) :
    parse text = (Hex.read? digits).map Source.mk := by
  rw [parse, ← htrim.eq_trim, hmark.getD_afterHexMark?]

theorem parse_eq_ok_iff {text : String} {token digits : List Char}
    (htrim : IsTrimmed text.toList token) (hmark : AfterMark token digits) :
    parse text = .ok x ↔ Hex.Spells (utf8 digits) x.bytes := by
  rw [parse_eq_read htrim hmark, Except.map_eq_ok_iff, ← Hex.read?_eq_ok_iff]
  constructor
  · intro h
    obtain ⟨xs, hxs, rfl⟩ := h
    exact hxs
  · intro h
    exact ⟨x.bytes, h, rfl⟩

theorem parse_eq_error_iff {text : String} {token digits : List Char} {e : HexError}
    (htrim : IsTrimmed text.toList token) (hmark : AfterMark token digits) :
    parse text = .error e ↔ Hex.Unreadable (utf8 digits) e := by
  rw [parse_eq_read htrim hmark, Except.map_eq_error_iff, Hex.read?_eq_error_iff]

/-- Case, a mark and blanks around the text are no part of what it spells. -/
theorem parse_between (front back : List Char) {mark : List Char}
    (hfront : ∀ c ∈ front, isBlank c = true) (hmark : mark ∈ [[], ['0', 'x'], ['0', 'X']])
    (hcs : cs.map Char.toLower = Hex.digits x.bytes) (hback : ∀ c ∈ back, isBlank c = true) :
    parse (String.ofList (front ++ (mark ++ cs ++ back))) = .ok x := by
  have hdigits := digits_of_toLower hcs
  have htoken : ∀ c ∈ mark ++ cs, isBlank c = false :=
    List.forall_mem_append.mpr
      ⟨not_blank_of_mark hmark, fun c hc => not_blank_of_digit (hdigits c hc)⟩
  have htrim := isTrimmed_between hfront htoken hback
  rw [← String.toList_ofList (l := front ++ (mark ++ cs ++ back))] at htrim
  exact (parse_eq_ok_iff htrim (afterMark_append hmark hdigits)).mpr (spells_of_toLower hcs)

theorem parse_text (x : Source) : parse x.text = .ok x := by
  have htext : String.ofList ([] ++ (['0', 'x'] ++ Hex.digits x.bytes ++ [])) = x.text := by
    rw [List.nil_append, List.append_nil, String.ofList_append]
    rfl
  rw [← htext]
  exact parse_between [] [] (by simp) (by simp) (toLower_hex x.bytes) (by simp)

theorem text_injective : Function.Injective Source.text := Except.injective_of_read parse_text

/-- A text without its blanks and one mark is read as a source if it is an even number of bytes,
all of them digits; otherwise an odd number is reported, and of an even number the first byte that
is no digit. Each source is read back from its text, in letters of either case, with or without a
mark and between blanks. -/
theorem hexadecimal_read :
    (∀ text : String,
      (∃ token digits, IsTrimmed text.toList token ∧ AfterMark token digits) ∧
      ∀ token digits, IsTrimmed text.toList token → AfterMark token digits →
        ((∃ x, parse text = .ok x) ↔
          (utf8 digits).length % 2 = 0 ∧ ∀ b ∈ utf8 digits, Hex.isDigit b = true) ∧
        (∀ x, parse text = .ok x ↔ Hex.Spells (utf8 digits) x.bytes) ∧
        ∀ e, parse text = .error e ↔ Hex.Unreadable (utf8 digits) e) ∧
    (∀ (x : Source) (front mark cs back : List Char), (∀ c ∈ front, isBlank c = true) →
      mark ∈ [[], ['0', 'x'], ['0', 'X']] → cs.map Char.toLower = Hex.digits x.bytes →
      (∀ c ∈ back, isBlank c = true) →
      parse (String.ofList (front ++ (mark ++ cs ++ back))) = .ok x) ∧
    (∀ x : Source, parse x.text = .ok x) ∧ Function.Injective Source.text := by
  refine ⟨?_, ?_, parse_text, text_injective⟩
  · intro text
    constructor
    · obtain ⟨radix, digits, hmark⟩ := exists_marked (trim text.toList)
      exact ⟨_, digits, trim_isTrimmed _, radix, hmark⟩
    · intro token digits htrim hmark
      refine ⟨?_, fun x => parse_eq_ok_iff htrim hmark, fun e => parse_eq_error_iff htrim hmark⟩
      constructor
      · intro h
        obtain ⟨x, hx⟩ := h
        have hspells := (parse_eq_ok_iff htrim hmark).mp hx
        exact ⟨hspells.even, hspells.digits⟩
      · intro h
        obtain ⟨heven, hall⟩ := h
        obtain ⟨xs, -, hspells⟩ := Hex.read?_of_digits heven hall
        exact ⟨⟨xs⟩, (parse_eq_ok_iff htrim hmark).mpr hspells⟩
  · intro x front mark cs back hfront hmark hcs hback
    exact parse_between front back hfront hmark hcs hback

/-- Three characters are four bytes, so the one that is no digit is reported and not the number. -/
theorem hexadecimal_read_bytes :
    let digits : List Char := ['0', Char.ofNat 0xE9, '1']
    let token : List Char := '0' :: 'x' :: digits
    let text := String.ofList (Char.ofNat 0x2003 :: (token ++ [Char.ofNat 9]))
    IsTrimmed text.toList token ∧ AfterMark token digits ∧
      Hex.Unreadable (utf8 digits) (.notADigit 0xC3 1) ∧
      parse text = .error (.notADigit 0xC3 1) ∧
      ['0', 'a', 'F', 'f'].map Char.toLower = Hex.digits [0x0A, 0xFF] ∧
      parse (String.ofList (' ' :: (['0', 'X'] ++ ['0', 'a', 'F', 'f'] ++ [' ']))) =
        .ok ⟨[0x0A, 0xFF]⟩ := by
  intro digits token text
  have htrim : IsTrimmed text.toList token := by
    have hfront : ∀ c ∈ [Char.ofNat 0x2003], isBlank c = true := List.forall_mem_singleton.mpr rfl
    have htoken : ∀ c ∈ token, isBlank c = false := by simp [token, digits, isBlank]
    have hback : ∀ c ∈ [Char.ofNat 9], isBlank c = true := List.forall_mem_singleton.mpr rfl
    rw [String.toList_ofList]
    exact isTrimmed_between hfront htoken hback
  have hmark : AfterMark token digits := ⟨16, .lower digits⟩
  have hbad : Hex.Unreadable (utf8 digits) (.notADigit 0xC3 1) :=
    .notADigit (by decide) ⟨by decide, by decide, List.forall_mem_singleton.mpr (by decide)⟩
  have hlower : ['0', 'a', 'F', 'f'].map Char.toLower = Hex.digits [0x0A, 0xFF] := by decide
  refine ⟨htrim, hmark, hbad, ?_, hlower, ?_⟩
  · obtain ⟨-, -, herror⟩ := (hexadecimal_read.1 text).2 token digits htrim hmark
    exact (herror _).mpr hbad
  · have hblank : ∀ c ∈ [' '], isBlank c = true := List.forall_mem_singleton.mpr rfl
    exact hexadecimal_read.2.1 ⟨[0x0A, 0xFF]⟩ [' '] ['0', 'X'] ['0', 'a', 'F', 'f'] [' '] hblank
      (by simp) hlower hblank

end Source

end SaleRules
