import SaleRules.Proofs.PaddedNumerals
import SaleRules.Proofs.ParameterViews

/-!
# Dates are read back from their texts

A date text is read from front to back: the year, which has four digits or a plus sign and more, and
then five numbers of two digits, each behind its mark. Only dates that are in the calendar and times
that are on the clock are read. Each has one text, so what is shown of a parameter tells which
number of seconds it is.
-/
namespace SaleRules

namespace Calendar

/-! ## Dates in the calendar -/

theorem isDate_iff {year month day : Nat} :
    IsDate year month day ↔
      1 ≤ month ∧ 1 ≤ day ∧ day ≤ ((monthLengths year)[month - 1]?).getD 0 := by
  constructor
  · intro h
    obtain ⟨length, hlength, hle⟩ := h.day_le
    exact ⟨h.month_pos, h.day_pos, by rwa [hlength]⟩
  · rintro ⟨hmonth, hday, hle⟩
    refine ⟨hmonth, hday, ?_⟩
    cases hlength : (monthLengths year)[month - 1]? with
    | none =>
      rw [hlength] at hle
      exact absurd hday (Nat.not_le_of_lt (Nat.lt_succ_of_le hle))
    | some length => exact ⟨length, rfl, by rwa [hlength] at hle⟩

instance (year month day : Nat) : Decidable (IsDate year month day) :=
  decidable_of_iff _ isDate_iff.symm

theorem february_le (year : Nat) : february year ≤ 29 := by
  rw [february]
  split <;> decide

theorem monthLengths_le (year : Nat) : ∀ length ∈ monthLengths year, length ≤ 31 := by
  have h := february_le year
  simp [monthLengths]
  omega

theorem IsDate.month_le_twelve {year month day : Nat} (h : IsDate year month day) :
    month ≤ 12 := by
  obtain ⟨length, hlength, -⟩ := h.day_le
  have hlt := (List.getElem?_eq_some_iff.mp hlength).1
  have htwelve : (monthLengths year).length = 12 := rfl
  omega

theorem IsDate.day_le_31 {year month day : Nat} (h : IsDate year month day) : day ≤ 31 := by
  obtain ⟨length, hlength, hle⟩ := h.day_le
  exact Nat.le_trans hle (monthLengths_le year length (List.mem_of_getElem? hlength))

end Calendar

namespace Moment

open Text Calendar

theorem proper_iff {m : Moment} :
    m.Proper ↔ IsDate m.year m.month m.day ∧ m.hour < 24 ∧ m.minute < 60 ∧ m.second < 60 :=
  ⟨fun h => ⟨h.date, h.hour_lt, h.minute_lt, h.second_lt⟩,
    fun h => ⟨h.1, h.2.1, h.2.2.1, h.2.2.2⟩⟩

instance (m : Moment) : Decidable m.Proper := decidable_of_iff _ proper_iff.symm

/-! ## Reading dates -/

/-- The year of exactly four digits, or of more behind a plus sign, of which the first is no zero. -/
def year? (cs : List Char) : Option Nat :=
  let signed := cs.head? = some '+'
  let digits := if signed then cs.tail else cs
  let wanted := if signed then 4 < digits.length ∧ digits.head? ≠ some '0' else digits.length = 4
  if wanted ∧ digits.all (isDigit 10) = true then some (numeralValue 10 digits) else none

/-- The date and the time of day that a text spells, with no offset from UTC. -/
def read? (text : String) : Option Moment := do
  let year ← year? (text.toList.takeWhile (· ≠ '-'))
  let (month, cs) ← pair? '-' (text.toList.dropWhile (· ≠ '-'))
  let (day, cs) ← pair? '-' cs
  let (hour, cs) ← pair? 'T' cs
  let (minute, cs) ← pair? ':' cs
  let (second, cs) ← pair? ':' cs
  let m : Moment := ⟨year, month, day, hour, minute, second⟩
  if cs = "+00:00".toList ∧ m.Proper then some m else none

theorem year?_signed (digits : List Char) :
    year? ('+' :: digits) =
      if (4 < digits.length ∧ digits.head? ≠ some '0') ∧ digits.all (isDigit 10) = true then
        some (numeralValue 10 digits)
      else none := by
  simp [year?]

theorem year?_plain {cs : List Char} (h : cs.head? ≠ some '+') :
    year? cs =
      if cs.length = 4 ∧ cs.all (isDigit 10) = true then some (numeralValue 10 cs) else none := by
  simp [year?, h]

theorem toList_yearText_signed {year : Nat} (h : 9999 < year) :
    (yearText year).toList = '+' :: (padded 4 year).toList := by
  rw [yearText, if_pos h, String.toList_append]
  rfl

theorem toList_yearText_plain {year : Nat} (h : year ≤ 9999) :
    (yearText year).toList = (padded 4 year).toList := by
  rw [yearText, if_neg (Nat.not_lt.mpr h), String.empty_append]

theorem year?_yearText (year : Nat) : year? (yearText year).toList = some year := by
  have hwritten := written_padded 4 year
  rcases Nat.lt_or_ge 9999 year with h | h
  · have hdigits : 4 < (Nat.toDigits 10 year).length := by
      rw [← Nat.not_le, Nat.length_toDigits_le_iff (by decide) (by decide)]
      omega
    have hpadded : (padded 4 year).toList = Nat.toDigits 10 year := by
      rw [toList_padded, Nat.sub_eq_zero_of_le hdigits.le, List.replicate_zero, List.nil_append]
    have hhead : (padded 4 year).toList.head? ≠ some '0' := by
      rw [hpadded, ne_eq, head?_toDigits]
      omega
    rw [toList_yearText_signed h, year?_signed, if_pos ⟨⟨hpadded ▸ hdigits, hhead⟩, hwritten.all⟩,
      numeralValue_padded]
  · have hhead : (padded 4 year).toList.head? ≠ some '+' := fun hplus =>
      hwritten.forall_mem (P := (· ≠ '+')) (by decide) _ (List.mem_of_mem_head? hplus) rfl
    have hlength : (padded 4 year).toList.length = 4 :=
      length_padded_of_lt (by decide) (Nat.lt_succ_of_le h)
    rw [toList_yearText_plain h, year?_plain hhead, if_pos ⟨hlength, hwritten.all⟩,
      numeralValue_padded]

theorem eq_yearText_of_year? {cs : List Char} {year : Nat} (h : year? cs = some year) :
    cs = (yearText year).toList := by
  by_cases hsigned : cs.head? = some '+'
  · obtain ⟨digits, rfl⟩ := List.head?_eq_some_iff.mp hsigned
    rw [year?_signed] at h
    split at h
    · next hwanted =>
      obtain ⟨⟨hlength, hzero⟩, hall⟩ := hwanted
      have hwritten := written_of_digits hall
      have hge := hwritten.le_numeralValue (List.ne_nil_of_length_pos (by omega)) hzero
      have hpow : 10 ^ 4 ≤ 10 ^ (digits.length - 1) := Nat.pow_le_pow_right (by decide) (by omega)
      cases h
      rw [toList_yearText_signed (by omega), hwritten.padded_of_lt (by decide) hlength hzero]
    · cases h
  · rw [year?_plain hsigned] at h
    split at h
    · next hwanted =>
      obtain ⟨hlength, hall⟩ := hwanted
      have hwritten := written_of_digits hall
      have hlt := hwritten.numeralValue_lt
      rw [hlength] at hlt
      cases h
      rw [toList_yearText_plain (by omega), hwritten.padded_of_length (by decide) hlength]
    · cases h

theorem year?_eq_some_iff {cs : List Char} {year : Nat} :
    year? cs = some year ↔ cs = (yearText year).toList :=
  ⟨eq_yearText_of_year?, fun h => h ▸ year?_yearText year⟩

/-- No mark stands in a year. -/
theorem ne_mark_of_year {year : Nat} : ∀ c ∈ (yearText year).toList, (decide (c ≠ '-')) = true := by
  have hdigits : ∀ c ∈ (padded 4 year).toList, (decide (c ≠ '-')) = true :=
    (written_padded 4 year).forall_mem (by decide)
  rcases Nat.lt_or_ge 9999 year with h | h
  · rw [toList_yearText_signed h]
    exact List.forall_mem_cons.mpr ⟨by decide, hdigits⟩
  · rwa [toList_yearText_plain h]

theorem toList_text (m : Moment) :
    m.text.toList = (yearText m.year).toList ++
      '-' :: ((padded 2 m.month).toList ++ '-' :: ((padded 2 m.day).toList ++
        'T' :: ((padded 2 m.hour).toList ++ ':' :: ((padded 2 m.minute).toList ++
          ':' :: ((padded 2 m.second).toList ++ "+00:00".toList))))) := by
  have hdash : "-".toList = ['-'] := rfl
  have htime : "T".toList = ['T'] := rfl
  have hcolon : ":".toList = [':'] := rfl
  simp only [text, dateText, timeText, String.toList_append, List.append_assoc, hdash, htime,
    hcolon, List.cons_append, List.nil_append]

/-- A text is read exactly if it is the text of a date in the calendar and a time on the clock. -/
theorem read?_eq_some_iff {s : String} {m : Moment} :
    read? s = some m ↔ m.Proper ∧ s = m.text := by
  simp only [read?, bind, Option.bind_eq_some_iff, Prod.exists, year?_eq_some_iff,
    pair?_eq_some_iff]
  constructor
  · intro h
    obtain ⟨year, hyear, month, _, ⟨-, hmonth⟩, day, _, ⟨-, rfl⟩, hour, _, ⟨-, rfl⟩, minute, _,
      ⟨-, rfl⟩, second, _, ⟨-, rfl⟩, hm⟩ := h
    -- the numbers and marks that were taken off make up what stands behind the year
    split at hm
    · next hend =>
      obtain ⟨rfl, hproper⟩ := hend
      cases hm
      refine ⟨hproper, String.toList_inj.mp ?_⟩
      rw [toList_text, ← hyear, ← hmonth, List.takeWhile_append_dropWhile]
    · cases hm
  · rintro ⟨hproper, rfl⟩
    have hmonth := hproper.date.month_le_twelve
    have hday := hproper.date.day_le_31
    have hhour := hproper.hour_lt
    have hminute := hproper.minute_lt
    have hsecond := hproper.second_lt
    -- the first mark ends the year, and every number behind it has two digits
    rw [toList_text, List.takeWhile_append_of_pos ne_mark_of_year,
      List.dropWhile_append_of_pos ne_mark_of_year, List.takeWhile_cons_of_neg (by decide),
      List.dropWhile_cons_of_neg (by decide), List.append_nil]
    exact ⟨m.year, rfl, m.month, _, ⟨by omega, rfl⟩, m.day, _, ⟨by omega, rfl⟩, m.hour, _,
      ⟨by omega, rfl⟩, m.minute, _, ⟨by omega, rfl⟩, m.second, _, ⟨by omega, rfl⟩,
      if_pos ⟨rfl, hproper⟩⟩

/-! ## The order of moments -/

/-- The first part in which the moments differ is the smaller one. -/
def Before (m m' : Moment) : Prop :=
  m.year < m'.year ∨ m.year = m'.year ∧ (m.month < m'.month ∨ m.month = m'.month ∧
    (m.day < m'.day ∨ m.day = m'.day ∧ (m.hour < m'.hour ∨ m.hour = m'.hour ∧
      (m.minute < m'.minute ∨ m.minute = m'.minute ∧ m.second < m'.second))))

theorem before_or_eq_or_before (m m' : Moment) : m.Before m' ∨ m = m' ∨ m'.Before m := by
  cases m
  cases m'
  simp only [Before, mk.injEq]
  omega

/-- An earlier moment denotes fewer seconds. -/
theorem Before.unixSeconds_lt {m m' : Moment} (hbefore : m.Before m') (h : m.Proper)
    (h' : m'.Proper) : m.unixSeconds < m'.unixSeconds := by
  obtain ⟨hdate, hhour, hminute, hsecond⟩ := h
  obtain ⟨hdate', -, -, -⟩ := h'
  rw [unixSeconds_eq, unixSeconds_eq]
  by_cases hlater : m.year < m'.year ∨ m.year = m'.year ∧ (m.month < m'.month ∨
      m.month = m'.month ∧ m.day < m'.day)
  · -- the time of day is shorter than the day by which the dates differ
    have hdays := dayNumber_lt hdate hdate' hlater
    omega
  · have hsame : m.year = m'.year ∧ m.month = m'.month ∧ m.day = m'.day := by
      rw [Before] at hbefore
      omega
    obtain ⟨hyear, hmonth, hday⟩ := hsame
    rw [Before, hyear, hmonth, hday] at hbefore
    rw [hyear, hmonth, hday]
    omega

theorem before_iff {m m' : Moment} (h : m.Proper) (h' : m'.Proper) :
    m.Before m' ↔ m.unixSeconds < m'.unixSeconds := by
  refine ⟨fun hbefore => hbefore.unixSeconds_lt h h', fun hlt => ?_⟩
  rcases before_or_eq_or_before m m' with hbefore | rfl | hbefore
  · exact hbefore
  · exact absurd hlt (lt_irrefl _)
  · exact absurd (hbefore.unixSeconds_lt h' h) hlt.not_gt

end Moment

namespace StateConfig

/-! ## Dates of parameters -/

/-- A parameter is shown as a date by the text: the text is printed for it behind the seconds, and
is read as a moment in the calendar that denotes as many seconds as the parameter. -/
structure DateShown (c : StateConfig) (index : Nat) (w : Word) (text : String) (m : Moment) :
    Prop where
  shown : (c.date? index).map Moment.text = some text
  printed : ∃ front, (Command.describe c index).output =
    front ++ "seconds:   " ++ Text.decimal w.toNat ++ "\n" ++ "date:      " ++ text ++ "\n"
  read : Moment.read? text = some m
  proper : m.Proper
  seconds : m.unixSeconds = w.toNat

variable {c c' : StateConfig} {index index' : Nat} {w w' : Word} {text text' : String}
  {m m' : Moment}

/-- The lines on a parameter that has a date end with its seconds and the date. -/
theorem shown_of_le (hle : w.toNat ≤ Moment.lastSecond) :
    w.shown index = "constant[" ++ Text.decimal index ++ "]: " ++ Text.decimal w.toNat ++ "\n" ++
      "seconds:   " ++ Text.decimal w.toNat ++ "\n" ++ "date:      " ++
        (Moment.ofSeconds w.toNat).text ++ "\n" := by
  have hlt : w.toNat < 2 ^ 64 := by
    rw [Moment.lastSecond] at hle
    omega
  delta Word.shown
  simp only [if_pos hlt, if_pos hle, String.append_assoc]

theorem describe_of_parameter (hshape : c.Recognised) (h : c.parameter? index = some w) :
    ∃ front, (Command.describe c index).output = front ++ w.shown index := by
  obtain ⟨f, hf⟩ := recognised_iff.mp hshape
  refine ⟨c.text ++ "\n" ++ Command.shapeText f, ?_⟩
  simp only [Command.describe, hf, h, Command.parameterText_eq h]
  rfl

theorem exists_dateShown (hshape : c.Recognised) (hw : c.constants[index]? = some w)
    (hle : w.toNat ≤ Moment.lastSecond) : ∃ text m, c.DateShown index w text m := by
  have hparameter : c.parameter? index = some w :=
    parameter?_eq_some_iff.mpr ⟨hshape, List.getElem?_eq_some_iff.mp hw⟩
  obtain ⟨hproper, hseconds⟩ := Moment.ofSeconds_spec w.toNat
  obtain ⟨front, hfront⟩ := describe_of_parameter hshape hparameter
  refine ⟨(Moment.ofSeconds w.toNat).text, Moment.ofSeconds w.toNat, ?_, ?_,
    Moment.read?_eq_some_iff.mpr ⟨hproper, rfl⟩, hproper, hseconds⟩
  · rw [date?_of_parameter hparameter, if_pos hle, Option.map_some]
  · rw [hfront, shown_of_le hle]
    exact ⟨_, by simp only [← String.append_assoc]; rfl⟩

theorem DateShown.text_eq_iff (h : c.DateShown index w text m)
    (h' : c'.DateShown index' w' text' m') : text = text' ↔ w = w' := by
  rw [← Word.toNat_inj, ← Int.ofNat_inj, ← h.seconds, ← h'.seconds]
  constructor
  · rintro rfl
    rw [Option.some.inj (h.read.symm.trans h'.read)]
  · intro hseconds
    obtain ⟨hproper, htext⟩ := Moment.read?_eq_some_iff.mp h.read
    obtain ⟨hproper', htext'⟩ := Moment.read?_eq_some_iff.mp h'.read
    rw [htext, htext', hproper.unique hproper' hseconds]

theorem DateShown.before_iff (h : c.DateShown index w text m)
    (h' : c'.DateShown index' w' text' m') : m.Before m' ↔ w.toNat < w'.toNat := by
  rw [Moment.before_iff h.proper h'.proper, h.seconds, h'.seconds, Int.ofNat_lt]

/-- A parameter of a recognised program up to the last second that has a date is shown by a text
that denotes exactly that number of seconds after 1970-01-01T00:00:00. A text is read exactly if it
is the one of a moment in the calendar. Different parameters therefore show different dates, and of
two the smaller one shows the earlier date. -/
theorem dates_denote :
    (∀ (c : StateConfig) (index : Nat) (w : Word), c.Recognised → c.constants[index]? = some w →
      w.toNat ≤ 8210266876799 → ∃ text m, c.DateShown index w text m) ∧
    (∀ (text : String) (m : Moment), Moment.read? text = some m ↔ m.Proper ∧ text = m.text) ∧
    ∀ (c c' : StateConfig) (index index' : Nat) (w w' : Word) (text text' : String) (m m' : Moment),
      c.DateShown index w text m → c'.DateShown index' w' text' m' →
      (text = text' ↔ w = w') ∧ (m.Before m' ↔ w.toNat < w'.toNat) := by
  refine ⟨?_, ?_, ?_⟩
  · intro c index w hshape hw hle
    exact exists_dateShown hshape hw hle
  · intro text m
    exact Moment.read?_eq_some_iff
  · intro c c' index index' w w' text text' m m' h h'
    exact ⟨h.text_eq_iff h', h.before_iff h'⟩

/-- A leap day at the end of a century, and the first second of a year with five digits. -/
theorem dates_denote_leap :
    let leap := Word.ofNat 951827696
    let far := Word.ofNat 253402300800
    let c : StateConfig := ⟨[⟨Fingerprint.legacyAfterTime.bytes⟩], [leap, far], 2, 0⟩
    c.Recognised ∧ leap.toNat = 951827696 ∧ far.toNat = 253402300800 ∧
      ∃ m m', c.DateShown 0 leap "2000-02-29T12:34:56+00:00" m ∧
        c.DateShown 1 far "+10000-01-01T00:00:00+00:00" m' ∧ m.Before m' := by
  intro leap far c
  have hshape : c.Recognised := ⟨_, rfl, .legacyAfterTime, rfl⟩
  have hleap : leap.toNat = 951827696 := Word.toNat_ofNat _
  have hfar : far.toNat = 253402300800 := Word.toNat_ofNat _
  obtain ⟨hdates, -, horder⟩ := dates_denote
  obtain ⟨text, m, h⟩ := hdates c 0 leap hshape rfl (by omega)
  obtain ⟨text', m', h'⟩ := hdates c 1 far hshape rfl (by omega)
  have htext : (c.date? 0).map Moment.text = some "2000-02-29T12:34:56+00:00" := by decide +kernel
  have htext' : (c.date? 1).map Moment.text = some "+10000-01-01T00:00:00+00:00" := by
    decide +kernel
  obtain rfl := Option.some.inj (h.shown.symm.trans htext)
  obtain rfl := Option.some.inj (h'.shown.symm.trans htext')
  have hbefore := (horder c c 0 1 leap far _ _ m m' h h').2.mpr (by omega)
  exact ⟨hshape, hleap, hfar, m, m', h, h', hbefore⟩

end StateConfig

end SaleRules
