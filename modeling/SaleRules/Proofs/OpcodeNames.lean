import SaleRules.Opcode
import SaleRules.Proofs.TextParts

/-!
# Names of opcodes

A mnemonic is made of capital letters, digits and underscores and starts with a letter. So it holds
no space and spells no number, and a text that differs from it in the case of letters only is
looked up as the same opcode.
-/
namespace SaleRules

namespace Text

/-- The texts differ at most in the case of ASCII letters. -/
def SameLetters (s t : String) : Prop := s.toList.map Char.toUpper = t.toList.map Char.toUpper

instance (s t : String) : Decidable (SameLetters s t) :=
  inferInstanceAs (Decidable (s.toList.map Char.toUpper = t.toList.map Char.toUpper))

theorem toUpper_nonAscii {c : Char} (h : 128 ≤ c.toNat) : c.toUpper = c := by
  have hle : ¬ c.val ≤ 'z'.val := not_le_of_nonAscii (d := 'z') h (by decide)
  exact dif_neg fun hlower => hle hlower.2

/-- Only capital letters are written in two ways. -/
theorem eq_of_toUpper {c d : Char} (h : c.toUpper = d) (hd : d.isUpper = false) : c = d := by
  have hsame : ∀ c : Char, c.toUpper.isUpper = false → c.toUpper = c := by
    apply ascii_cases
    · decide +kernel
    · exact fun c hc _ => toUpper_nonAscii hc
  rw [← h] at hd ⊢
  exact (hsame c hd).symm

theorem eq_of_map_toUpper {cs ds : List Char} (h : cs.map Char.toUpper = ds)
    (hds : ∀ d ∈ ds, d.isUpper = false) : cs = ds := by
  induction cs generalizing ds with
  | nil => exact h
  | cons c cs ih =>
    subst h
    obtain ⟨hc, hcs⟩ := List.forall_mem_cons.mp hds
    rw [List.map_cons, ← eq_of_toUpper rfl hc, ← ih rfl hcs]

/-! ## Numerals -/

theorem not_letter_of_digit : ∀ c : Char, isDigit 10 c = true → c.toUpper.isUpper = false := by
  apply ascii_cases
  · decide +kernel
  · intro c hc h
    exact absurd (ascii_of_digit (by decide) h) (Nat.not_lt.mpr hc)

/-- What starts with a letter is no numeral, which starts with a digit or a sign. -/
theorem uint64?_of_letter {c : Char} (h : c.toUpper.isUpper = true) (cs : List Char) :
    uint64? (c :: cs) = none := by
  have hplus : c ≠ '+' := by
    rintro rfl
    exact absurd h (by decide)
  have hdigit : digit? 10 c = none := by
    rw [digit?_eq (by decide), if_neg]
    intro hc
    rw [not_letter_of_digit c hc] at h
    cases h
  have hdecimal : decimal? (c :: cs) = none := by
    rw [decimal?, List.foldlM_cons, hdigit]
    · rfl
    · exact List.cons_ne_nil c cs
  rw [uint64?, hdecimal]
  · rfl
  · intro rest hrest
    exact hplus (List.cons.inj hrest).1

end Text

namespace Opcode

open Text

/-- The characters that mnemonics are made of. -/
def isNameChar (c : Char) : Bool := c.isUpper || c.isDigit || c == '_'

theorem mem_all (opcode : Opcode) : opcode ∈ all := by
  cases opcode <;> decide

/-- What is checked of the table of mnemonics, in one go. -/
private theorem all_spelled : ∀ opcode ∈ all, ofMnemonic opcode.mnemonic = .ok opcode ∧
    opcode.mnemonic.toList.all isNameChar = true ∧
    opcode.mnemonic.toList.head?.any Char.isUpper = true := by
  decide +kernel

theorem ofMnemonic_mnemonic (opcode : Opcode) : ofMnemonic opcode.mnemonic = .ok opcode :=
  (all_spelled opcode opcode.mem_all).1

theorem isNameChar_of_mem {opcode : Opcode} {c : Char} (h : c ∈ opcode.mnemonic.toList) :
    isNameChar c = true :=
  List.all_eq_true.mp (all_spelled opcode opcode.mem_all).2.1 c h

theorem mnemonic_eq_cons (opcode : Opcode) :
    ∃ c cs, opcode.mnemonic.toList = c :: cs ∧ c.isUpper = true := by
  have hhead := (all_spelled opcode opcode.mem_all).2.2
  cases hlist : opcode.mnemonic.toList with
  | nil =>
    rw [hlist] at hhead
    cases hhead
  | cons c cs =>
    rw [hlist] at hhead
    exact ⟨c, cs, rfl, hhead⟩

theorem toUpper_of_isNameChar : ∀ c : Char, isNameChar c = true → c.toUpper = c := by
  apply ascii_cases
  · decide +kernel
  · exact fun c hc _ => toUpper_nonAscii hc

theorem toUpper_mnemonic (opcode : Opcode) :
    opcode.mnemonic.toList.map Char.toUpper = opcode.mnemonic.toList := by
  have hsame : ∀ c ∈ opcode.mnemonic.toList, c.toUpper = c :=
    fun c hc => toUpper_of_isNameChar c (isNameChar_of_mem hc)
  rw [List.map_congr_left hsame, List.map_id']

theorem ofMnemonic_eq_ok_iff {name : String} {opcode : Opcode} :
    ofMnemonic name = .ok opcode ↔ SameLetters name opcode.mnemonic := by
  constructor
  · intro h
    rw [ofMnemonic] at h
    split at h
    · next found hfound =>
      obtain rfl := Except.ok.inj h
      have hname := List.find?_some hfound
      rw [SameLetters, toUpper_mnemonic, eq_of_beq hname, String.toList_ofList]
    · cases h
  · intro h
    have hread := opcode.ofMnemonic_mnemonic
    rw [ofMnemonic, ← h] at hread
    rw [ofMnemonic]
    split at hread
    · exact hread
    · cases hread

theorem uint64?_of_sameLetters {name : String} {opcode : Opcode}
    (h : SameLetters name opcode.mnemonic) : uint64? name.toList = none := by
  obtain ⟨c, cs, hmnemonic, hupper⟩ := opcode.mnemonic_eq_cons
  rw [SameLetters, toUpper_mnemonic, hmnemonic] at h
  obtain ⟨d, ds, hname, rfl, -⟩ := List.map_eq_cons_iff.mp h
  rw [hname]
  exact uint64?_of_letter hupper ds

end Opcode

end SaleRules
