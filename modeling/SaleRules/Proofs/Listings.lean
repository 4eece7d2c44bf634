import SaleRules.Proofs.NumeralRoundTrips
import SaleRules.Proofs.OpcodeNames
import SaleRules.Proofs.ProgramHistory
import SaleRules.Proofs.SourceReading
import Mathlib.Data.List.Forall2

/-!
# Listings are assembled back

A listing shows each instruction of a source as a line. An assembler cuts a line at its first space,
looks the name in front of it up and reads the number behind it, which is zero where there is none.
A mnemonic holds no space, an operand that is left out was zero, and one that is shown is a decimal
numeral that is read as itself. So every line gives its instruction back, whatever the case of its
letters, and the lines together give the source.
-/
namespace SaleRules

namespace Instruction

/-- The operand of a line, zero where none is written. -/
def operandOf? : Option (List Char) → Option Nat
  | none => some 0
  | some digits => (Word.parse (String.ofList digits)).toOption.map Word.toNat

/-- The instruction that a line of a listing stands for. -/
def ofText? (line : String) : Option Instruction := do
  let name := String.ofList (line.toList.takeWhile (· ≠ ' '))
  let opcode ← (Opcode.ofMnemonic name).toOption
  let operand ← operandOf? (line.toList.dropWhile (· ≠ ' ')).tail?
  (withOperand opcode operand).toOption

end Instruction

namespace Source

/-- The instructions of a source, each as a line. -/
def listing (s : Source) : Except SourceError (List String) :=
  s.instructions.map (List.map Instruction.text)

/-- The source that a listing stands for. -/
def assemble? (lines : List String) : Option Source :=
  (lines.mapM Instruction.ofText?).map ofInstructions

end Source

namespace Instruction

open Text

/-! ## Lines -/

/-- What a line shows behind the mnemonic. -/
def behind : Option (List Char) → List Char
  | none => []
  | some digits => ' ' :: digits

theorem operandOf?_decimal (n : UInt8) :
    operandOf? (some (Nat.toDigits 10 n.toNat)) = some n.toNat := by
  have hlt : n.toNat < 2 ^ 256 := Nat.lt_trans n.toNat_lt (by norm_num)
  have hvalue : (Word.ofNat n.toNat).toNat = n.toNat := by
    rw [Word.toNat_ofNat, Nat.mod_eq_of_lt hlt]
  have hparse := Word.parse_decimal (Word.ofNat n.toNat)
  rw [Word.decimal_eq, hvalue, decimal] at hparse
  rw [operandOf?, hparse]
  exact congrArg some hvalue

/-- A line is the mnemonic with the operand, or without it where the operand is zero. -/
theorem toList_text (i : Instruction) :
    ∃ operand?, i.text.toList = i.opcode.mnemonic.toList ++ behind operand? ∧
      (∀ digits ∈ operand?, Written 10 digits) ∧ operandOf? operand? = some i.operand.toNat := by
  rw [text]
  split
  · refine ⟨some (Nat.toDigits 10 i.operand.toNat), ?_, ?_, operandOf?_decimal i.operand⟩
    · rw [String.toList_append, String.toList_append, decimal, String.toList_ofList,
        String.toList_ofList, List.append_assoc]
      rfl
    · rintro digits ⟨⟩
      exact written_toDigits i.operand.toNat
  · next hhidden =>
    have hzero : i.operand = 0 := by_contra fun hne => hhidden (.inr hne)
    refine ⟨none, ?_, ?_, ?_⟩
    · rw [behind, List.append_nil]
    · rintro digits ⟨⟩
    · rw [hzero]
      rfl

theorem case_behind {operand? : Option (List Char)} (h : ∀ digits ∈ operand?, Written 10 digits) :
    ∀ c ∈ behind operand?, c.toUpper = c ∧ c.isUpper = false := by
  cases operand? with
  | none => exact List.forall_mem_nil _
  | some digits =>
    have hdigits : ∀ c ∈ digits, c.toUpper = c ∧ c.isUpper = false :=
      (h digits rfl).forall_mem (by decide)
    exact List.forall_mem_cons.mpr ⟨⟨rfl, rfl⟩, hdigits⟩

/-- The first space of a line is the one behind its name. -/
theorem cut_line {name : List Char} (hname : ∀ c ∈ name, c ≠ ' ') (operand? : Option (List Char)) :
    (name ++ behind operand?).takeWhile (· ≠ ' ') = name ∧
      ((name ++ behind operand?).dropWhile (· ≠ ' ')).tail? = operand? := by
  have hall : ∀ c ∈ name, decide (c ≠ ' ') = true := fun c hc => decide_eq_true (hname c hc)
  rw [List.takeWhile_append_of_pos hall, List.dropWhile_append_of_pos hall]
  cases operand? with
  | none => exact ⟨List.append_nil name, rfl⟩
  | some digits => exact ⟨List.append_nil name, rfl⟩

theorem ne_space_of_mnemonic {name : List Char} {opcode : Opcode}
    (h : name.map Char.toUpper = opcode.mnemonic.toList) : ∀ c ∈ name, c ≠ ' ' := by
  rintro c hc rfl
  have hmem : ' '.toUpper ∈ opcode.mnemonic.toList := h ▸ List.mem_map_of_mem hc
  exact absurd (Opcode.isNameChar_of_mem hmem) (by decide)

/-- A line is read back as its instruction, in letters of either case. -/
theorem ofText?_of_sameLetters {line : String} {i : Instruction} (h : SameLetters line i.text) :
    ofText? line = some i := by
  obtain ⟨operand?, htext, hwritten, hoperand⟩ := i.toList_text
  have hcase := case_behind hwritten
  rw [SameLetters, htext, List.map_append, List.map_eq_append_iff] at h
  obtain ⟨name, tail, hline, hname, htail⟩ := h
  rw [Opcode.toUpper_mnemonic] at hname
  have hsame : tail = behind operand? := by
    refine eq_of_map_toUpper (htail.trans ?_) fun c hc => (hcase c hc).2
    rw [List.map_congr_left fun c hc => (hcase c hc).1, List.map_id']
  obtain ⟨htake, hdrop⟩ := cut_line (ne_space_of_mnemonic hname) operand?
  have hopcode : Opcode.ofMnemonic (String.ofList name) = .ok i.opcode := by
    rw [Opcode.ofMnemonic_eq_ok_iff, SameLetters, String.toList_ofList, hname,
      Opcode.toUpper_mnemonic]
  have hfits : withOperand i.opcode i.operand.toNat = .ok i :=
    withOperand_eq_ok_iff.mpr ⟨Nat.le_of_lt_succ i.operand.toNat_lt, by rw [UInt8.ofNat_toNat]⟩
  rw [ofText?, hline, hsame, htake, hdrop, hopcode, hoperand]
  change (withOperand i.opcode i.operand.toNat).toOption = some i
  rw [hfits]
  rfl

end Instruction

namespace Source

open Text

theorem mapM_ofText? {lines : List String} {is : List Instruction}
    (h : List.Forall₂ SameLetters lines (is.map Instruction.text)) :
    lines.mapM Instruction.ofText? = some is := by
  rw [List.forall₂_map_right_iff] at h
  induction h with
  | nil => rfl
  | cons hline _ ih =>
    rw [List.mapM_cons, Instruction.ofText?_of_sameLetters hline, ih]
    rfl

/-- A listing is assembled to the source that it was made from, in letters of either case. -/
theorem assemble?_of_listing {s : Source} {listing lines : List String}
    (hlisting : s.listing = .ok listing) (hlines : List.Forall₂ SameLetters lines listing) :
    assemble? lines = some s := by
  obtain ⟨is, his, rfl⟩ := Except.map_eq_ok_iff.mp hlisting
  rw [assemble?, mapM_ofText? hlines, Option.map_some, instructions_eq_ok_iff.mp his]

/-- The listing of a source is assembled back to its bytes, whatever case its letters are written
in, although most lines do not show an operand of zero. So no two sources have one listing. -/
theorem listing_assembled :
    (∀ (s : Source) listing, s.listing = .ok listing → assemble? listing = some s) ∧
    (∀ (s : Source) listing lines, s.listing = .ok listing →
      List.Forall₂ SameLetters lines listing → assemble? lines = some s) ∧
    ∀ (s t : Source) listing, s.listing = .ok listing → t.listing = .ok listing → s = t := by
  have hself : ∀ (s : Source) listing, s.listing = .ok listing → assemble? listing = some s :=
    fun s listing h => assemble?_of_listing h (List.forall₂_same.mpr fun _ _ => rfl)
  refine ⟨hself, fun s listing lines => assemble?_of_listing, ?_⟩
  intro s t listing hs ht
  exact Option.some.inj ((hself s listing hs).symm.trans (hself t listing ht))

theorem listing_assembled_lowercase :
    let s : Source := ⟨[1, 0, 6, 0, 5, 7, 32, 255]⟩
    let listing : List String := ["VAL 0", "BLOCK_TIMESTAMP", "BLOCK_NUMBER 7", "EVERY 255"]
    let lines : List String := ["val 0", "Block_Timestamp", "block_number 7", "EVERY 255"]
    s.listing = .ok listing ∧ List.Forall₂ SameLetters lines listing ∧
      assemble? listing = some s ∧ assemble? lines = some s := by
  intro s listing lines
  have hlisting : s.listing = .ok listing := by decide +kernel
  have hlines : List.Forall₂ SameLetters lines listing :=
    .cons (by decide +kernel) (.cons (by decide +kernel) (.cons (by decide +kernel)
      (.cons (by decide +kernel) .nil)))
  exact ⟨hlisting, hlines, listing_assembled.1 s listing hlisting,
    listing_assembled.2.1 s listing lines hlisting hlines⟩

end Source

end SaleRules
