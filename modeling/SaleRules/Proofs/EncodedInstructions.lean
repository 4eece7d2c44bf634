import SaleRules.Proofs.HexReading
import SaleRules.Proofs.InvocationCourses
import SaleRules.Proofs.OpcodeNames
import SaleRules.Proofs.ProgramHistory
import SaleRules.Proofs.SourceReading
import SaleRules.Proofs.WordValues

/-!
# Encoding one instruction

An operand is narrowed from a word to 64 bits and then to a byte, and an opcode from a number of 64
bits to a byte, or it is looked up by its mnemonic. A number too wide for one step stays too wide
for those behind it, so nothing is cut: what is encoded is the opcode and the operand that the texts
name, and all else is refused.
-/
namespace SaleRules

namespace Command

open Text

/-- The number that the text of an operand gives; where there is none it is zero. -/
inductive Operand : Option String → Nat → Prop where
  | absent : Operand none 0
  | given {text : String} {w : Word} (h : Word.parse text = .ok w) : Operand (some text) w.toNat

/-- The opcode that a name calls, by its number or by its mnemonic in letters of either case. -/
inductive Calls : String → Opcode → Prop where
  | number {name : String} {opcode : Opcode} {n : UInt64} (h : uint64? name.toList = some n)
      (hcode : opcode.code.toNat = n.toNat) : Calls name opcode
  | mnemonic {name : String} {opcode : Opcode} (h : SameLetters name opcode.mnemonic) :
      Calls name opcode

/-! ## Opcodes -/

theorem opcodeOf_eq_ok_iff {name : String} {opcode : Opcode} :
    opcodeOf name = .ok opcode ↔ Calls name opcode := by
  rw [opcodeOf]
  constructor
  · intro h
    split at h
    · next n hn => exact .number hn (Opcode.ofCode_eq_ok_iff.mp h)
    · exact .mnemonic (Opcode.ofMnemonic_eq_ok_iff.mp h)
  · intro h
    cases h with
    | number hn hcode =>
      simp only [hn]
      exact Opcode.ofCode_eq_ok_iff.mpr hcode
    | mnemonic h =>
      simp only [Opcode.uint64?_of_sameLetters h]
      exact Opcode.ofMnemonic_eq_ok_iff.mpr h

/-- The names that call an opcode are the numbers up to 53 and the mnemonics. -/
theorem exists_calls_iff {name : String} :
    (∃ opcode, Calls name opcode) ↔
      (∃ n, uint64? name.toList = some n ∧ n.toNat ≤ 53) ∨
        (uint64? name.toList = none ∧ ∃ opcode : Opcode, SameLetters name opcode.mnemonic) := by
  constructor
  · rintro ⟨opcode, h⟩
    cases h with
    | @number n hn hcode => exact .inl ⟨n, hn, hcode ▸ opcode.code_le⟩
    | mnemonic h => exact .inr ⟨Opcode.uint64?_of_sameLetters h, opcode, h⟩
  · rintro (⟨n, hn, hle⟩ | ⟨-, opcode, h⟩)
    · cases hread : Opcode.ofCode n.toNat with
      | ok opcode => exact ⟨opcode, .number hn (Opcode.ofCode_eq_ok_iff.mp hread)⟩
      | error e => exact absurd hle (Nat.not_le_of_lt (Opcode.ofCode_eq_error_iff.mp hread).1)
    · exact ⟨opcode, .mnemonic h⟩

/-! ## Operands -/

/-- A word that 64 bits do not hold counts as the greatest number that they hold. -/
theorem operandOfWord_eq (w : Word) : operandOfWord w = min w.toNat (2 ^ 64 - 1) := by
  rw [operandOfWord, Word.toUInt64?_eq]
  by_cases h : w.toNat < 2 ^ 64
  · have hle : w.toNat ≤ 2 ^ 64 - 1 := by omega
    rw [if_pos h, Option.map_some, UInt64.toNat_ofNat_of_lt' h, Option.getD_some,
      Nat.min_eq_left hle]
  · have hge : 2 ^ 64 - 1 ≤ w.toNat := by omega
    rw [if_neg h, Nat.min_eq_right hge]
    rfl

/-- What the encoder is given for the text of an operand. -/
def operandOf : Option String → Except CommandError Nat
  | none => .ok 0
  | some text => (number text).map operandOfWord

/-- Where the encoder is given a number that fits a byte, it is the number of the text. -/
theorem operandOf_eq_ok_iff {operand? : Option String} {n : Nat} (hn : n ≤ 255) :
    operandOf operand? = .ok n ↔ Operand operand? n := by
  have hsmall : ∀ w : Word, operandOfWord w = n ↔ w.toNat = n := by
    intro w
    rw [operandOfWord_eq]
    omega
  cases operand? with
  | none =>
    constructor
    · intro h
      rw [← Except.ok.inj h]
      exact .absent
    · intro h
      cases h
      rfl
  | some text =>
    simp only [operandOf, Except.map_eq_ok_iff, number_eq_ok_iff, hsmall]
    constructor
    · rintro ⟨w, hw, rfl⟩
      exact .given hw
    · intro h
      cases h with
      | @given _ w hw => exact ⟨w, hw, rfl⟩

/-! ## Plans -/

theorem encodeText_eq_ok_iff {name text : String} {operand : Nat} :
    encodeText name operand = .ok text ↔ ∃ opcode, Calls name opcode ∧ operand ≤ 255 ∧
      text = (Source.ofInstructions [⟨opcode, UInt8.ofNat operand⟩]).text := by
  constructor
  · intro h
    obtain ⟨opcode, hopcode, h⟩ := Except.bind_eq_ok_iff.mp h
    obtain ⟨i, hi, htext⟩ := Except.bind_eq_ok_iff.mp h
    obtain ⟨hle, rfl⟩ := Instruction.withOperand_eq_ok_iff.mp hi
    exact ⟨opcode, opcodeOf_eq_ok_iff.mp hopcode, hle, (Except.ok.inj htext).symm⟩
  · rintro ⟨opcode, hcalls, hle, rfl⟩
    have hi := Instruction.withOperand_eq_ok_iff.mpr ⟨hle, (rfl : Instruction.mk opcode _ = _)⟩
    exact Except.bind_eq_ok_iff.mpr ⟨opcode, opcodeOf_eq_ok_iff.mpr hcalls,
      Except.bind_eq_ok_iff.mpr ⟨_, hi, rfl⟩⟩

/-- The report on an encoded instruction. -/
def encodedPlan (i : Instruction) : Plan :=
  .done (.success ((Source.ofInstructions [i]).text ++ "\n") [])

theorem plan?_encode {options : Options} {name : String} {operand? : Option String}
    (h : options.positional = name :: operand?.toList) :
    encode.plan? options = (operandOf operand?).bind (encodePlan name) := by
  cases operand? with
  | none =>
    simp only [plan?, h, Option.toList_none]
    rfl
  | some text =>
    simp only [plan?, h, Option.toList_some, operandOf]
    cases number text <;> rfl

theorem encodes_eq_ok_iff {name : String} {operand? : Option String} {plan : Plan} :
    (operandOf operand?).bind (encodePlan name) = .ok plan ↔ ∃ n opcode, Operand operand? n ∧
      n ≤ 255 ∧ Calls name opcode ∧ plan = encodedPlan ⟨opcode, UInt8.ofNat n⟩ := by
  rw [Except.bind_eq_ok_iff]
  constructor
  · rintro ⟨n, hn, hplan⟩
    obtain ⟨text, htext, rfl⟩ := encodePlan_eq_ok hplan
    obtain ⟨opcode, hcalls, hle, rfl⟩ := encodeText_eq_ok_iff.mp htext
    exact ⟨n, opcode, (operandOf_eq_ok_iff hle).mp hn, hle, hcalls, rfl⟩
  · rintro ⟨n, opcode, hn, hle, hcalls, rfl⟩
    refine ⟨n, (operandOf_eq_ok_iff hle).mpr hn, ?_⟩
    rw [encodePlan, encodeText_eq_ok_iff.mpr ⟨opcode, hcalls, hle, rfl⟩]
    rfl

/-- An opcode may be called by any of its names. -/
theorem encodePlan_congr {name name' : String} {opcode : Opcode} (h : Calls name opcode)
    (h' : Calls name' opcode) : encodePlan name = encodePlan name' := by
  funext operand
  rw [encodePlan, encodePlan, encodeText, encodeText, opcodeOf_eq_ok_iff.mpr h,
    opcodeOf_eq_ok_iff.mpr h']

theorem exists_operand_iff {operand? : Option String} :
    (∃ n ≤ 255, Operand operand? n) ↔
      ∀ text ∈ operand?, ∃ w, Word.parse text = .ok w ∧ w.toNat ≤ 255 := by
  cases operand? with
  | none => exact iff_of_true ⟨0, by decide, .absent⟩ (by simp)
  | some text =>
    constructor
    · rintro ⟨n, hle, h⟩ text ⟨⟩
      cases h with
      | @given _ w hw => exact ⟨w, hw, hle⟩
    · intro h
      obtain ⟨w, hw, hle⟩ := h text rfl
      exact ⟨w.toNat, hle, .given hw⟩

end Command

namespace Outcome

/-- The run has printed four hexadecimal digits that are read as the one instruction. -/
def Shows (o : Outcome) (i : Instruction) : Prop :=
  o.exitCode = 0 ∧ ∃ digits : String, o.output = "0x" ++ digits ++ "\n" ∧ digits.length = 4 ∧
    (∀ c ∈ digits.toList, c ∈ "0123456789abcdef".toList) ∧
    ∃ s, Source.parse ("0x" ++ digits) = .ok s ∧ s.instructions = .ok [i]

/-- The run has failed and printed nothing. -/
def Refuses (o : Outcome) : Prop := o.exitCode = 1 ∧ o.output = ""

end Outcome

namespace Invocation

open Command

variable {inv inv' : Invocation} {name name' : String} {operand? : Option String}

/-- The arguments are the command that encodes, the name of an opcode and at most an operand, with
any options among them. -/
def Encodes (inv : Invocation) (name : String) (operand? : Option String) : Prop :=
  ∃ rest items, inv.arguments = "encode" :: rest ∧ Options.Spells rest items ∧
    items.filterMap Options.Item.text? = name :: operand?.toList

theorem shows_of_plan {i : Instruction} (h : inv.plan = encodedPlan i) (env : Environment)
    (stamp : String) (d : Directory) : (inv.runIn env stamp d).1.Shows i := by
  have hdigits : Text.Written 16 (Hex.digits i.bytes) := Text.written_hex i.bytes
  rw [runIn, h]
  refine ⟨rfl, Hex.text i.bytes, rfl, ?_, ?_, Source.ofInstructions [i], ?_, ?_⟩
  · rw [Hex.text, String.length_ofList, Hex.length_digits]
    rfl
  · rw [Hex.text, String.toList_ofList]
    exact hdigits.forall_mem (by decide)
  · exact Source.parse_text (Source.ofInstructions [i])
  · exact Source.instructions_ofInstructions [i]

theorem refuses_of_plan {cause : CommandError} (h : inv.plan = .done (.ofError cause))
    (env : Environment) (stamp : String) (d : Directory) : (inv.runIn env stamp d).1.Refuses := by
  rw [runIn, h]
  exact ⟨rfl, rfl⟩

/-- What a run does whose command is carried out or refused. -/
def settled : Except CommandError Plan → Plan
  | .ok plan => plan
  | .error cause => .done (.ofError cause)

theorem Encodes.plan_eq (h : inv.Encodes name operand?) :
    inv.plan = settled ((operandOf operand?).bind (encodePlan name)) := by
  obtain ⟨rest, items, harguments, hspells, hpositional⟩ := h
  have hread := Options.read_eq_ok_iff.mpr ⟨items, hspells, rfl⟩
  have hcommand : inv.arguments = Command.encode.word :: rest := harguments
  have hencode : encode.plan? (.ofItems items) = (operandOf operand?).bind (encodePlan name) :=
    plan?_encode hpositional
  rw [← hencode]
  cases hplan : encode.plan? (.ofItems items) with
  | ok plan => exact plan_of_accepted hcommand hread hplan
  | error cause => exact plan_of_refused hcommand hread hplan

/-- Either the texts name an instruction, which is encoded, or the run is refused. -/
theorem Encodes.plan_cases (h : inv.Encodes name operand?) :
    (∃ i : Instruction, Calls name i.opcode ∧ Operand operand? i.operand.toNat ∧
      inv.plan = encodedPlan i) ∨
    (∀ n opcode, n ≤ 255 → Operand operand? n → ¬ Calls name opcode) ∧
      ∃ cause, inv.plan = .done (.ofError cause) := by
  rw [h.plan_eq]
  cases hplan : (operandOf operand?).bind (encodePlan name) with
  | ok plan =>
    obtain ⟨n, opcode, hn, hle, hcalls, rfl⟩ := encodes_eq_ok_iff.mp hplan
    have hbyte : (UInt8.ofNat n).toNat = n := UInt8.toNat_ofNat_of_lt' (Nat.lt_succ_of_le hle)
    exact .inl ⟨⟨opcode, UInt8.ofNat n⟩, hcalls, hbyte.symm ▸ hn, rfl⟩
  | error cause =>
    refine .inr ⟨fun n opcode hle hn hcalls => ?_, cause, rfl⟩
    rw [encodes_eq_ok_iff.mpr ⟨n, opcode, hn, hle, hcalls, rfl⟩] at hplan
    cases hplan

theorem Encodes.exitCode_iff (h : inv.Encodes name operand?) (env : Environment) (stamp : String)
    (d : Directory) : (inv.runIn env stamp d).1.exitCode = 0 ↔
      (∀ text ∈ operand?, ∃ w, Word.parse text = .ok w ∧ w.toNat ≤ 255) ∧
      ((∃ n, Text.uint64? name.toList = some n ∧ n.toNat ≤ 53) ∨
        (Text.uint64? name.toList = none ∧
          ∃ opcode : Opcode, Text.SameLetters name opcode.mnemonic)) := by
  rw [← exists_operand_iff, ← exists_calls_iff]
  rcases h.plan_cases with ⟨i, hcalls, hoperand, hplan⟩ | ⟨hnone, cause, hplan⟩
  · refine iff_of_true (shows_of_plan hplan env stamp d).1 ⟨⟨_, ?_, hoperand⟩, i.opcode, hcalls⟩
    exact Nat.le_of_lt_succ i.operand.toNat_lt
  · refine iff_of_false ?_ ?_
    · rw [(refuses_of_plan hplan env stamp d).1]
      decide
    · rintro ⟨⟨n, hle, hn⟩, opcode, hcalls⟩
      exact hnone n opcode hle hn hcalls

theorem Encodes.refuses (h : inv.Encodes name operand?) {env : Environment} {stamp : String}
    {d : Directory} (hcode : (inv.runIn env stamp d).1.exitCode ≠ 0) :
    (inv.runIn env stamp d).1.Refuses := by
  rcases h.plan_cases with ⟨i, -, -, hplan⟩ | ⟨-, cause, hplan⟩
  · exact absurd (shows_of_plan hplan env stamp d).1 hcode
  · exact refuses_of_plan hplan env stamp d

theorem Encodes.shows (h : inv.Encodes name operand?) {env : Environment} {stamp : String}
    {d : Directory} (hcode : (inv.runIn env stamp d).1.exitCode = 0) :
    ∃ i : Instruction, Calls name i.opcode ∧ Operand operand? i.operand.toNat ∧
      (inv.runIn env stamp d).1.Shows i := by
  rcases h.plan_cases with ⟨i, hcalls, hoperand, hplan⟩ | ⟨-, cause, hplan⟩
  · exact ⟨i, hcalls, hoperand, shows_of_plan hplan env stamp d⟩
  · rw [(refuses_of_plan hplan env stamp d).1] at hcode
    cases hcode

/-- An instruction is encoded if and only if its operand is left out or a word up to 255, and its
name is a number up to 53 or, where it is no number, a mnemonic in letters of either case. Then four
digits are printed that are read back as this opcode with this operand. All else is refused and
prints nothing; no wider operand and no higher number is cut to one that could be encoded. A number
and a mnemonic of one opcode lead to the same run. -/
theorem encode_outcome :
    (∀ (inv : Invocation) name operand? env stamp d, inv.Encodes name operand? →
      ((inv.runIn env stamp d).1.exitCode = 0 ↔
        (∀ text ∈ operand?, ∃ w, Word.parse text = .ok w ∧ w.toNat ≤ 255) ∧
        ((∃ n, Text.uint64? name.toList = some n ∧ n.toNat ≤ 53) ∨
          (Text.uint64? name.toList = none ∧
            ∃ opcode : Opcode, Text.SameLetters name opcode.mnemonic))) ∧
      ((inv.runIn env stamp d).1.exitCode = 0 → ∃ i : Instruction, Calls name i.opcode ∧
        Operand operand? i.operand.toNat ∧ (inv.runIn env stamp d).1.Shows i) ∧
      ((inv.runIn env stamp d).1.exitCode ≠ 0 → (inv.runIn env stamp d).1.Refuses)) ∧
    (∀ (inv : Invocation) name text w env stamp d, inv.Encodes name (some text) →
      Word.parse text = .ok w → 256 ≤ w.toNat → (inv.runIn env stamp d).1.Refuses) ∧
    (∀ (inv : Invocation) name operand? n env stamp d, inv.Encodes name operand? →
      Text.uint64? name.toList = some n → 53 < n.toNat → (inv.runIn env stamp d).1.Refuses) ∧
    ∀ (inv inv' : Invocation) name name' operand? (opcode : Opcode) n env stamp d,
      inv.Encodes name operand? → inv'.Encodes name' operand? →
      Text.uint64? name.toList = some n → opcode.code.toNat = n.toNat →
      Text.SameLetters name' opcode.mnemonic →
      inv.runIn env stamp d = inv'.runIn env stamp d := by
  refine ⟨?_, ?_, ?_, ?_⟩
  · intro inv name operand? env stamp d h
    exact ⟨h.exitCode_iff env stamp d, h.shows, h.refuses⟩
  · intro inv name text w env stamp d h hw hwide
    refine h.refuses fun hcode => ?_
    obtain ⟨v, hv, hle⟩ := ((h.exitCode_iff env stamp d).mp hcode).1 text rfl
    obtain rfl := Except.ok.inj (hw.symm.trans hv)
    omega
  · intro inv name operand? n env stamp d h hn hhigh
    refine h.refuses fun hcode => ?_
    rcases ((h.exitCode_iff env stamp d).mp hcode).2 with ⟨m, hm, hle⟩ | ⟨hnone, -⟩
    · obtain rfl := Option.some.inj (hn.symm.trans hm)
      omega
    · rw [hn] at hnone
      cases hnone
  · intro inv inv' name name' operand? opcode n env stamp d h h' hn hcode hname
    rw [runIn, runIn, h.plan_eq, h'.plan_eq,
      encodePlan_congr (.number hn hcode) (.mnemonic hname)]

/-- Options stand among the arguments; an operand that a byte would cut to zero is refused, and so
is a number that a byte would cut to one of an opcode. -/
theorem encode_outcome_refused :
    let numbered : Invocation := ⟨"salegate", ["encode", "+32", "-o", "f", "0xFF"]⟩
    let named : Invocation := ⟨"salegate", ["encode", "eVeRy", "0xFF"]⟩
    let wide : Invocation := ⟨"salegate", ["encode", "VAL", "256"]⟩
    let high : Invocation := ⟨"salegate", ["encode", "257"]⟩
    numbered.Encodes "+32" (some "0xFF") ∧ named.Encodes "eVeRy" (some "0xFF") ∧
      Text.uint64? "+32".toList = some 32 ∧ Text.SameLetters "eVeRy" Opcode.every.mnemonic ∧
      wide.Encodes "VAL" (some "256") ∧ high.Encodes "257" none ∧
      ∀ env stamp d, numbered.runIn env stamp d = named.runIn env stamp d ∧
        (∃ i : Instruction, Calls "eVeRy" i.opcode ∧ Operand (some "0xFF") i.operand.toNat ∧
          (named.runIn env stamp d).1.Shows i) ∧
        (wide.runIn env stamp d).1.Refuses ∧ (high.runIn env stamp d).1.Refuses := by
  intro numbered named wide high
  have hnumbered : numbered.Encodes "+32" (some "0xFF") :=
    ⟨_, [.positional "+32", .output "-o" "f", .positional "0xFF"], rfl,
      ⟨rfl, by simp [Options.Item.Proper]⟩, rfl⟩
  have hnamed : named.Encodes "eVeRy" (some "0xFF") :=
    ⟨_, [.positional "eVeRy", .positional "0xFF"], rfl, ⟨rfl, by simp [Options.Item.Proper]⟩, rfl⟩
  have hwide : wide.Encodes "VAL" (some "256") :=
    ⟨_, [.positional "VAL", .positional "256"], rfl, ⟨rfl, by simp [Options.Item.Proper]⟩, rfl⟩
  have hhigh : high.Encodes "257" none :=
    ⟨_, [.positional "257"], rfl, ⟨rfl, by simp [Options.Item.Proper]⟩, rfl⟩
  have hnumber : Text.uint64? "+32".toList = some 32 := by decide
  have hletters : Text.SameLetters "eVeRy" Opcode.every.mnemonic := by decide +kernel
  have hnone : Text.uint64? "eVeRy".toList = none := by decide
  have hoperand : Word.parse "0xFF" = .ok (.ofNat 255) := by decide +kernel
  obtain ⟨hone, hoperands, hnumbers, hnames⟩ := encode_outcome
  refine ⟨hnumbered, hnamed, hnumber, hletters, hwide, hhigh, fun env stamp d => ⟨?_, ?_, ?_, ?_⟩⟩
  · exact hnames _ _ _ _ _ .every 32 env stamp d hnumbered hnamed hnumber rfl hletters
  · obtain ⟨hexit, hshows, -⟩ := hone named _ _ env stamp d hnamed
    refine hshows (hexit.mpr ⟨?_, .inr ⟨hnone, .every, hletters⟩⟩)
    rintro text ⟨⟩
    exact ⟨_, hoperand, by decide +kernel⟩
  · exact hoperands wide "VAL" "256" (.ofNat 256) env stamp d hwide (by decide +kernel)
      (by decide +kernel)
  · exact hnumbers high "257" none 257 env stamp d hhigh (by decide) (by decide)

end Invocation

end SaleRules
