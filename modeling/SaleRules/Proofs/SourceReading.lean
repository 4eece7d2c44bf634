import SaleRules.Proofs.Outcomes
import SaleRules.Proofs.Recognition

/-!
# Sources and the instructions in them

Packing loses nothing: the instructions of a packed list are that list, and a byte string that holds
instructions is what they are packed into. A byte string holds none if its length is odd, or else if
a byte in the place of an opcode is no opcode; of these the first is reported.
-/
namespace SaleRules

namespace Opcode

theorem code_le (opcode : Opcode) : opcode.code.toNat ≤ 53 := by
  cases opcode <;> decide

theorem ofCode_eq_ok_iff {code : Nat} {opcode : Opcode} :
    ofCode code = .ok opcode ↔ opcode.code.toNat = code := by
  have hcodes : ∀ i : Fin all.length, all[i].code.toNat = i := by decide
  constructor
  · intro h
    rw [ofCode] at h
    split at h
    · next found hfound =>
      obtain ⟨hlt, rfl⟩ := List.getElem?_eq_some_iff.mp hfound
      rw [← Except.ok.inj h]
      exact hcodes ⟨code, hlt⟩
    · cases h
  · rintro rfl
    exact ofCode_code opcode

theorem ofCode_eq_error_iff {code : Nat} {e : EncodingError} :
    ofCode code = .error e ↔ 53 < code ∧ e = .unknownCode code := by
  rw [ofCode]
  constructor
  · intro h
    split at h
    · cases h
    · next hnone => exact ⟨List.getElem?_eq_none_iff.mp hnone, (Except.error.inj h).symm⟩
  · intro hx
    obtain ⟨hlt, rfl⟩ := hx
    have hnone : all[code]? = none := List.getElem?_eq_none hlt
    rw [hnone]

/-- The bytes that stand for opcodes are those up to 53. -/
theorem exists_code_iff {b : UInt8} : (∃ opcode : Opcode, opcode.code = b) ↔ b.toNat ≤ 53 := by
  constructor
  · intro hx
    obtain ⟨opcode, rfl⟩ := hx
    exact opcode.code_le
  · intro h
    cases hread : ofCode b.toNat with
    | ok opcode => exact ⟨opcode, UInt8.toNat_inj.mp (ofCode_eq_ok_iff.mp hread)⟩
    | error e => exact absurd h (Nat.not_le_of_lt (ofCode_eq_error_iff.mp hread).1)

end Opcode

namespace Instruction

variable {code operand : UInt8}

theorem ofBytes_eq_ok_iff {i : Instruction} :
    ofBytes code operand = .ok i ↔ i.opcode.code = code ∧ i.operand = operand := by
  rw [ofBytes, Except.map_eq_ok_iff]
  constructor
  · intro hx
    obtain ⟨opcode, hread, rfl⟩ := hx
    exact ⟨UInt8.toNat_inj.mp (Opcode.ofCode_eq_ok_iff.mp hread), rfl⟩
  · intro hx
    obtain ⟨rfl, rfl⟩ := hx
    exact ⟨i.opcode, Opcode.ofCode_code i.opcode, rfl⟩

theorem ofBytes_eq_error_iff {e : EncodingError} :
    ofBytes code operand = .error e ↔ 53 < code.toNat ∧ e = .unknownCode code.toNat := by
  rw [ofBytes, Except.map_eq_error_iff, Opcode.ofCode_eq_error_iff]

end Instruction

namespace Source

/-- Every byte in the place of an opcode is one. -/
def AllKnown (bs : Bytes) : Prop := ∀ (k : Nat) (b : UInt8), bs[2 * k]? = some b → b.toNat ≤ 53

/-- The first byte in the place of an opcode that is none. -/
def FirstUnknown (bs : Bytes) (code : UInt8) : Prop :=
  ∃ k, bs[2 * k]? = some code ∧ 53 < code.toNat ∧
    ∀ j < k, ∀ b, bs[2 * j]? = some b → b.toNat ≤ 53

/-- Why a source holds no instructions. -/
inductive Unreadable (s : Source) : SourceError → Prop where
  | truncated (odd : s.bytes.length % 2 = 1) : Unreadable s (.truncated s.bytes.length)
  | unknown (code : UInt8) (even : s.bytes.length % 2 = 0) (first : FirstUnknown s.bytes code) :
      Unreadable s (.encoding (.unknownCode code.toNat))

/-! ## Places of opcodes -/

theorem firstUnknown_of_lt {code : UInt8} (h : 53 < code.toNat) (operand : UInt8) (rest : Bytes)
    {found : UInt8} : FirstUnknown (code :: operand :: rest) found ↔ found = code := by
  constructor
  · intro hx
    obtain ⟨k, hfound, -, hfirst⟩ := hx
    cases k with
    | zero => exact (Option.some.inj hfound).symm
    | succ k =>
      have hle := hfirst 0 (Nat.succ_pos k) code rfl
      omega
  · rintro rfl
    exact ⟨0, rfl, h, by simp⟩

theorem firstUnknown_of_le {code : UInt8} (h : code.toNat ≤ 53) (operand : UInt8) (rest : Bytes)
    {found : UInt8} :
    FirstUnknown (code :: operand :: rest) found ↔ FirstUnknown rest found := by
  constructor
  · intro hx
    obtain ⟨k, hfound, hlt, hfirst⟩ := hx
    cases k with
    | zero =>
      rw [← Option.some.inj hfound] at hlt
      omega
    | succ k => exact ⟨k, hfound, hlt, fun j hj => hfirst (j + 1) (Nat.succ_lt_succ hj)⟩
  · intro hx
    obtain ⟨k, hfound, hlt, hfirst⟩ := hx
    refine ⟨k + 1, hfound, hlt, fun j hj b hb => ?_⟩
    cases j with
    | zero => exact Option.some.inj hb ▸ h
    | succ j => exact hfirst j (Nat.lt_of_succ_lt_succ hj) b hb

theorem getElem?_ofInstructions (is : List Instruction) (k : Nat) :
    (ofInstructions is).bytes[2 * k]? = is[k]?.map (·.opcode.code) := by
  induction is generalizing k with
  | nil => rfl
  | cons i is ih =>
    cases k with
    | zero => rfl
    | succ k => exact ih k

theorem allKnown_ofInstructions (is : List Instruction) : AllKnown (ofInstructions is).bytes := by
  intro k b hb
  rw [getElem?_ofInstructions] at hb
  obtain ⟨i, -, rfl⟩ := Option.map_eq_some_iff.mp hb
  exact i.opcode.code_le

/-! ## Reading -/

theorem eq_nil_of_short {bs : Bytes} (heven : bs.length % 2 = 0)
    (hshort : ∀ code operand rest, bs = code :: operand :: rest → False) : bs = [] := by
  cases bs with
  | nil => rfl
  | cons code bs =>
    cases bs with
    | nil => simp at heven
    | cons operand rest => exact (hshort code operand rest rfl).elim

theorem even_of_pair {code operand : UInt8} {rest : Bytes}
    (heven : (code :: operand :: rest).length % 2 = 0) : rest.length % 2 = 0 := by
  simp only [List.length_cons] at heven
  omega

theorem readPairs_eq_ok_iff {bs : Bytes} (heven : bs.length % 2 = 0) {is : List Instruction} :
    readPairs bs = .ok is ↔ (ofInstructions is).bytes = bs := by
  constructor
  · intro h
    fun_induction readPairs bs generalizing is with
    | case1 code operand rest i hread ih =>
      obtain ⟨js, hjs, rfl⟩ := Except.map_eq_ok_iff.mp h
      obtain ⟨rfl, rfl⟩ := Instruction.ofBytes_eq_ok_iff.mp hread
      rw [bytes_ofInstructions_cons, ih (even_of_pair heven) hjs]
    | case2 => cases h
    | case3 bs hshort =>
      rw [eq_nil_of_short heven hshort, ← Except.ok.inj h, bytes_ofInstructions_nil]
  · rintro rfl
    exact readPairs_ofInstructions is

theorem readPairs_eq_error_iff {bs : Bytes} (heven : bs.length % 2 = 0) {e : EncodingError} :
    readPairs bs = .error e ↔ ∃ code, FirstUnknown bs code ∧ e = .unknownCode code.toNat := by
  fun_induction readPairs bs with
  | case1 code operand rest i hread ih =>
    have hle : code.toNat ≤ 53 := Nat.le_of_not_lt fun hlt => by
      rw [Instruction.ofBytes_eq_error_iff.mpr ⟨hlt, rfl⟩] at hread
      cases hread
    simp only [Except.map_eq_error_iff, ih (even_of_pair heven), firstUnknown_of_le hle]
  | case2 code operand rest cause hread =>
    obtain ⟨hlt, rfl⟩ := Instruction.ofBytes_eq_error_iff.mp hread
    simp only [firstUnknown_of_lt hlt, exists_eq_left, Except.error.injEq]
    exact eq_comm
  | case3 bs hshort =>
    obtain rfl := eq_nil_of_short heven hshort
    simp [FirstUnknown]

theorem instructions_of_odd {s : Source} (h : s.bytes.length % 2 = 1) :
    s.instructions = .error (.truncated s.bytes.length) := by
  have hodd : s.bytes.length % Layout.current.width ≠ 0 := by
    change s.bytes.length % 2 ≠ 0
    omega
  rw [instructions, if_pos hodd]

theorem instructions_of_even {s : Source} (h : s.bytes.length % 2 = 0) :
    s.instructions = (readPairs s.bytes).mapError .encoding := by
  have heven : ¬ s.bytes.length % Layout.current.width ≠ 0 := not_not_intro h
  rw [instructions, if_neg heven]

theorem even_or_odd (s : Source) : s.bytes.length % 2 = 0 ∨ s.bytes.length % 2 = 1 :=
  Nat.mod_two_eq_zero_or_one _

theorem instructions_eq_ok_iff {s : Source} {is : List Instruction} :
    s.instructions = .ok is ↔ ofInstructions is = s := by
  constructor
  · intro h
    rcases s.even_or_odd with heven | hodd
    · rw [instructions_of_even heven, Except.mapError_eq_ok_iff] at h
      exact congrArg Source.mk ((readPairs_eq_ok_iff heven).mp h)
    · rw [instructions_of_odd hodd] at h
      cases h
  · intro h
    rw [← h, instructions_ofInstructions]

theorem instructions_eq_error_iff {s : Source} {e : SourceError} :
    s.instructions = .error e ↔ s.Unreadable e := by
  constructor
  · intro h
    rcases s.even_or_odd with heven | hodd
    · rw [instructions_of_even heven, Except.mapError_eq_error_iff] at h
      obtain ⟨cause, hread, rfl⟩ := h
      obtain ⟨code, hfirst, rfl⟩ := (readPairs_eq_error_iff heven).mp hread
      exact .unknown code heven hfirst
    · rw [instructions_of_odd hodd] at h
      exact Except.error.inj h ▸ .truncated hodd
  · intro h
    cases h with
    | truncated hodd => exact instructions_of_odd hodd
    | unknown code heven hfirst =>
      rw [instructions_of_even heven, Except.mapError_eq_error_iff]
      exact ⟨_, (readPairs_eq_error_iff heven).mpr ⟨code, hfirst, rfl⟩, rfl⟩

/-- What holds instructions has an even length and an opcode in each place of one. -/
theorem readable_iff {s : Source} :
    (∃ is, s.instructions = .ok is) ↔ s.bytes.length % 2 = 0 ∧ AllKnown s.bytes := by
  constructor
  · intro hx
    obtain ⟨is, his⟩ := hx
    rw [instructions_eq_ok_iff] at his
    rw [← his, length_ofInstructions]
    exact ⟨Nat.mul_mod_right 2 is.length, allKnown_ofInstructions is⟩
  · intro hx
    obtain ⟨heven, hknown⟩ := hx
    cases hread : s.instructions with
    | ok is => exact ⟨is, rfl⟩
    | error e =>
      cases instructions_eq_error_iff.mp hread with
      | truncated hodd => omega
      | unknown code _ hfirst =>
        obtain ⟨k, hcode, hlt, -⟩ := hfirst
        exact absurd (hknown k code hcode) (Nat.not_le_of_lt hlt)

theorem message_truncated (length : Nat) : (SourceError.truncated length).message =
    "source length " ++ Text.decimal length ++ " is not a multiple of instruction width 2" := by
  have hwidth : Text.decimal Layout.current.width = "2" := rfl
  have hjoin : " is not a multiple of instruction width " ++ "2" =
      " is not a multiple of instruction width 2" := by decide
  change "source length " ++ Text.decimal length ++ " is not a multiple of instruction width " ++
    Text.decimal Layout.current.width = _
  rw [hwidth, String.append_assoc, hjoin]

/-- Packing and reading undo each other: a packed list is read as it was, and a source that is read
is what its instructions are packed into. It is read if its length is even and every byte in the
place of an opcode is one, which are the bytes up to 53. Otherwise an odd length is reported, also
where an opcode is unknown, and after it the first unknown opcode. -/
theorem instructions_outcome :
    (∀ is, (ofInstructions is).instructions = .ok is) ∧
    (∀ (s : Source) is, s.instructions = .ok is ↔ ofInstructions is = s) ∧
    (∀ s : Source, (∃ is, s.instructions = .ok is) ↔
      s.bytes.length % 2 = 0 ∧ AllKnown s.bytes) ∧
    (∀ (s : Source) e, s.instructions = .error e ↔ s.Unreadable e) ∧
    (∀ b : UInt8, (∃ opcode : Opcode, opcode.code = b) ↔ b.toNat ≤ 53) ∧
    ∀ length, (SourceError.truncated length).message =
      "source length " ++ Text.decimal length ++ " is not a multiple of instruction width 2" := by
  exact ⟨instructions_ofInstructions, fun s is => instructions_eq_ok_iff, fun s => readable_iff,
    fun s e => instructions_eq_error_iff, fun b => Opcode.exists_code_iff, message_truncated⟩

end Source

end SaleRules
