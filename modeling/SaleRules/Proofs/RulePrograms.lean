import SaleRules.Proofs.BlobFraming
import SaleRules.Proofs.Recognition
import SaleRules.Rule

/-!
# The programs of the rules

Every rule is packed, whatever its parameters are, and they go into the table of constants only. The
rules about times are the two shapes that are recognised today, so their parameters can be read off
the config, and off what is read back from its blob; a rule about blocks is no shape.
-/
namespace SaleRules

/-- The shape of a config, if it is one, and the parameters that can be read off it. -/
structure StateConfig.Shows (c : StateConfig) (shape : Option Fingerprint)
    (parameters : List Word) : Prop where
  shape : c.fingerprint? = shape
  parameters : ∀ index, c.parameter? index = parameters[index]?

namespace Rule

/-! ## Packing -/

/-- The instructions of a rule; those of a rule about times are the ones of its shape. -/
def instructions : Rule → List Instruction
  | afterBlock _ => [.bare .blockNumber, ⟨.val, 0⟩, .bare .greaterThan]
  | afterTime _ => Fingerprint.afterTime.instructions
  | raiseOrGrace .. => Fingerprint.raiseOrGrace.instructions

def constants : Rule → List Word
  | afterBlock block => [block.wrappingSub (.ofNat 1)]
  | afterTime timestamp => [timestamp]
  | raiseOrGrace finish extra amount => [finish, extra, amount]

/-- The slots that the program of a rule uses. -/
def peak : Rule → Nat
  | raiseOrGrace .. => 3
  | _ => 2

def program (r : Rule) : Program := ⟨r.instructions, r.constants⟩

theorem runAll_steps (r : Rule) : Program.empty.runAll r.steps = .ok r.program := by
  cases r <;> rfl

theorem afterAll_instructions (r : Rule) :
    Heights.start.afterAll 0 r.instructions = .ok ⟨1, r.peak⟩ := by
  cases r <;> rfl

theorem notDangling (r : Rule) : ∀ i ∈ r.instructions, ¬ i.Dangles r.constants.length := by
  cases r <;>
    simp [instructions, Fingerprint.instructions, constants, Instruction.Dangles, Instruction.bare]

theorem peak_le (r : Rule) : r.peak ≤ r.stackLength.toNat := by
  cases r with
  | afterBlock | afterTime => exact show 2 ≤ simpleStackLength.toNat by decide
  | raiseOrGrace => exact show 3 ≤ raiseOrGraceStackLength.toNat by decide

def packed (r : Rule) : StateConfig :=
  ⟨[Source.ofInstructions r.instructions], r.constants, r.stackLength, 0⟩

theorem config_eq (r : Rule) : r.config = .ok r.packed := by
  have hfinish : r.program.finish r.stackLength = .ok r.packed := by
    rw [Program.finish_of_heights r.notDangling r.afterAll_instructions]
    exact if_neg (Nat.not_lt.mpr r.peak_le)
  rw [config, runAll_steps]
  exact hfinish

/-! ## What is read off and read back -/

theorem packed_readable (r : Rule) : Schema.config.Readable r.packed := by
  have hinstructions : r.instructions.length ≤ 11 := by
    cases r <;> simp [instructions, Fingerprint.instructions]
  have hconstants : r.constants.length ≤ 3 := by
    cases r <;> simp [constants]
  have hbytes := Source.length_ofInstructions r.instructions
  refine ⟨show 1 ≤ Reader.maxLength by decide, List.forall_mem_singleton.mpr ?_, ?_⟩
  · exact Nat.le_trans (by omega) (show 22 ≤ Reader.maxLength by decide)
  · exact Nat.le_trans hconstants (by decide)

theorem packed_stored (r : Rule) : Blob.toConfig (Blob.ofConfig r.packed) = .ok r.packed :=
  Blob.toConfig_eq_ok_iff.mpr ⟨rfl, r.packed_readable⟩

theorem packed_shows {r : Rule} {f : Fingerprint} (h : r.instructions = f.instructions) :
    r.packed.Shows (some f) r.constants := by
  have hshape : r.packed.fingerprint? = some f := Fingerprint.ofSource?_ofInstructions.mpr h
  exact ⟨hshape, fun index => StateConfig.parameter?_of_some hshape index⟩

theorem packed_shows_nothing (block : Word) : (afterBlock block).packed.Shows none [] := by
  have hshape : (afterBlock block).packed.fingerprint? = none := rfl
  exact ⟨hshape, fun index => StateConfig.parameter?_of_none hshape index⟩

/-- Each rule is packed for all parameters, with one source for all of them, and stored configs are
read back as they were. The rules about times show their parameters in order and nothing behind
them; a rule about blocks shows nothing. -/
theorem config_recognised :
    (∃ entry, ∀ block, ∃ c, (afterBlock block).config = .ok c ∧ c.sources = [entry] ∧
      Blob.toConfig (Blob.ofConfig c) = .ok c ∧ c.Shows none []) ∧
    (∃ entry, ∀ timestamp, ∃ c, (afterTime timestamp).config = .ok c ∧ c.sources = [entry] ∧
      Blob.toConfig (Blob.ofConfig c) = .ok c ∧ c.Shows (some .afterTime) [timestamp]) ∧
    ∃ entry, ∀ finish extra amount, ∃ c, (raiseOrGrace finish extra amount).config = .ok c ∧
      c.sources = [entry] ∧ Blob.toConfig (Blob.ofConfig c) = .ok c ∧
        c.Shows (some .raiseOrGrace) [finish, extra, amount] := by
  refine ⟨⟨⟨[0x05, 0x00, 0x01, 0x00, 0x1F, 0x00]⟩, ?_⟩, ⟨⟨Fingerprint.afterTime.bytes⟩, ?_⟩,
    ⟨⟨Fingerprint.raiseOrGrace.bytes⟩, ?_⟩⟩
  · intro block
    exact ⟨_, config_eq _, rfl, packed_stored _, packed_shows_nothing block⟩
  · intro timestamp
    exact ⟨_, config_eq _, rfl, packed_stored _, packed_shows rfl⟩
  · intro finish extra amount
    exact ⟨_, config_eq _, rfl, packed_stored _, packed_shows rfl⟩

end Rule

end SaleRules
