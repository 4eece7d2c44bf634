import SaleRules.Fingerprint
import SaleRules.Proofs.Outcomes
import SaleRules.Proofs.ProgramAcceptance

/-!
# What a recognised program holds

A program is recognised by its bytes, and its bytes are those of its instructions. So of a program
that was packed here the shape tells every instruction, and what packing checks of the instructions
holds of the shape: the parameters are there, the stack is high enough, and the shape under the
earlier numbering, whose last instruction is another one today, does not occur.
-/
namespace SaleRules

theorem Source.ofInstructions_inj {is js : List Instruction} :
    Source.ofInstructions is = Source.ofInstructions js ↔ is = js :=
  ⟨fun h => Except.injective_of_read instructions_ofInstructions h, congrArg Source.ofInstructions⟩

namespace Fingerprint

/-- The instructions that the bytes of a shape stand for under the present numbering. -/
def instructions : Fingerprint → List Instruction
  | afterTime => [.bare .blockTimestamp, ⟨.val, 0⟩, .bare .greaterThan]
  | raiseOrGrace =>
    [.bare .blockTimestamp, ⟨.val, 0⟩, .bare .greaterThan,
     .bare .totalReserveIn, ⟨.val, 2⟩, .bare .lessThan, ⟨.every, 2⟩,
     .bare .blockTimestamp, ⟨.val, 1⟩, .bare .greaterThan, ⟨.any, 2⟩]
  | legacyAfterTime => [.bare .blockNumber, ⟨.val, 0⟩, .bare .scale18]

theorem ofInstructions_instructions (f : Fingerprint) :
    Source.ofInstructions f.instructions = ⟨f.bytes⟩ := by
  cases f <;> rfl

theorem ofSource?_eq_some_iff {s : Source} {f : Fingerprint} :
    ofSource? s = some f ↔ s.bytes = f.bytes := by
  constructor
  · exact ofSource?_eq_some
  · intro h
    rw [ofSource?, h]
    cases f <;> rfl

theorem ofSource?_ofInstructions {is : List Instruction} {f : Fingerprint} :
    ofSource? (Source.ofInstructions is) = some f ↔ is = f.instructions := by
  rw [ofSource?_eq_some_iff, ← Source.ofInstructions_inj, ofInstructions_instructions]
  exact ⟨congrArg Source.mk, congrArg Source.bytes⟩

end Fingerprint

namespace StateConfig

variable {c : StateConfig}

theorem parameter?_of_some {f : Fingerprint} (h : c.fingerprint? = some f) (index : Nat) :
    c.parameter? index = c.constants[index]? := by
  rw [parameter?, h]
  rfl

theorem parameter?_of_lt {f : Fingerprint} (h : c.fingerprint? = some f) {index : Nat}
    (hlt : index < c.constants.length) : ∃ w, c.parameter? index = some w := by
  rw [parameter?_of_some h]
  exact ⟨_, List.getElem?_eq_getElem hlt⟩

theorem parameter?_of_none (h : c.fingerprint? = none) (index : Nat) :
    c.parameter? index = none := by
  rw [parameter?, h]
  rfl

end StateConfig

namespace Program

/-- The program that a shape stands for is acceptable over the constants of a recognised config. -/
theorem acceptable_of_recognised {p : Program} {stackLength : UInt32} {c : StateConfig}
    (h : p.finish stackLength = .ok c) {f : Fingerprint} (hshape : c.fingerprint? = some f) :
    Acceptable ⟨f.instructions, c.constants⟩ c.stackLength := by
  obtain ⟨hp, rfl⟩ := finish_eq_ok_iff.mp h
  have hinstructions := Fingerprint.ofSource?_ofInstructions.mp hshape
  rwa [← hinstructions]

/-- A packed program is never taken for one of the earlier numbering. If it is recognised, the
constants that its instructions refer to are there, and so are the slots that they use. -/
theorem finish_recognised (steps : List Step) (stackLength : UInt32) (c : StateConfig)
    (h : (empty.run steps).finish stackLength = .ok c) :
    c.fingerprint? ≠ some .legacyAfterTime ∧
    (c.fingerprint? = some .afterTime →
      (∃ w, c.parameter? 0 = some w) ∧ 2 ≤ c.stackLength.toNat) ∧
    (c.fingerprint? = some .raiseOrGrace →
      (∀ index < 3, ∃ w, c.parameter? index = some w) ∧ 3 ≤ c.stackLength.toNat) := by
  refine ⟨?_, ?_, ?_⟩
  · intro hshape
    have hp := acceptable_of_recognised h hshape
    exact hp.known (.bare .scale18) (by simp [Fingerprint.instructions]) rfl
  · intro hshape
    have hp := acceptable_of_recognised h hshape
    have hreference : 0 < c.constants.length :=
      hp.references ⟨.val, 0⟩ (by simp [Fingerprint.instructions]) rfl
    have hpeak := hp.declared [.bare .blockTimestamp, ⟨.val, 0⟩] ⟨_, rfl⟩
    exact ⟨StateConfig.parameter?_of_lt hshape hreference, Int.ofNat_le.mp hpeak⟩
  · intro hshape
    have hp := acceptable_of_recognised h hshape
    have hreference : 2 < c.constants.length :=
      hp.references ⟨.val, 2⟩ (by simp [Fingerprint.instructions]) rfl
    -- the stack is highest where the second comparison has both its operands above the first
    have hpeak := hp.declared [.bare .blockTimestamp, ⟨.val, 0⟩, .bare .greaterThan,
      .bare .totalReserveIn, ⟨.val, 2⟩] ⟨_, rfl⟩
    refine ⟨fun index hindex => ?_, Int.ofNat_le.mp hpeak⟩
    exact StateConfig.parameter?_of_lt hshape (by omega)

/-- The raise-or-grace program put together in another way, from a table with a constant to spare;
one of the steps fails. -/
theorem finish_recognised_pieces :
    let front : Source := ⟨Fingerprint.raiseOrGrace.bytes.take 8⟩
    let back : Source := ⟨Fingerprint.raiseOrGrace.bytes.drop 10⟩
    let steps : List Step := [.append front, .emitWith .every 256, .reference 2, .append back,
      .reserve [Word.zero, Word.max, Word.zero, Word.max]]
    let c : StateConfig := ⟨[⟨Fingerprint.raiseOrGrace.bytes⟩],
      [Word.zero, Word.max, Word.zero, Word.max], 3, 0⟩
    (empty.run steps).finish 3 = .ok c ∧ c.fingerprint? = some .raiseOrGrace ∧
      (∀ index < 3, ∃ w, c.parameter? index = some w) ∧ 3 ≤ c.stackLength.toNat := by
  intro front back steps c
  have h : (empty.run steps).finish 3 = .ok c := by decide
  have hshape : c.fingerprint? = some .raiseOrGrace := by decide
  exact ⟨h, hshape, (finish_recognised steps 3 c h).2.2 hshape⟩

end Program

end SaleRules
