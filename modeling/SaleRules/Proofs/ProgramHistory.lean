import SaleRules.Proofs.Outcomes
import SaleRules.Proofs.ProgramAcceptance

/-!
# What a run leaves in a program

A step that succeeds adds instructions and constants behind those that are there, and nothing else
ever touches them. The program after a run is therefore what its successful steps added, in their
order, and a position handed out early still holds its constant at the end.
-/
namespace SaleRules

namespace Step

/-- The step succeeds in a program with `count` constants. -/
def Succeeds (count : Nat) : Step → Prop
  | emit _ => True
  | emitWith _ operand => operand ≤ 255
  | constant _ => count ≤ 255
  | reference index => index ≤ 255
  | reserve _ => True
  | append fragment => ∃ is, fragment.instructions = .ok is

/-- What the step emits if it succeeds in a program with `count` constants. -/
def emitted (count : Nat) : Step → List Instruction
  | emit opcode => [⟨opcode, 0⟩]
  | emitWith opcode operand => [⟨opcode, UInt8.ofNat operand⟩]
  | constant _ => [⟨.val, UInt8.ofNat count⟩]
  | reference index => [⟨.val, UInt8.ofNat index⟩]
  | reserve _ => []
  | append fragment => fragment.instructions.toOption.getD []

/-- The constants that the step adds if it succeeds. -/
def added : Step → List Word
  | constant value => [value]
  | reserve values => values
  | _ => []

end Step

theorem Instruction.withOperand_eq_ok_iff {opcode : Opcode} {operand : Nat} {i : Instruction} :
    withOperand opcode operand = .ok i ↔ operand ≤ 255 ∧ i = ⟨opcode, UInt8.ofNat operand⟩ := by
  have hmax : Layout.current.maxOperand = 255 := rfl
  rw [withOperand, hmax]
  constructor
  · intro h
    split at h
    · next hle => exact ⟨hle, (Except.ok.inj h).symm⟩
    · cases h
  · intro hx
    obtain ⟨hle, rfl⟩ := hx
    exact if_pos hle

theorem Instruction.withOperand_eq_error_iff {opcode : Opcode} {operand : Nat} {e : EncodingError} :
    withOperand opcode operand = .error e ↔ 255 < operand ∧ e = .operandTooWide opcode operand := by
  have hmax : Layout.current.maxOperand = 255 := rfl
  rw [withOperand, hmax]
  constructor
  · intro h
    split at h
    · cases h
    · next hlt => exact ⟨Nat.not_le.mp hlt, (Except.error.inj h).symm⟩
  · intro hx
    obtain ⟨hlt, rfl⟩ := hx
    exact if_neg (Nat.not_le.mpr hlt)

namespace Program

variable {p q : Program}

/-- The program with what a step adds to it. -/
def extend (p : Program) (s : Step) : Program :=
  ⟨p.instructions ++ s.emitted p.constants.length, p.constants ++ s.added⟩

theorem emitWith_eq_ok_iff {opcode : Opcode} {operand : Nat} :
    p.emitWith opcode operand = .ok q ↔
      operand ≤ 255 ∧ q = p.emit ⟨opcode, UInt8.ofNat operand⟩ := by
  simp only [emitWith, Except.map_eq_ok_iff, Instruction.withOperand_eq_ok_iff]
  constructor
  · intro hx
    obtain ⟨i, ⟨hle, rfl⟩, rfl⟩ := hx
    exact ⟨hle, rfl⟩
  · intro hx
    obtain ⟨hle, rfl⟩ := hx
    exact ⟨_, ⟨hle, rfl⟩, rfl⟩

/-- All that a step can do. -/
theorem step_eq_ok_iff {s : Step} :
    p.step s = .ok q ↔ s.Succeeds p.constants.length ∧ q = p.extend s := by
  cases s with
  | emit opcode =>
    simp only [step, emit, Instruction.bare, Except.ok.injEq, Step.Succeeds, true_and, extend,
      Step.emitted, Step.added, List.append_nil]
    exact eq_comm
  | emitWith opcode operand =>
    simp only [step, Except.mapError_eq_ok_iff, emitWith_eq_ok_iff, emit, Step.Succeeds, extend,
      Step.emitted, Step.added, List.append_nil]
  | constant value =>
    simp only [step, Except.mapError_eq_ok_iff, constant, Except.map_eq_ok_iff, emitWith_eq_ok_iff]
    constructor
    · intro hx
      obtain ⟨_, ⟨hle, rfl⟩, rfl⟩ := hx
      exact ⟨hle, rfl⟩
    · intro hx
      obtain ⟨hle, rfl⟩ := hx
      exact ⟨_, ⟨hle, rfl⟩, rfl⟩
  | reference index =>
    simp only [step, Except.mapError_eq_ok_iff, reference, emitWith_eq_ok_iff, emit, Step.Succeeds,
      extend, Step.emitted, Step.added, List.append_nil]
  | reserve values =>
    simp only [step, reserve, Except.ok.injEq, Step.Succeeds, true_and, extend, Step.emitted,
      Step.added, List.append_nil]
    exact eq_comm
  | append fragment =>
    simp only [step, Except.mapError_eq_ok_iff, append, Except.map_eq_ok_iff, Step.Succeeds, extend,
      Step.emitted, Step.added, List.append_nil]
    constructor
    · intro hx
      obtain ⟨is, his, rfl⟩ := hx
      exact ⟨⟨is, his⟩, by rw [his]; rfl⟩
    · intro hx
      obtain ⟨⟨is, his⟩, rfl⟩ := hx
      exact ⟨is, his, by rw [his]; rfl⟩

theorem advance_of_ok {s : Step} (h : p.step s = .ok q) : p.advance s = q := by
  rw [advance, h]
  rfl

theorem advance_of_error {s : Step} {e : ProgramError} (h : p.step s = .error e) :
    p.advance s = p := by
  rw [advance, h]
  rfl

/-! ## Runs -/

/-- The steps of a run that succeed, each with the program that it finds. -/
def successes (p : Program) : List Step → List (Program × Step)
  | [] => []
  | s :: steps =>
    match p.step s with
    | .ok q => (p, s) :: q.successes steps
    | .error _ => p.successes steps

/-- What the successful steps of a run emit. -/
def emissions (p : Program) (steps : List Step) : List Instruction :=
  (p.successes steps).flatMap fun e => e.2.emitted e.1.constants.length

/-- The constants that the successful steps of a run add. -/
def additions (p : Program) (steps : List Step) : List Word :=
  (p.successes steps).flatMap fun e => e.2.added

theorem run_eq (p : Program) (steps : List Step) :
    p.run steps = ⟨p.instructions ++ p.emissions steps, p.constants ++ p.additions steps⟩ := by
  induction steps generalizing p with
  | nil => simp [emissions, additions, successes]
  | cons s steps ih =>
    cases hs : p.step s with
    | error e => simp only [run_cons, advance_of_error hs, ih, emissions, additions, successes, hs]
    | ok q =>
      obtain ⟨-, rfl⟩ := step_eq_ok_iff.mp hs
      simp only [run_cons, advance_of_ok hs, ih, emissions, additions, successes, hs,
        List.flatMap_cons, extend, List.append_assoc]

theorem step_append (p : Program) (is : List Instruction) :
    p.step (.append (Source.ofInstructions is)) = .ok ⟨p.instructions ++ is, p.constants⟩ := by
  simp only [step, append, Source.instructions_ofInstructions]
  rfl

theorem advance_append (p : Program) (is : List Instruction) :
    p.advance (.append (Source.ofInstructions is)) = ⟨p.instructions ++ is, p.constants⟩ :=
  advance_of_ok (step_append p is)

theorem run_reserve_append (is : List Instruction) (cs : List Word) :
    empty.run [.reserve cs, .append (Source.ofInstructions is)] = ⟨is, cs⟩ := by
  rw [run_cons, run_cons, advance_append, run_nil]
  rfl

/-- Every program can be put together. -/
theorem exists_run (p : Program) : ∃ steps, empty.run steps = p :=
  ⟨_, run_reserve_append p.instructions p.constants⟩

theorem instructions_front (p : Program) (steps : List Step) :
    p.instructions <+: (p.run steps).instructions := by
  rw [run_eq]
  exact List.prefix_append _ _

theorem constants_front (p : Program) (steps : List Step) :
    p.constants <+: (p.run steps).constants := by
  rw [run_eq]
  exact List.prefix_append _ _

/-- A position handed out for a constant refers to it from then on. -/
theorem constant_kept {value : Word} (h : p.step (.constant value) = .ok q) (steps : List Step) :
    ∃ index : UInt8, q.instructions = p.instructions ++ [⟨.val, index⟩] ∧
      (q.run steps).constants[index.toNat]? = some value := by
  obtain ⟨hle, rfl⟩ := step_eq_ok_iff.mp h
  have hindex : (UInt8.ofNat p.constants.length).toNat = p.constants.length :=
    UInt8.toNat_ofNat_of_lt' (Nat.lt_succ_of_le hle)
  obtain ⟨later, hlater⟩ := constants_front (p.extend (.constant value)) steps
  refine ⟨UInt8.ofNat p.constants.length, rfl, ?_⟩
  rw [hindex, ← hlater]
  simp [extend, Step.added]

theorem reserve_kept (p : Program) (values : List Word) (steps : List Step) :
    (((p.reserve values).2.run steps).constants.drop (p.reserve values).1).take values.length =
      values := by
  obtain ⟨later, hlater⟩ := constants_front (p.reserve values).2 steps
  rw [← hlater]
  simp only [reserve, List.append_assoc, List.drop_left, List.take_left]

/-- A packed program holds what the successful steps added to it, in their order. What is there at
any point of the run is there at the end, in its place: each reference to a constant finds that
constant, and reserved constants stand where they were put. -/
theorem finish_keeps_run (steps : List Step) (stackLength : UInt32) (c : StateConfig)
    (h : (empty.run steps).finish stackLength = .ok c) :
    c.constants = empty.additions steps ∧
    (∃ s, c.sources = [s] ∧ s.instructions = .ok (empty.emissions steps)) ∧
    (∀ before value after q, steps = before ++ .constant value :: after →
      (empty.run before).step (.constant value) = .ok q →
      ∃ index : UInt8, q.instructions = (empty.run before).instructions ++ [⟨.val, index⟩] ∧
        c.constants[index.toNat]? = some value) ∧
    (∀ before values after, steps = before ++ .reserve values :: after →
      (c.constants.drop ((empty.run before).reserve values).1).take values.length = values) ∧
    (∀ before after, steps = before ++ after →
      (empty.run before).instructions <+: empty.emissions steps ∧
        (empty.run before).constants <+: c.constants) := by
  obtain ⟨-, rfl⟩ := finish_eq_ok_iff.mp h
  have hrun : empty.run steps = ⟨empty.emissions steps, empty.additions steps⟩ := run_eq empty steps
  refine ⟨congrArg constants hrun, ⟨_, rfl, ?_⟩, ?_, ?_, ?_⟩
  · rw [Source.instructions_ofInstructions, hrun]
  · rintro before value after q rfl hq
    obtain ⟨index, hemit, hkept⟩ := constant_kept hq after
    refine ⟨index, hemit, ?_⟩
    rw [run_append, run_cons, advance_of_ok hq]
    exact hkept
  · rintro before values after rfl
    rw [run_append, run_cons]
    exact reserve_kept _ values after
  · rintro before after rfl
    have hinstructions := instructions_front (empty.run before) after
    have hconstants := constants_front (empty.run before) after
    rw [← run_append] at hinstructions hconstants
    rw [hrun] at hinstructions
    exact ⟨hinstructions, hconstants⟩

/-- A program with steps that fail between the others: the first `constant` is `VAL 0`, the reserved
constants follow it, and the reference to the second of them is emitted before the first. -/
theorem finish_keeps_run_mixed :
    let steps : List Step := [.constant Word.max, .emitWith .any 300, .reserve [Word.zero, Word.max],
      .append ⟨[5, 0, 6]⟩, .reference 2, .append ⟨[31, 0]⟩, .reference 1]
    let c : StateConfig := ⟨[⟨[1, 0, 1, 2, 31, 0, 1, 1]⟩], [Word.max, Word.zero, Word.max], 2, 0⟩
    (empty.run steps).finish 2 = .ok c ∧
      (c.constants.drop ((empty.run (steps.take 2)).reserve [Word.zero, Word.max]).1).take 2 =
        [Word.zero, Word.max] := by
  intro steps c
  have h : (empty.run steps).finish 2 = .ok c := by decide
  refine ⟨h, ?_⟩
  exact (finish_keeps_run steps 2 c h).2.2.2.1 (steps.take 2) [Word.zero, Word.max] (steps.drop 3) rfl

end Program

end SaleRules
