import SaleRules.Program.Building
import SaleRules.Proofs.ProgramHistory
import SaleRules.Proofs.SourceReading

/-!
# Steps that fail

A step reads what it needs before it writes, and the one write that could be refused comes first. So
a step that fails leaves the program as it was, and a run is not disturbed by the steps in it that
fail. Which steps those are depends on the step itself and, for a new constant, on the number of
constants that are there.
-/
namespace SaleRules

namespace Step

/-- The step fails in a program with `count` constants. An operand is a byte, a new constant needs
one for its position, and a fragment has to be readable; other steps never fail. -/
inductive Fails (count : Nat) : Step → ProgramError → Prop where
  | emitWith (opcode : Opcode) (operand : Nat) (wide : 255 < operand) :
      Fails count (emitWith opcode operand) (.encoding (.operandTooWide opcode operand))
  | constant (value : Word) (full : 256 ≤ count) :
      Fails count (constant value) (.encoding (.operandTooWide .val count))
  | reference (index : Nat) (wide : 255 < index) :
      Fails count (reference index) (.encoding (.operandTooWide .val index))
  | append (fragment : Source) (cause : SourceError) (unreadable : fragment.Unreadable cause) :
      Fails count (append fragment) (.source cause)

/-- What a step answers if it succeeds in a program with `count` constants. -/
def answer? (count : Nat) : Step → Option Nat
  | reserve _ => some count
  | _ => none

end Step

namespace Program

variable {p q : Program} {s : Step} {e : ProgramError}

theorem emitWith_eq_error_iff {opcode : Opcode} {operand : Nat} {e : EncodingError} :
    p.emitWith opcode operand = .error e ↔
      255 < operand ∧ e = .operandTooWide opcode operand := by
  rw [emitWith, Except.map_eq_error_iff, Instruction.withOperand_eq_error_iff]

/-- The one way in which a step that emits an instruction fails. -/
theorem step_emitWith_eq_error_iff {opcode : Opcode} {operand : Nat} :
    p.step (.emitWith opcode operand) = .error e ↔
      255 < operand ∧ e = .encoding (.operandTooWide opcode operand) := by
  simp only [step, Except.mapError_eq_error_iff, emitWith_eq_error_iff]
  constructor
  · intro hx
    obtain ⟨_, ⟨hlt, rfl⟩, rfl⟩ := hx
    exact ⟨hlt, rfl⟩
  · intro hx
    obtain ⟨hlt, rfl⟩ := hx
    exact ⟨_, ⟨hlt, rfl⟩, rfl⟩

theorem step_constant_eq_error_iff {value : Word} :
    p.step (.constant value) = .error e ↔ p.step (.reference p.constants.length) = .error e := by
  simp only [step, Except.mapError_eq_error_iff, constant, reference, Except.map_eq_error_iff]

theorem step_append_eq_error_iff {fragment : Source} :
    p.step (.append fragment) = .error e ↔
      ∃ cause, fragment.Unreadable cause ∧ .source cause = e := by
  simp only [step, Except.mapError_eq_error_iff, append, Except.map_eq_error_iff,
    Source.instructions_eq_error_iff]

theorem step_eq_error_iff : p.step s = .error e ↔ s.Fails p.constants.length e := by
  constructor
  · intro h
    cases s with
    | emit opcode => cases h
    | emitWith opcode operand =>
      obtain ⟨hlt, rfl⟩ := step_emitWith_eq_error_iff.mp h
      exact .emitWith opcode operand hlt
    | constant value =>
      obtain ⟨hle, rfl⟩ := step_emitWith_eq_error_iff.mp (step_constant_eq_error_iff.mp h)
      exact .constant value hle
    | reference index =>
      obtain ⟨hlt, rfl⟩ := step_emitWith_eq_error_iff.mp h
      exact .reference index hlt
    | reserve values => cases h
    | append fragment =>
      obtain ⟨cause, hcause, rfl⟩ := step_append_eq_error_iff.mp h
      exact .append fragment cause hcause
  · intro h
    cases h with
    | emitWith opcode operand hlt => exact step_emitWith_eq_error_iff.mpr ⟨hlt, rfl⟩
    | constant value hle =>
      exact step_constant_eq_error_iff.mpr (step_emitWith_eq_error_iff.mpr ⟨hle, rfl⟩)
    | reference index hlt => exact step_emitWith_eq_error_iff.mpr ⟨hlt, rfl⟩
    | append fragment cause hcause => exact step_append_eq_error_iff.mpr ⟨cause, hcause, rfl⟩

theorem succeeds_or_fails (p : Program) (s : Step) :
    s.Succeeds p.constants.length ∨ ∃ e, s.Fails p.constants.length e := by
  cases h : p.step s with
  | ok q => exact .inl (step_eq_ok_iff.mp h).1
  | error e => exact .inr ⟨e, step_eq_error_iff.mp h⟩

end Program

/-! ## Steps taken in place -/

namespace Building

variable {opcode : Opcode} {operand : Nat}

theorem result_emitWith_of_le (p : Program) (h : operand ≤ 255) :
    (emitWith opcode operand).result p = (.ok (), p.emit ⟨opcode, UInt8.ofNat operand⟩) := by
  rw [emitWith, Instruction.withOperand_eq_ok_iff.mpr ⟨h, rfl⟩]
  rfl

theorem result_emitWith_of_lt (p : Program) (h : 255 < operand) :
    (emitWith opcode operand).result p =
      (.error (.encoding (.operandTooWide opcode operand)), p) := by
  rw [emitWith, Instruction.withOperand_eq_error_iff.mpr ⟨h, rfl⟩]
  rfl

/-- The position of a new constant is the number of those that are there. -/
theorem result_constant (p : Program) (value : Word) :
    (constant value).result p =
      (emitWith .val p.constants.length >>= fun _ => discard (reserve [value])).result p := rfl

end Building

namespace Program

open Building

variable {p : Program} {s : Step} {e : ProgramError}

theorem take_of_succeeds (h : s.Succeeds p.constants.length) :
    p.take s = (.ok (s.answer? p.constants.length), p.extend s) := by
  cases s with
  | emit opcode =>
    simp only [extend, Step.emitted, Step.added, List.append_nil]
    rfl
  | emitWith opcode operand =>
    simp only [extend, Step.emitted, Step.added, List.append_nil]
    exact result_bind_ok (result_emitWith_of_le p h) _
  | constant value =>
    have hconstant : (Building.constant value).result p = (.ok (), p.extend (.constant value)) := by
      rw [result_constant, result_bind_ok (result_emitWith_of_le p h)]
      rfl
    exact result_bind_ok hconstant _
  | reference index =>
    simp only [extend, Step.emitted, Step.added, List.append_nil]
    exact result_bind_ok (result_emitWith_of_le p h) _
  | reserve values =>
    simp only [extend, Step.emitted, Step.added, List.append_nil]
    rfl
  | append fragment =>
    obtain ⟨is, his⟩ := h
    simp only [extend, Step.emitted, Step.added, List.append_nil, take, Step.perform,
      Building.append, his]
    rfl

/-- The check that fails a step comes before all that the step writes. -/
theorem take_of_fails (h : s.Fails p.constants.length e) : p.take s = (.error e, p) := by
  cases h with
  | emitWith opcode operand hlt => exact result_bind_error (result_emitWith_of_lt p hlt) _
  | constant value hle =>
    have hconstant : (Building.constant value).result p =
        (.error (.encoding (.operandTooWide .val p.constants.length)), p) := by
      rw [result_constant, result_bind_error (result_emitWith_of_lt p hle)]
    exact result_bind_error hconstant _
  | reference index hlt => exact result_bind_error (result_emitWith_of_lt p hlt) _
  | append fragment cause hcause =>
    have hread := Source.instructions_eq_error_iff.mpr hcause
    simp only [take, Step.perform, Building.append, hread]
    rfl

theorem take_eq_error_iff : (p.take s).1 = .error e ↔ s.Fails p.constants.length e := by
  constructor
  · intro h
    rcases succeeds_or_fails p s with hs | ⟨e', hs⟩
    · rw [take_of_succeeds hs] at h
      cases h
    · rw [take_of_fails hs] at h
      exact Except.error.inj h ▸ hs
  · intro h
    rw [take_of_fails h]

theorem take_advance (p : Program) (s : Step) : (p.take s).2 = p.advance s := by
  cases h : p.step s with
  | ok q =>
    obtain ⟨hsucceeds, rfl⟩ := step_eq_ok_iff.mp h
    rw [take_of_succeeds hsucceeds, advance_of_ok h]
  | error e => rw [take_of_fails (step_eq_error_iff.mp h), advance_of_error h]

/-! ## Runs -/

/-- In place the same program is built. -/
theorem takeAll_run (p : Program) (steps : List Step) : (p.takeAll steps).2 = p.run steps := by
  induction steps generalizing p with
  | nil => rfl
  | cons s steps ih => rw [takeAll, ih, take_advance, run_cons]

/-- A step that fails where it stands leaves its error behind and nothing else. -/
theorem takeAll_insert {before : List Step} (h : ((p.takeAll before).2.take s).1 = .error e)
    (after : List Step) :
    p.takeAll (before ++ s :: after) =
      ((p.takeAll (before ++ after)).1.insertIdx before.length (.error e),
        (p.takeAll (before ++ after)).2) := by
  induction before generalizing p with
  | nil =>
    have hs : p.take s = (.error e, p) := take_of_fails (take_eq_error_iff.mp h)
    rw [List.nil_append, takeAll, hs]
    rfl
  | cons b before ih =>
    rw [List.cons_append, takeAll, ih h]
    rfl

theorem takeAll_successes (p : Program) (steps : List Step) :
    p.takeAll ((p.successes steps).map Prod.snd) =
      ((p.takeAll steps).1.filter Except.isOk, (p.takeAll steps).2) := by
  induction steps generalizing p with
  | nil => rfl
  | cons s steps ih =>
    cases hs : p.step s with
    | ok q =>
      obtain ⟨hsucceeds, rfl⟩ := step_eq_ok_iff.mp hs
      have htake := take_of_succeeds hsucceeds
      simp only [successes, hs, List.map_cons, takeAll, htake, ih]
      rfl
    | error e =>
      have htake := take_of_fails (step_eq_error_iff.mp hs)
      simp only [successes, hs, takeAll, htake, ih]
      rfl

/-- A step fails exactly if it cannot be done, and then the program is as it was; otherwise what it
adds is all that changes. So a failed step put in anywhere in a run leaves the answers to the others
and the program that is built as they were, and so does leaving out all steps that fail. It is the
program of the run, so all that is said of runs holds of steps taken in place. -/
theorem take_outcome :
    (∀ (p : Program) s e, (p.take s).1 = .error e ↔ s.Fails p.constants.length e) ∧
    (∀ (p : Program) s e, (p.take s).1 = .error e → (p.take s).2 = p) ∧
    (∀ (p : Program) s, s.Succeeds p.constants.length →
      p.take s = (.ok (s.answer? p.constants.length), p.extend s)) ∧
    (∀ (p : Program) before s e, ((p.takeAll before).2.take s).1 = .error e → ∀ after,
      p.takeAll (before ++ s :: after) =
        ((p.takeAll (before ++ after)).1.insertIdx before.length (.error e),
          (p.takeAll (before ++ after)).2)) ∧
    (∀ (p : Program) steps, p.takeAll ((p.successes steps).map Prod.snd) =
      ((p.takeAll steps).1.filter Except.isOk, (p.takeAll steps).2)) ∧
    ∀ (p : Program) steps, (p.takeAll steps).2 = p.run steps := by
  refine ⟨fun p s e => take_eq_error_iff, fun p s e h => ?_, fun p s h => take_of_succeeds h,
    fun p before s e h after => takeAll_insert h after, takeAll_successes,
    takeAll_run⟩
  rw [take_of_fails (take_eq_error_iff.mp h)]

/-- A constant that finds the table full and a fragment that is bad at its end, between other
steps. -/
theorem take_outcome_full :
    let before : List Step := [.reserve (List.replicate 256 Word.max), .emit .blockNumber]
    let full : Step := .constant Word.zero
    let bad : Step := .append ⟨[5, 0, 6, 0, 54, 0]⟩
    let after : List Step := [.reference 255, bad, .emit .greaterThan]
    let e : ProgramError := .encoding (.operandTooWide .val 256)
    let e' : ProgramError := .source (.encoding (.unknownCode 54))
    ((empty.takeAll before).2.take full).1 = .error e ∧
      ((empty.takeAll before).2.take bad).1 = .error e' ∧
      ((empty.takeAll before).2.take bad).2 = (empty.takeAll before).2 ∧
      empty.takeAll (before ++ full :: after) =
        ((empty.takeAll (before ++ after)).1.insertIdx before.length (.error e),
          (empty.takeAll (before ++ after)).2) := by
  intro before full bad after e e'
  obtain ⟨-, hkept, -, hinsert, -⟩ := take_outcome
  have hfull : ((empty.takeAll before).2.take full).1 = .error e := by decide +kernel
  have hbad : ((empty.takeAll before).2.take bad).1 = .error e' := by decide
  exact ⟨hfull, hbad, hkept _ bad _ hbad, hinsert empty before full _ hfull after⟩

end Program

end SaleRules
