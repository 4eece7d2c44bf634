import SaleRules.Program
import SaleRules.Proofs.StackBalance

/-!
# Which programs are packed

A program is packed if its references are in range, the effect of each instruction is known, the
stack always holds what is popped, and its greatest height is declared. Each program either has all
four properties or one first fault, and which fault that is follows from the program alone.
-/
namespace SaleRules

/-- The instruction refers past the end of a table of `count` constants. -/
def Instruction.Dangles (count : Nat) (i : Instruction) : Prop :=
  i.opcode = .val ∧ count ≤ i.operand.toNat

namespace Program

/-- What a program needs to be packed for a stack of the given length. -/
structure Acceptable (p : Program) (stackLength : UInt32) : Prop where
  references : ∀ i ∈ p.instructions, i.opcode = .val → i.operand.toNat < p.constants.length
  known : ∀ i ∈ p.instructions, i.opcode.effect ≠ .dynamic
  covered : ∀ pre i, pre ++ [i] <+: p.instructions → (i.pops : Int) ≤ balance pre
  declared : ∀ pre, pre <+: p.instructions → balance pre ≤ stackLength.toNat

/-- The fault for which a program is refused. References come first, wherever they stand; then the
first instruction that cannot be run; then the length of the stack. -/
inductive Refused (p : Program) (stackLength : UInt32) : ProgramError → Prop where
  | dangling (pre : List Instruction) (i : Instruction) (stands : pre ++ [i] <+: p.instructions)
      (first : ∀ j ∈ pre, ¬ j.Dangles p.constants.length) (dangles : i.Dangles p.constants.length) :
      Refused p stackLength (.constantOutOfRange pre.length i.operand.toNat p.constants.length)
  | unknown (pre : List Instruction) (i : Instruction)
      (references : ∀ j ∈ p.instructions, ¬ j.Dangles p.constants.length)
      (stands : pre ++ [i] <+: p.instructions) (first : Runnable pre)
      (effect : i.opcode.effect = .dynamic) :
      Refused p stackLength (.source (.dynamicEffect pre.length i.opcode))
  | underflow (pre : List Instruction) (i : Instruction)
      (references : ∀ j ∈ p.instructions, ¬ j.Dangles p.constants.length)
      (stands : pre ++ [i] <+: p.instructions) (first : Runnable pre)
      (known : i.opcode.effect ≠ .dynamic) (pops : balance pre < i.pops) :
      Refused p stackLength (.source (.stackUnderflow pre.length i.opcode))
  | short (needed : Nat) (references : ∀ j ∈ p.instructions, ¬ j.Dangles p.constants.length)
      (runnable : Runnable p.instructions) (peak : IsPeak p.instructions needed)
      (below : stackLength.toNat < needed) :
      Refused p stackLength (.stackTooShort stackLength needed)

/-! ## References -/

theorem firstDangling?_cons_pos {count position : Nat} {i : Instruction} (hi : i.Dangles count)
    (is : List Instruction) :
    firstDangling? count position (i :: is) = some (position, i.operand.toNat) := if_pos hi

theorem firstDangling?_cons_neg {count position : Nat} {i : Instruction} (hi : ¬ i.Dangles count)
    (is : List Instruction) :
    firstDangling? count position (i :: is) = firstDangling? count (position + 1) is := if_neg hi

theorem firstDangling?_eq_none {count : Nat} (position : Nat) {is : List Instruction}
    (h : ∀ i ∈ is, ¬ i.Dangles count) : firstDangling? count position is = none := by
  induction is generalizing position with
  | nil => rfl
  | cons i is ih =>
    obtain ⟨hi, his⟩ := List.forall_mem_cons.mp h
    rw [firstDangling?_cons_neg hi]
    exact ih (position + 1) his

theorem firstDangling?_append {count : Nat} (position : Nat) {pre : List Instruction}
    (hpre : ∀ j ∈ pre, ¬ j.Dangles count) (is : List Instruction) :
    firstDangling? count position (pre ++ is) =
      firstDangling? count (position + pre.length) is := by
  induction pre generalizing position with
  | nil => rfl
  | cons j pre ih =>
    obtain ⟨hj, hpre⟩ := List.forall_mem_cons.mp hpre
    rw [List.cons_append, firstDangling?_cons_neg hj, ih (position + 1) hpre, List.length_cons]
    congr 1
    omega

theorem dangles_or_not (count : Nat) (is : List Instruction) :
    (∀ i ∈ is, ¬ i.Dangles count) ∨
      ∃ pre i, pre ++ [i] <+: is ∧ (∀ j ∈ pre, ¬ j.Dangles count) ∧ i.Dangles count := by
  induction is with
  | nil => exact .inl (by simp)
  | cons i is ih =>
    by_cases hi : i.Dangles count
    · exact .inr ⟨[], i, List.prefix_append [i] is, by simp, hi⟩
    · rcases ih with his | ⟨pre, j, hfront, hpre, hj⟩
      · exact .inl (List.forall_mem_cons.mpr ⟨hi, his⟩)
      · refine .inr ⟨i :: pre, j, ?_, List.forall_mem_cons.mpr ⟨hi, hpre⟩, hj⟩
        exact (List.prefix_cons_inj i).mpr hfront

/-! ## The check -/

variable {p : Program} {stackLength : UInt32}

theorem finish_of_obstacle (h : ∀ i ∈ p.instructions, ¬ i.Dangles p.constants.length)
    {cause : SourceError} (hrun : Heights.start.afterAll 0 p.instructions = .error cause) :
    p.finish stackLength = .error (.source cause) := by
  have hmax : (Source.ofInstructions p.instructions).maxHeight = .error cause := by
    rw [Source.maxHeight_ofInstructions, hrun]
    rfl
  simp only [finish, firstDangling?_eq_none 0 h, hmax]

theorem finish_of_heights (h : ∀ i ∈ p.instructions, ¬ i.Dangles p.constants.length)
    {heights : Heights} (hrun : Heights.start.afterAll 0 p.instructions = .ok heights) :
    p.finish stackLength =
      if stackLength.toNat < heights.greatest then
        .error (.stackTooShort stackLength heights.greatest)
      else .ok ⟨[Source.ofInstructions p.instructions], p.constants, stackLength, 0⟩ := by
  have hmax : (Source.ofInstructions p.instructions).maxHeight = .ok heights.greatest := by
    rw [Source.maxHeight_ofInstructions, hrun]
    rfl
  simp only [finish, firstDangling?_eq_none 0 h, hmax]

theorem Acceptable.notDangling (h : p.Acceptable stackLength) :
    ∀ i ∈ p.instructions, ¬ i.Dangles p.constants.length := by
  rintro i hi ⟨hval, hle⟩
  have hlt := h.references i hi hval
  omega

theorem Acceptable.runnable (h : p.Acceptable stackLength) : Runnable p.instructions :=
  fun pre i hfront => ⟨h.known i (hfront.subset (by simp)), h.covered pre i hfront⟩

theorem finish_of_acceptable (h : p.Acceptable stackLength) :
    p.finish stackLength =
      .ok ⟨[Source.ofInstructions p.instructions], p.constants, stackLength, 0⟩ := by
  obtain ⟨heights, hrun, hm⟩ := Heights.afterAll_of_runnable h.runnable
  obtain ⟨top, htop, hbalance⟩ := hm.greatest.1
  have hle := h.declared top htop
  rw [finish_of_heights h.notDangling hrun, if_neg (by omega)]

theorem finish_of_refused {e : ProgramError} (h : p.Refused stackLength e) :
    p.finish stackLength = .error e := by
  cases h with
  | dangling pre i hstands hfirst hi =>
    obtain ⟨post, hpost⟩ := hstands
    have hread := firstDangling?_append 0 hfirst (i :: post)
    rw [← List.singleton_append, ← List.append_assoc, hpost, Nat.zero_add, List.singleton_append,
      firstDangling?_cons_pos hi] at hread
    simp only [finish, hread]
  | unknown pre i hrefs hstands hfirst heffect =>
    have hrun := Heights.afterAll_of_stuck hstands hfirst fun hi => hi.1 heffect
    rw [finish_of_obstacle hrefs hrun, Heights.obstacle, if_pos heffect]
  | underflow pre i hrefs hstands hfirst hknown hpops =>
    have hrun := Heights.afterAll_of_stuck hstands hfirst fun hi => Int.not_lt.mpr hi.2 hpops
    rw [finish_of_obstacle hrefs hrun, Heights.obstacle, if_neg hknown]
  | short needed hrefs hrunnable hpeak hlt =>
    obtain ⟨heights, hrun, hm⟩ := Heights.afterAll_of_runnable hrunnable
    have heq := hm.greatest.unique hpeak
    subst heq
    rw [finish_of_heights hrefs hrun, if_pos hlt]

theorem acceptable_or_refused (p : Program) (stackLength : UInt32) :
    p.Acceptable stackLength ∨ ∃ e, p.Refused stackLength e := by
  rcases dangles_or_not p.constants.length p.instructions with hrefs | ⟨pre, i, hstands, hpre, hi⟩
  · rcases runnable_or_stuck p.instructions with hrun | ⟨pre, i, hstands, hpre, hi⟩
    · obtain ⟨heights, -, hm⟩ := Heights.afterAll_of_runnable hrun
      by_cases hlt : stackLength.toNat < heights.greatest
      · exact .inr ⟨_, .short heights.greatest hrefs hrun hm.greatest hlt⟩
      · refine .inl ⟨?_, ?_, fun pre i h => (hrun pre i h).2, ?_⟩
        · intro i hi hval
          exact Nat.lt_of_not_le fun hle => hrefs i hi ⟨hval, hle⟩
        · intro i hi
          obtain ⟨pre, post, heq⟩ := List.append_of_mem hi
          exact (hrun pre i ⟨post, by simp [heq]⟩).1
        · intro pre hfront
          have hle := hm.greatest.2 pre hfront
          omega
    · by_cases heffect : i.opcode.effect = .dynamic
      · exact .inr ⟨_, .unknown pre i hrefs hstands hpre heffect⟩
      · refine .inr ⟨_, .underflow pre i hrefs hstands hpre heffect ?_⟩
        exact Int.not_le.mp fun hle => hi ⟨heffect, hle⟩
  · exact .inr ⟨_, .dangling pre i hstands hpre hi⟩

theorem finish_eq_ok_iff {c : StateConfig} : p.finish stackLength = .ok c ↔
    p.Acceptable stackLength ∧
      c = ⟨[Source.ofInstructions p.instructions], p.constants, stackLength, 0⟩ := by
  constructor
  · intro h
    rcases acceptable_or_refused p stackLength with hp | ⟨e, he⟩
    · rw [finish_of_acceptable hp] at h
      exact ⟨hp, (Except.ok.inj h).symm⟩
    · rw [finish_of_refused he] at h
      cases h
  · intro hx
    obtain ⟨hp, rfl⟩ := hx
    exact finish_of_acceptable hp

theorem finish_eq_error_iff {e : ProgramError} :
    p.finish stackLength = .error e ↔ p.Refused stackLength e := by
  constructor
  · intro h
    rcases acceptable_or_refused p stackLength with hp | ⟨e', he⟩
    · rw [finish_of_acceptable hp] at h
      cases h
    · rw [finish_of_refused he] at h
      exact Except.error.inj h ▸ he
  · exact finish_of_refused

/-- A program is packed if and only if it is acceptable, into a config of its packed instructions
and its constants; otherwise the answer is its first fault. What is packed is never found cut short
or unreadable. -/
theorem finish_outcome (p : Program) (stackLength : UInt32) :
    ((∃ c, p.finish stackLength = .ok c) ↔ p.Acceptable stackLength) ∧
    (∀ c, p.finish stackLength = .ok c →
      c.sources = [Source.ofInstructions p.instructions] ∧ c.constants = p.constants ∧
        c.stackLength = stackLength ∧ c.argumentsLength = 0) ∧
    (∀ e, p.finish stackLength = .error e ↔ p.Refused stackLength e) ∧
    (∀ e, p.finish stackLength = .error e →
      (∀ length, e ≠ .source (.truncated length)) ∧ (∀ cause, e ≠ .source (.encoding cause)) ∧
        ∀ cause, e ≠ .encoding cause) := by
  refine ⟨⟨?_, ?_⟩, ?_, fun e => finish_eq_error_iff, ?_⟩
  · intro hx
    obtain ⟨c, hc⟩ := hx
    exact (finish_eq_ok_iff.mp hc).1
  · intro h
    exact ⟨_, finish_of_acceptable h⟩
  · intro c hc
    obtain ⟨-, rfl⟩ := finish_eq_ok_iff.mp hc
    exact ⟨rfl, rfl, rfl, rfl⟩
  · intro e he
    have hrefused := finish_eq_error_iff.mp he
    refine ⟨?_, ?_, ?_⟩
    all_goals
      rintro cause rfl
      cases hrefused

end Program

end SaleRules
