import SaleRules.Source.Height
import Mathlib.Data.List.Induction

/-!
# Heights of the stack as balances

The height of the stack behind a list of instructions is what they push less what they pop. A list
can be run if the effect of every instruction is known and the stack in front of it holds what it
pops; the analysis of a source finds exactly this, and otherwise stops at the first instruction that
cannot be run.
-/
namespace SaleRules

namespace Instruction

/-- The values that an instruction takes from the stack, none if that is not known. -/
def pops (i : Instruction) : Nat :=
  match i.opcode.effect with
  | .fixed pops _ => pops
  | .byOperand => i.operand.toNat
  | .dynamic => 0

/-- The values that an instruction leaves on the stack, none if that is not known. -/
def pushes (i : Instruction) : Nat :=
  match i.opcode.effect with
  | .fixed _ pushes => pushes
  | .byOperand => 1
  | .dynamic => 0

/-- The effect is known and a stack of the given height holds what is popped. -/
def RunsOn (height : Int) (i : Instruction) : Prop :=
  i.opcode.effect ≠ .dynamic ∧ (i.pops : Int) ≤ height

theorem effect?_of_known {i : Instruction} (h : i.opcode.effect ≠ .dynamic) :
    Heights.effect? i = some (i.pops, i.pushes) := by
  unfold Heights.effect? pops pushes
  cases he : i.opcode.effect with
  | fixed pops pushes => rfl
  | byOperand => rfl
  | dynamic => exact absurd he h

end Instruction

/-- The height of the stack behind instructions that start with an empty one. -/
def balance : List Instruction → Int
  | [] => 0
  | i :: is => i.pushes - i.pops + balance is

/-- Every instruction can be run on the stack that the ones in front of it leave. -/
def Runnable (is : List Instruction) : Prop :=
  ∀ pre i, pre ++ [i] <+: is → i.RunsOn (balance pre)

/-- The greatest height that the stack has in front of, between or behind the instructions. -/
def IsPeak (is : List Instruction) (n : Nat) : Prop :=
  (∃ pre, pre <+: is ∧ balance pre = n) ∧ ∀ pre, pre <+: is → balance pre ≤ n

@[simp] theorem balance_nil : balance [] = 0 := rfl

theorem balance_append (is js : List Instruction) :
    balance (is ++ js) = balance is + balance js := by
  induction is with
  | nil => simp
  | cons i is ih =>
    rw [List.cons_append, balance, balance, ih]
    omega

theorem balance_concat (is : List Instruction) (i : Instruction) :
    balance (is ++ [i]) = balance is - i.pops + i.pushes := by
  rw [balance_append, balance, balance]
  omega

theorem runnable_nil : Runnable [] := by
  intro pre i h
  simp at h

theorem runnable_concat {is : List Instruction} {i : Instruction} :
    Runnable (is ++ [i]) ↔ Runnable is ∧ i.RunsOn (balance is) := by
  constructor
  · intro h
    exact ⟨fun pre j hj => h pre j (hj.trans (List.prefix_append is [i])), h is i List.prefix_rfl⟩
  · rintro ⟨his, hi⟩ pre j hj
    rcases List.prefix_concat_iff.mp hj with heq | hfront
    · obtain ⟨rfl, hji⟩ := List.append_inj' heq rfl
      rwa [List.singleton_inj.mp hji]
    · exact his pre j hfront

/-- A list that cannot be run has a first instruction at which it stops. -/
theorem runnable_or_stuck (is : List Instruction) : Runnable is ∨
    ∃ pre i, pre ++ [i] <+: is ∧ Runnable pre ∧ ¬ i.RunsOn (balance pre) := by
  induction is using List.reverseRecOn with
  | nil => exact .inl runnable_nil
  | append_singleton is i ih =>
    rcases ih with his | ⟨pre, j, hfront, hpre, hj⟩
    · by_cases hi : i.RunsOn (balance is)
      · exact .inl (runnable_concat.mpr ⟨his, hi⟩)
      · exact .inr ⟨is, i, List.prefix_rfl, his, hi⟩
    · exact .inr ⟨pre, j, hfront.trans (List.prefix_append is [i]), hpre, hj⟩

theorem isPeak_nil : IsPeak [] 0 := by
  refine ⟨⟨[], List.prefix_rfl, rfl⟩, fun pre hpre => ?_⟩
  rw [List.prefix_nil.mp hpre]
  exact Int.le_refl 0

theorem IsPeak.concat {is : List Instruction} {m n : Nat} (h : IsPeak is m) {i : Instruction}
    (hn : balance (is ++ [i]) = n) : IsPeak (is ++ [i]) (max m n) := by
  obtain ⟨⟨top, htop, hm⟩, hle⟩ := h
  constructor
  · rcases Nat.le_total m n with hmn | hnm
    · exact ⟨is ++ [i], List.prefix_rfl, by rw [hn, Nat.max_eq_right hmn]⟩
    · exact ⟨top, htop.trans (List.prefix_append is [i]), by rw [hm, Nat.max_eq_left hnm]⟩
  · intro pre hpre
    rcases List.prefix_concat_iff.mp hpre with rfl | hfront
    · omega
    · have hm' := hle pre hfront
      omega

theorem IsPeak.unique {is : List Instruction} {m n : Nat} (hm : IsPeak is m) (hn : IsPeak is n) :
    m = n := by
  obtain ⟨⟨top, htop, hbalance⟩, hle⟩ := hm
  obtain ⟨⟨top', htop', hbalance'⟩, hle'⟩ := hn
  have h := hle' top htop
  have h' := hle top' htop'
  omega

/-! ## The analysis -/

/-- The heights found so far are those of the instructions seen so far. -/
structure Heights.Measures (h : Heights) (is : List Instruction) : Prop where
  current : (h.current : Int) = balance is
  greatest : IsPeak is h.greatest

namespace Heights

/-- All that one instruction can do to the heights. -/
theorem after_eq_ok_iff {h next : Heights} {index : Nat} {i : Instruction} :
    h.after index i = .ok next ↔
      i.opcode.effect ≠ .dynamic ∧ i.pops ≤ h.current ∧
        next = ⟨h.current - i.pops + i.pushes,
          max h.greatest (h.current - i.pops + i.pushes)⟩ := by
  by_cases hd : i.opcode.effect = .dynamic
  · simp [after, effect?, hd]
  · simp only [after, Instruction.effect?_of_known hd, ne_eq, hd, not_false_eq_true, true_and]
    by_cases hlt : h.current < i.pops
    · simp only [if_pos hlt, Nat.not_le.mpr hlt, false_and, reduceCtorEq]
    · simp only [if_neg hlt, Nat.not_lt.mp hlt, true_and, Except.ok.injEq]
      exact eq_comm

theorem afterAll_cons_eq_ok_iff {h last : Heights} {index : Nat} {i : Instruction}
    {is : List Instruction} : h.afterAll index (i :: is) = .ok last ↔
      ∃ next, h.after index i = .ok next ∧ next.afterAll (index + 1) is = .ok last := by
  rw [afterAll]
  cases h.after index i with
  | error cause => simp
  | ok next => simp

theorem measures_start : start.Measures [] := ⟨rfl, isPeak_nil⟩

theorem Measures.after {h : Heights} {is : List Instruction} (hm : h.Measures is)
    {i : Instruction} (hi : i.RunsOn (balance is)) (index : Nat) :
    ∃ next, h.after index i = .ok next ∧ next.Measures (is ++ [i]) := by
  have hpops : i.pops ≤ h.current := by
    have hle := hi.2
    rw [← hm.current] at hle
    exact Int.ofNat_le.mp hle
  have hcurrent : balance (is ++ [i]) = (h.current - i.pops + i.pushes : Nat) := by
    rw [balance_concat, ← hm.current]
    omega
  exact ⟨_, after_eq_ok_iff.mpr ⟨hi.1, hpops, rfl⟩, hcurrent.symm, hm.greatest.concat hcurrent⟩

/-- Why an instruction that cannot be run stops the analysis. -/
def obstacle (index : Nat) (i : Instruction) : SourceError :=
  if i.opcode.effect = .dynamic then .dynamicEffect index i.opcode
  else .stackUnderflow index i.opcode

theorem Measures.after_error {h : Heights} {is : List Instruction} (hm : h.Measures is)
    {i : Instruction} (hi : ¬ i.RunsOn (balance is)) (index : Nat) :
    h.after index i = .error (obstacle index i) := by
  by_cases hd : i.opcode.effect = .dynamic
  · simp only [Heights.after, effect?, obstacle, hd, if_true]
  · have hlt : h.current < i.pops := by
      by_contra hle
      refine hi ⟨hd, ?_⟩
      rw [← hm.current]
      omega
    simp only [Heights.after, Instruction.effect?_of_known hd, obstacle, hd, hlt, if_true, if_false]

theorem afterAll_of_runnable {is : List Instruction} (h : Runnable is) :
    ∃ heights, start.afterAll 0 is = .ok heights ∧ heights.Measures is := by
  induction is using List.reverseRecOn with
  | nil => exact ⟨start, rfl, measures_start⟩
  | append_singleton is i ih =>
    obtain ⟨his, hi⟩ := runnable_concat.mp h
    obtain ⟨mid, hmid, hm⟩ := ih his
    obtain ⟨next, hnext, hn⟩ := hm.after hi (0 + is.length)
    refine ⟨next, ?_, hn⟩
    rw [afterAll_append, hmid]
    simp only [Except.bind, afterAll, hnext]

theorem afterAll_of_stuck {is pre : List Instruction} {i : Instruction} (h : pre ++ [i] <+: is)
    (hpre : Runnable pre) (hi : ¬ i.RunsOn (balance pre)) :
    start.afterAll 0 is = .error (obstacle pre.length i) := by
  obtain ⟨post, rfl⟩ := h
  obtain ⟨mid, hmid, hm⟩ := afterAll_of_runnable hpre
  rw [List.append_assoc, afterAll_append, hmid]
  simp only [Except.bind, List.singleton_append, afterAll, hm.after_error hi, Nat.zero_add]

theorem measures_of_afterAll {is : List Instruction} {h : Heights}
    (his : start.afterAll 0 is = .ok h) : h.Measures is := by
  rcases runnable_or_stuck is with hrun | ⟨pre, i, hstands, hpre, hi⟩
  · obtain ⟨found, hfound, hm⟩ := afterAll_of_runnable hrun
    rw [hfound] at his
    exact Except.ok.inj his ▸ hm
  · rw [afterAll_of_stuck hstands hpre hi] at his
    cases his

theorem Measures.current_le {h : Heights} {is : List Instruction} (hm : h.Measures is) :
    h.current ≤ h.greatest := by
  have hle := hm.greatest.2 is List.prefix_rfl
  rw [← hm.current] at hle
  exact Int.ofNat_le.mp hle

end Heights

theorem Source.maxHeight_ofInstructions (is : List Instruction) :
    (Source.ofInstructions is).maxHeight = (Heights.start.afterAll 0 is).map (·.greatest) := by
  rw [Source.maxHeight, Source.heights, Source.instructions_ofInstructions]
  rfl

end SaleRules
