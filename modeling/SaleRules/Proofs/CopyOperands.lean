import SaleRules.Proofs.ProgramHistory
import Mathlib.Data.List.Forall2

/-!
# Operands of copies

`DUP` names the slot of the stack that it copies. Neither the check of the references nor the
analysis of the stack reads that operand, so a packed program stays packed if a copy is given
another one, such as that of a slot above all values.
-/
namespace SaleRules

namespace Instruction

/-- Instructions that differ at most in the slot that they copy. -/
inductive Alike : Instruction → Instruction → Prop where
  | same (i : Instruction) : Alike i i
  | copy (a b : UInt8) : Alike ⟨.dup, a⟩ ⟨.dup, b⟩

theorem not_dangles_copy (count : Nat) (a : UInt8) : ¬ Dangles count ⟨.dup, a⟩ := by
  intro h
  cases h.1

theorem forall₂_alike_refl (is : List Instruction) : List.Forall₂ Alike is is :=
  List.forall₂_same.mpr fun i _ => .same i

theorem forall₂_alike_copy (pre post : List Instruction) (a b : UInt8) :
    List.Forall₂ Alike (pre ++ ⟨.dup, a⟩ :: post) (pre ++ ⟨.dup, b⟩ :: post) :=
  List.rel_append (forall₂_alike_refl pre) (.cons (.copy a b) (forall₂_alike_refl post))

end Instruction

open Instruction

/-- Each copy is of a slot that holds a value when the copy is made. -/
def CopiesInRange (is : List Instruction) : Prop :=
  ∀ pre a, pre ++ [⟨.dup, a⟩] <+: is → (a.toNat : Int) < balance pre

variable {is js : List Instruction}

theorem Heights.afterAll_alike (h : List.Forall₂ Alike is js) (index : Nat) (heights : Heights) :
    heights.afterAll index is = heights.afterAll index js := by
  induction h generalizing index heights with
  | nil => rfl
  | cons hij _ ih =>
    cases hij with
    | same i => simp only [afterAll, ih]
    | copy a b =>
      -- both copies push one value and are reported alike
      have hafter : heights.after index ⟨.dup, a⟩ = heights.after index ⟨.dup, b⟩ := rfl
      simp only [afterAll, hafter, ih]

namespace Program

theorem firstDangling?_alike (h : List.Forall₂ Alike is js) (count position : Nat) :
    firstDangling? count position is = firstDangling? count position js := by
  induction h generalizing position with
  | nil => rfl
  | cons hij _ ih =>
    cases hij with
    | same i => simp only [firstDangling?, ih]
    | copy a b =>
      rw [firstDangling?_cons_neg (not_dangles_copy count a),
        firstDangling?_cons_neg (not_dangles_copy count b), ih]

/-- What is copied decides neither whether a program is packed nor for which fault it is refused. -/
theorem finish_alike (h : List.Forall₂ Alike is js) (constants : List Word) (stackLength : UInt32) :
    (Program.mk js constants).finish stackLength =
      ((Program.mk is constants).finish stackLength).map fun c =>
        { c with sources := [Source.ofInstructions js] } := by
  simp only [finish, Source.maxHeight_ofInstructions, firstDangling?_alike h,
    Heights.afterAll_alike h]
  cases firstDangling? constants.length 0 js with
  | some reference => rfl
  | none =>
    cases Heights.start.afterAll 0 js with
    | error cause => rfl
    | ok heights =>
      simp only [Except.map]
      split <;> rfl

theorem finish_of_copy {p : Program} {stackLength : UInt32} {c : StateConfig}
    (h : p.finish stackLength = .ok c) {pre post : List Instruction} {a : UInt8}
    (hp : p.instructions = pre ++ ⟨.dup, a⟩ :: post) (b : UInt8) :
    (Program.mk (pre ++ ⟨.dup, b⟩ :: post) p.constants).finish stackLength =
      .ok { c with sources := [Source.ofInstructions (pre ++ ⟨.dup, b⟩ :: post)] } := by
  have halike := finish_alike (forall₂_alike_copy pre post a b) p.constants stackLength
  rw [← hp, h] at halike
  exact halike

/-- The references of a packed program are in range and its stack holds what is popped, but a copy
may be made of any slot: a program with another operand there can be put together and is packed as
well. So a copy that has at most 255 values below it can be one of a slot without a value. -/
theorem packed_copies (steps : List Step) (stackLength : UInt32) (c : StateConfig)
    (h : (empty.run steps).finish stackLength = .ok c) :
    c.sources = [Source.ofInstructions (empty.run steps).instructions] ∧
    (∀ pre i, pre ++ [i] <+: (empty.run steps).instructions →
      (i.opcode = .val → i.operand.toNat < c.constants.length) ∧ (i.pops : Int) ≤ balance pre) ∧
    (∀ pre a post, (empty.run steps).instructions = pre ++ ⟨.dup, a⟩ :: post →
      ∀ b, ∃ steps', (empty.run steps').finish stackLength =
        .ok { c with sources := [Source.ofInstructions (pre ++ ⟨.dup, b⟩ :: post)] }) ∧
    (∀ pre a, pre ++ [⟨.dup, a⟩] <+: (empty.run steps).instructions → balance pre ≤ 255 →
      ∃ steps', ¬ CopiesInRange (empty.run steps').instructions ∧
        ∃ c', (empty.run steps').finish stackLength = .ok c') := by
  obtain ⟨hp, hc⟩ := finish_eq_ok_iff.mp h
  refine ⟨congrArg StateConfig.sources hc, fun pre i hi => ⟨?_, hp.covered pre i hi⟩, ?_, ?_⟩
  · rw [hc]
    exact hp.references i (hi.subset (by simp))
  · intro pre a post hpost b
    obtain ⟨steps', hsteps⟩ := exists_run ⟨pre ++ ⟨.dup, b⟩ :: post, (empty.run steps).constants⟩
    exact ⟨steps', hsteps ▸ finish_of_copy h hpost b⟩
  · intro pre a hstands hle
    obtain ⟨post, hpost⟩ := hstands
    rw [List.append_assoc] at hpost
    obtain ⟨steps', hsteps⟩ := exists_run ⟨pre ++ ⟨.dup, 255⟩ :: post, (empty.run steps).constants⟩
    refine ⟨steps', ?_, _, hsteps ▸ finish_of_copy h hpost.symm 255⟩
    intro hrange
    rw [hsteps] at hrange
    have hlt := hrange pre 255 ⟨post, List.append_assoc pre [⟨.dup, 255⟩] post⟩
    exact absurd (Int.lt_of_lt_of_le hlt hle) (by decide)

/-- A copy with one value below it, which is packed with the operand 255 as well. -/
theorem packed_copies_above :
    let steps : List Step := [.emit .blockNumber, .emitWith .dup 0]
    (empty.run steps).finish 2 = .ok ⟨[⟨[5, 0, 2, 0]⟩], [], 2, 0⟩ ∧
      (∃ steps', (empty.run steps').finish 2 = .ok ⟨[⟨[5, 0, 2, 255]⟩], [], 2, 0⟩) ∧
      ∃ steps', ¬ CopiesInRange (empty.run steps').instructions ∧
        ∃ c', (empty.run steps').finish 2 = .ok c' := by
  intro steps
  have h : (empty.run steps).finish 2 = .ok ⟨[⟨[5, 0, 2, 0]⟩], [], 2, 0⟩ := by decide
  obtain ⟨-, -, hcopy, habove⟩ := packed_copies steps 2 _ h
  refine ⟨h, hcopy [.bare .blockNumber] 0 [] rfl 255, ?_⟩
  exact habove [.bare .blockNumber] 0 List.prefix_rfl (by decide)

/-- A copy of slot 0 of the empty stack is packed. -/
theorem copies_in_range_fails :
    ¬ ∀ steps stackLength c, (empty.run steps).finish stackLength = .ok c →
      CopiesInRange (empty.run steps).instructions := by
  intro hall
  have h : (empty.run [.emitWith .dup 0]).finish 1 = .ok ⟨[⟨[2, 0]⟩], [], 1, 0⟩ := by decide
  exact absurd (hall _ _ _ h [] 0 List.prefix_rfl) (by decide)

end Program

end SaleRules
