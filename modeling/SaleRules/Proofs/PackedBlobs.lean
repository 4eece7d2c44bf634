import SaleRules.Proofs.BlobFraming
import SaleRules.Proofs.ProgramHistory

/-!
# Blobs of packed programs

Programs are packed and blobs are written whatever their length, but a list is read only up to
`maxLength`. The blob of a packed program is therefore read back if and only if its instructions,
two bytes each, and its constants stay within that; the blob of a longer one is written and never
read.
-/
namespace SaleRules

namespace Instruction

/-- The stack is left as it is and no constant is referred to. -/
def Idle (i : Instruction) : Prop := i.opcode ≠ .val ∧ i.opcode.effect = .fixed 0 0

theorem Idle.pops_eq {i : Instruction} (h : i.Idle) : i.pops = 0 := by
  rw [pops, h.2]

theorem Idle.pushes_eq {i : Instruction} (h : i.Idle) : i.pushes = 0 := by
  rw [pushes, h.2]

theorem idle_replicate (n : Nat) : ∀ i ∈ List.replicate n (bare .debug), i.Idle := by
  intro i hi
  rw [List.eq_of_mem_replicate hi]
  exact ⟨by decide, rfl⟩

end Instruction

open Instruction

theorem balance_of_idle {is : List Instruction} (h : ∀ i ∈ is, i.Idle) : balance is = 0 := by
  induction is with
  | nil => rfl
  | cons i is ih =>
    obtain ⟨hi, his⟩ := List.forall_mem_cons.mp h
    rw [balance, hi.pops_eq, hi.pushes_eq, ih his]
    rfl

namespace Program

theorem acceptable_of_idle {p : Program} (h : ∀ i ∈ p.instructions, i.Idle) (stackLength : UInt32) :
    p.Acceptable stackLength where
  references i hi hval := absurd hval (h i hi).1
  known i hi := by
    rw [(h i hi).2]
    intro hdynamic
    cases hdynamic
  covered pre i hstands := by
    have hmem : ∀ j ∈ pre ++ [i], j.Idle := fun j hj => h j (hstands.subset hj)
    rw [(hmem i (by simp)).pops_eq,
      balance_of_idle fun j hj => hmem j (List.mem_append_left [i] hj)]
    exact Int.le_refl 0
  declared pre hpre := by
    rw [balance_of_idle fun j hj => h j (hpre.subset hj)]
    exact Int.natCast_nonneg _

theorem run_fragment (is : List Instruction) :
    empty.run [.append (Source.ofInstructions is)] = ⟨is, []⟩ := by
  rw [run_cons, advance_append, run_nil]
  rfl

theorem finish_of_idle {is : List Instruction} (h : ∀ i ∈ is, i.Idle) (stackLength : UInt32) :
    (empty.run [.append (Source.ofInstructions is)]).finish stackLength =
      .ok ⟨[Source.ofInstructions is], [], stackLength, 0⟩ := by
  rw [run_fragment]
  exact finish_of_acceptable (acceptable_of_idle h stackLength)

/-! ## Blobs -/

variable {p : Program} {stackLength : UInt32} {c : StateConfig}

theorem within_of_finish (h : p.finish stackLength = .ok c) {bound : Nat} (hbound : 1 ≤ bound) :
    Schema.config.Within bound c ↔
      2 * p.instructions.length ≤ bound ∧ p.constants.length ≤ bound := by
  obtain ⟨-, rfl⟩ := finish_eq_ok_iff.mp h
  simp only [Schema.Within, List.length_singleton, hbound, true_and, List.forall_mem_singleton,
    Source.length_ofInstructions]

theorem read_back_iff (h : p.finish stackLength = .ok c) :
    Blob.toConfig (Blob.ofConfig c) = .ok c ↔
      p.instructions.length ≤ 500000 ∧ p.constants.length ≤ 1000000 := by
  have hmax : Reader.maxLength = 1000000 := rfl
  rw [Blob.toConfig_eq_ok_iff, and_iff_right rfl, Schema.Readable,
    within_of_finish h (by decide), hmax]
  omega

/-- The blob of a packed program is read back if and only if the program has at most 500000
instructions and 1000000 constants. That of a longer one is refused for the length of a list. -/
theorem packed_read_back (steps : List Step) (stackLength : UInt32) (c : StateConfig)
    (h : (empty.run steps).finish stackLength = .ok c) :
    (Blob.toConfig (Blob.ofConfig c) = .ok c ↔
      (empty.run steps).instructions.length ≤ 500000 ∧
        (empty.run steps).constants.length ≤ 1000000) ∧
    (Schema.config.Addressable c → Blob.toConfig (Blob.ofConfig c) ≠ .ok c →
      ∃ e, Blob.toConfig (Blob.ofConfig c) = .error e ∧
        e.message = "decoding error: length prefix overflow") := by
  refine ⟨read_back_iff h, fun hsized hrefused => ?_⟩
  have hlong : ¬ Schema.config.Readable c :=
    fun hread => hrefused (Blob.toConfig_eq_ok_iff.mpr ⟨rfl, hread⟩)
  exact ⟨_, Blob.toConfig_ofConfig_long hsized hlong, rfl⟩

/-- One instruction more than can be read back. -/
theorem packed_read_back_long :
    let is : List Instruction := List.replicate 500001 (.bare .debug)
    let c : StateConfig := ⟨[Source.ofInstructions is], [], 0, 0⟩
    (empty.run [.append (Source.ofInstructions is)]).finish 0 = .ok c ∧
      ∃ e, Blob.toConfig (Blob.ofConfig c) = .error e ∧
        e.message = "decoding error: length prefix overflow" := by
  intro is c
  have hlen : is.length = 500001 := List.length_replicate
  have h : (empty.run [.append (Source.ofInstructions is)]).finish 0 = .ok c :=
    finish_of_idle (idle_replicate 500001) 0
  obtain ⟨hread, hrefused⟩ := packed_read_back _ 0 c h
  have hsized : Schema.config.Addressable c := by
    rw [Schema.Addressable, within_of_finish h (by decide), run_fragment, hlen]
    decide
  refine ⟨h, hrefused hsized fun hok => ?_⟩
  have hle := (hread.mp hok).1
  rw [run_fragment, hlen] at hle
  exact absurd hle (by decide)

/-- The blob of a packed program is not always read back. -/
theorem read_back_fails :
    ¬ ∀ steps stackLength c, (empty.run steps).finish stackLength = .ok c →
      Blob.toConfig (Blob.ofConfig c) = .ok c := by
  intro hall
  have h := finish_of_idle (idle_replicate 500001) 0
  have hle := ((read_back_iff h).mp (hall _ _ _ h)).1
  rw [run_fragment, List.length_replicate] at hle
  exact absurd hle (by decide)

end Program

end SaleRules
