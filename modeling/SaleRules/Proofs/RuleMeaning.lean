import SaleRules.Proofs.ConditionMachine
import SaleRules.Proofs.RulePrograms

/-!
# What the rules mean

The program of a rule, run on any machine that does what is documented, says whether the condition
of the rule holds. For a block number the constant is the number before it, so that "greater than"
says "from that block on"; the number before zero is the greatest word, which nothing is above.
-/
namespace SaleRules.Rule

open Machine

variable {m : Machine} {state : ChainState}

/-- The condition of a rule, on the numbers that the words denote. -/
def Holds (state : ChainState) : Rule → Prop
  | afterBlock block => 1 ≤ block.toNat ∧ block.toNat ≤ state.blockNumber.toNat
  | afterTime timestamp => timestamp.toNat < state.blockTimestamp.toNat
  | raiseOrGrace finish extra amount =>
    (finish.toNat < state.blockTimestamp.toNat ∧ state.totalReserveIn.toNat < amount.toNat) ∨
      extra.toNat < state.blockTimestamp.toNat

theorem threshold_lt_iff (block n : Word) :
    (block.wrappingSub (.ofNat 1)).toNat < n.toNat ↔ 1 ≤ block.toNat ∧ block.toNat ≤ n.toNat := by
  have hblock := block.toNat_lt
  have hn := n.toNat_lt
  have hone : (Word.ofNat 1).toNat = 1 := by decide
  rw [Word.toNat_wrappingSub, hone]
  omega

theorem decides_holds (hm : m.Documented) (r : Rule) :
    Decides m state r.constants r.instructions r.peak (r.Holds state) := by
  cases r with
  | afterBlock block =>
    have h : Decides m state (afterBlock block).constants (afterBlock block).instructions 2
        ((block.wrappingSub (.ofNat 1)).toNat < state.blockNumber.toNat) :=
      hm.decides_above rfl hm.blockNumber rfl
    exact h.congr (threshold_lt_iff block state.blockNumber)
  | afterTime timestamp => exact hm.decides_above rfl hm.blockTimestamp rfl
  | raiseOrGrace finish extra amount =>
    have hfinish : Decides m state [finish, extra, amount]
        [.bare .blockTimestamp, ⟨.val, 0⟩, .bare .greaterThan] 2
        (finish.toNat < state.blockTimestamp.toNat) := hm.decides_above rfl hm.blockTimestamp rfl
    have hraised : Decides m state [finish, extra, amount]
        [.bare .totalReserveIn, ⟨.val, 2⟩, .bare .lessThan] 2
        (state.totalReserveIn.toNat < amount.toNat) := hm.decides_below rfl hm.totalReserveIn rfl
    have hextra : Decides m state [finish, extra, amount]
        [.bare .blockTimestamp, ⟨.val, 1⟩, .bare .greaterThan] 2
        (extra.toNat < state.blockTimestamp.toNat) := hm.decides_above rfl hm.blockTimestamp rfl
    exact hm.decides_or (hm.decides_and hfinish hraised) hextra

/-- Every rule is packed to a program that runs on the empty stack to its last instruction within
the declared slots and leaves one value, other than zero exactly if the rule's condition holds. -/
theorem config_decides (m : Machine) (hm : m.Documented) (state : ChainState) (r : Rule) :
    ∃ c entry is result, r.config = .ok c ∧ c.entry? = some entry ∧
      entry.instructions = .ok is ∧
      m.run state c.constants c.stackLength.toNat is [] = .ok [result] ∧
      (result.toNat ≠ 0 ↔ r.Holds state) := by
  obtain ⟨result, hrun, hresult⟩ := decides_holds hm r r.stackLength.toNat []
    (Nat.le_trans (Nat.le_of_eq (Nat.zero_add _)) r.peak_le)
  exact ⟨_, _, r.instructions, result, r.config_eq, rfl, Source.instructions_ofInstructions _, hrun,
    hresult⟩

/-- Late but short of the amount, the sale may be closed; from block zero on, never. -/
theorem config_decides_plain :
    let state : ChainState := ⟨.ofNat 7, .ofNat 1500, .ofNat 499⟩
    let late : Rule := .raiseOrGrace (.ofNat 1000) (.ofNat 2000) (.ofNat 500)
    plain.Documented ∧ late.Holds state ∧ ¬ (afterBlock .zero).Holds state ∧
      (∃ c entry is result, late.config = .ok c ∧ c.entry? = some entry ∧
        entry.instructions = .ok is ∧
        plain.run state c.constants c.stackLength.toNat is [] = .ok [result] ∧
        result.toNat ≠ 0) ∧
      ∃ c entry is result, (afterBlock .zero).config = .ok c ∧ c.entry? = some entry ∧
        entry.instructions = .ok is ∧
        plain.run state c.constants c.stackLength.toNat is [] = .ok [result] ∧
        result.toNat = 0 := by
  intro state late
  have hlate : late.Holds state := .inl (by decide)
  have hzero : ¬ (afterBlock .zero).Holds state := fun h => absurd h.1 (by decide)
  refine ⟨plain_documented, hlate, hzero, ?_, ?_⟩
  · obtain ⟨c, entry, is, result, hc, hentry, his, hrun, hresult⟩ :=
      config_decides plain plain_documented state late
    exact ⟨c, entry, is, result, hc, hentry, his, hrun, hresult.mpr hlate⟩
  · obtain ⟨c, entry, is, result, hc, hentry, his, hrun, hresult⟩ :=
      config_decides plain plain_documented state (afterBlock .zero)
    exact ⟨c, entry, is, result, hc, hentry, his, hrun, not_not.mp (mt hresult.mp hzero)⟩

end SaleRules.Rule
