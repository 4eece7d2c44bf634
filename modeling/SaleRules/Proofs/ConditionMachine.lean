import SaleRules.Proofs.StackBalance
import SaleRules.Proofs.WordColumns

/-!
# The machine that evaluates conditions

The machine belongs to the contract. What is assumed of it here is what the instructions are
documented to do, and only for the few that a rule is made of; on all others, and on a stack that an
instruction does not find what it needs on, a machine may do anything. A run keeps watch over the
stack: it ends at an instruction that pops more than there is and at a stack above the declared
length.

A condition is a list of instructions that leaves one more value on any stack. Conditions are put
together from comparisons by instructions that join the two values on top.
-/
namespace SaleRules

/-- What the machine reads from the chain and from the sale. -/
structure ChainState where
  blockNumber : Word
  blockTimestamp : Word
  totalReserveIn : Word
  deriving DecidableEq, Repr

/-- The values on a stack, the one pushed last at the end. -/
abbrev Stack := List Word

/-- The stack that an instruction leaves, over a table of constants, unless it is refused. -/
abbrev Machine := ChainState → List Word → Instruction → Stack → Option Stack

namespace Word

def ofBool (b : Bool) : Word := if b then ofNat 1 else zero

def isTrue (w : Word) : Bool := !w.isZero

/-- The first of the values if none of them is zero, and zero otherwise. -/
def every (values : List Word) : Word := if values.all isTrue then values.headD zero else zero

/-- The first of the values that is not zero, and zero if there is none. -/
def any (values : List Word) : Word := (values.find? isTrue).getD zero

theorem isTrue_iff {w : Word} : w.isTrue = true ↔ w.toNat ≠ 0 := by
  rw [isTrue, Bool.not_eq_true', ← Bool.not_eq_true, isZero_iff]

theorem ofBool_ne_zero {b : Bool} : (ofBool b).toNat ≠ 0 ↔ b = true := by
  cases b with
  | false => simp [ofBool, toNat_zero]
  | true => simp [ofBool, show (ofNat 1).toNat = 1 by decide]

theorem every_ne_zero {values : List Word} (h : values ≠ []) :
    (every values).toNat ≠ 0 ↔ ∀ w ∈ values, w.toNat ≠ 0 := by
  rw [every]
  split
  · next hall =>
    simp only [List.all_eq_true, isTrue_iff] at hall
    cases values with
    | nil => exact absurd rfl h
    | cons w ws => exact iff_of_true (hall w List.mem_cons_self) hall
  · next hall =>
    simp only [List.all_eq_true, isTrue_iff] at hall
    exact iff_of_false (not_not_intro toNat_zero) hall

theorem any_ne_zero {values : List Word} :
    (any values).toNat ≠ 0 ↔ ∃ w ∈ values, w.toNat ≠ 0 := by
  rw [any]
  cases hfind : values.find? isTrue with
  | none =>
    have hnone := List.find?_eq_none.mp hfind
    simp only [isTrue_iff] at hnone
    refine iff_of_false (not_not_intro toNat_zero) ?_
    rintro ⟨w, hw, hne⟩
    exact hnone w hw hne
  | some w =>
    have hne : w.toNat ≠ 0 := isTrue_iff.mp (List.find?_some hfind)
    exact iff_of_true hne ⟨w, List.mem_of_find?_eq_some hfind, hne⟩

end Word

namespace Machine

/-! ## What is documented -/

/-- The instruction pushes a value of the chain or the sale. -/
def Reads (m : Machine) (opcode : Opcode) (value : ChainState → Word) : Prop :=
  ∀ state constants stack, m state constants (.bare opcode) stack = some (stack ++ [value state])

/-- The instruction replaces two numbers, the first of them pushed first, by one if they are related
and by zero if they are not. -/
def Compares (m : Machine) (opcode : Opcode) (related : Nat → Nat → Bool) : Prop :=
  ∀ state constants stack (a b : Word), m state constants (.bare opcode) (stack ++ [a, b]) =
    some (stack ++ [.ofBool (related a.toNat b.toNat)])

/-- The instruction replaces as many values as its operand says by one. The first of them is not
said to be the first pushed or the first popped, so they may be counted in any order. -/
def Joins (m : Machine) (opcode : Opcode) (joined : List Word → Word) : Prop :=
  ∀ state constants stack (operand : UInt8) (values : List Word), values ≠ [] →
    values.length = operand.toNat → ∃ counted : List Word, counted.Perm values ∧
      m state constants ⟨opcode, operand⟩ (stack ++ values) = some (stack ++ [joined counted])

/-- What the documentation of the instructions says of a machine. -/
structure Documented (m : Machine) : Prop where
  val : ∀ state constants stack (index : UInt8) w, constants[index.toNat]? = some w →
    m state constants ⟨.val, index⟩ stack = some (stack ++ [w])
  blockNumber : m.Reads .blockNumber (·.blockNumber)
  blockTimestamp : m.Reads .blockTimestamp (·.blockTimestamp)
  totalReserveIn : m.Reads .totalReserveIn (·.totalReserveIn)
  greaterThan : m.Compares .greaterThan fun a b => decide (b < a)
  lessThan : m.Compares .lessThan fun a b => decide (a < b)
  every : m.Joins .every Word.every
  any : m.Joins .any Word.any

/-! ## Runs -/

/-- Why a run ends before its last instruction. -/
inductive Fault where
  | underflow
  | overflow
  | refused
  deriving DecidableEq, Repr

/-- The stack behind the instructions, as long as every one finds what it pops and leaves no more
than `slots` values. -/
def run (m : Machine) (state : ChainState) (constants : List Word) (slots : Nat) :
    List Instruction → Stack → Except Fault Stack
  | [], stack => .ok stack
  | i :: is, stack =>
    if stack.length < i.pops then .error .underflow
    else
      match m state constants i stack with
      | none => .error .refused
      | some next =>
        if slots < next.length then .error .overflow else m.run state constants slots is next

variable {m : Machine} {state : ChainState} {constants : List Word} {slots : Nat}

theorem run_append (is js : List Instruction) (stack : Stack) :
    m.run state constants slots (is ++ js) stack =
      (m.run state constants slots is stack).bind (m.run state constants slots js) := by
  induction is generalizing stack with
  | nil => rfl
  | cons i is ih =>
    simp only [List.cons_append, run]
    split
    · rfl
    · split
      · rfl
      · split
        · rfl
        · exact ih _

theorem run_replace {i : Instruction} {stack popped : Stack} {w : Word}
    (hpops : i.pops = popped.length)
    (hstep : m state constants i (stack ++ popped) = some (stack ++ [w]))
    (hroom : stack.length + 1 ≤ slots) (is : List Instruction) :
    m.run state constants slots (i :: is) (stack ++ popped) =
      m.run state constants slots is (stack ++ [w]) := by
  have hheld : ¬ (stack ++ popped).length < i.pops := by
    rw [List.length_append]
    omega
  have hfits : ¬ slots < (stack ++ [w]).length := by
    rw [List.length_append, List.length_singleton]
    omega
  simp only [run, if_neg hheld, hstep, if_neg hfits]

theorem run_push {i : Instruction} {stack : Stack} {w : Word} (hpops : i.pops = 0)
    (hstep : m state constants i stack = some (stack ++ [w])) (hroom : stack.length + 1 ≤ slots)
    (is : List Instruction) :
    m.run state constants slots (i :: is) stack =
      m.run state constants slots is (stack ++ [w]) := by
  have hstep' : m state constants i (stack ++ []) = some (stack ++ [w]) := by
    rwa [List.append_nil]
  have h := run_replace hpops hstep' hroom is
  rwa [List.append_nil] at h

/-! ## Conditions -/

/-- On every stack with `room` slots to spare the instructions push one value, which is other than
zero exactly if the condition holds. -/
def Decides (m : Machine) (state : ChainState) (constants : List Word) (is : List Instruction)
    (room : Nat) (condition : Prop) : Prop :=
  ∀ slots stack, stack.length + room ≤ slots →
    ∃ w, m.run state constants slots is stack = .ok (stack ++ [w]) ∧ (w.toNat ≠ 0 ↔ condition)

theorem Decides.congr {is : List Instruction} {room : Nat} {P Q : Prop}
    (h : Decides m state constants is room P) (hPQ : P ↔ Q) :
    Decides m state constants is room Q := by
  intro slots stack hroom
  obtain ⟨w, hrun, hw⟩ := h slots stack hroom
  exact ⟨w, hrun, hw.trans hPQ⟩

namespace Documented

/-- A value that is read, a constant, and a comparison of the two. -/
theorem decides_comparison (hm : m.Documented) {reader comparison : Opcode}
    {value : ChainState → Word} {related : Nat → Nat → Bool} {index : UInt8} {w : Word}
    (hreader : reader.effect = .fixed 0 1) (hreads : m.Reads reader value)
    (hcomparison : comparison.effect = .fixed 2 1) (hcompares : m.Compares comparison related)
    (hw : constants[index.toNat]? = some w) :
    Decides m state constants [.bare reader, ⟨.val, index⟩, .bare comparison] 2
      (related (value state).toNat w.toNat = true) := by
  intro slots stack hroom
  have hread : (Instruction.bare reader).pops = 0 := by
    simp only [Instruction.pops, Instruction.bare, hreader]
  have hcompare : (Instruction.bare comparison).pops = 2 := by
    simp only [Instruction.pops, Instruction.bare, hcomparison]
  have hlength : (stack ++ [value state]).length = stack.length + 1 := List.length_append
  refine ⟨.ofBool (related (value state).toNat w.toNat), ?_, Word.ofBool_ne_zero⟩
  calc m.run state constants slots [.bare reader, ⟨.val, index⟩, .bare comparison] stack
      = m.run state constants slots [⟨.val, index⟩, .bare comparison] (stack ++ [value state]) :=
        run_push hread (hreads state constants stack) (by omega) _
    _ = m.run state constants slots [.bare comparison] (stack ++ [value state] ++ [w]) :=
        run_push rfl (hm.val state constants _ index w hw) (by omega) _
    _ = m.run state constants slots [.bare comparison] (stack ++ [value state, w]) := by
        rw [List.append_assoc, List.singleton_append]
    _ = .ok (stack ++ [.ofBool (related (value state).toNat w.toNat)]) :=
        run_replace hcompare (hcompares state constants stack _ w) (by omega) []

theorem decides_above (hm : m.Documented) {reader : Opcode} {value : ChainState → Word}
    {index : UInt8} {w : Word} (hreader : reader.effect = .fixed 0 1)
    (hreads : m.Reads reader value) (hw : constants[index.toNat]? = some w) :
    Decides m state constants [.bare reader, ⟨.val, index⟩, .bare .greaterThan] 2
      (w.toNat < (value state).toNat) :=
  (hm.decides_comparison hreader hreads rfl hm.greaterThan hw).congr decide_eq_true_iff

theorem decides_below (hm : m.Documented) {reader : Opcode} {value : ChainState → Word}
    {index : UInt8} {w : Word} (hreader : reader.effect = .fixed 0 1)
    (hreads : m.Reads reader value) (hw : constants[index.toNat]? = some w) :
    Decides m state constants [.bare reader, ⟨.val, index⟩, .bare .lessThan] 2
      ((value state).toNat < w.toNat) :=
  (hm.decides_comparison hreader hreads rfl hm.lessThan hw).congr decide_eq_true_iff

/-- Two conditions after one another, and an instruction that joins their values. -/
theorem run_joined {is js : List Instruction} {room room' : Nat} {P Q : Prop} {opcode : Opcode}
    {joined : List Word → Word} (hopcode : opcode.effect = .byOperand)
    (hjoins : m.Joins opcode joined)
    (hP : Decides m state constants is room P) (hQ : Decides m state constants js room' Q)
    {stack : Stack} (hroom : stack.length + max room (room' + 1) ≤ slots) :
    ∃ v w counted, (v.toNat ≠ 0 ↔ P) ∧ (w.toNat ≠ 0 ↔ Q) ∧ counted.Perm [v, w] ∧
      m.run state constants slots (is ++ (js ++ [⟨opcode, 2⟩])) stack =
        .ok (stack ++ [joined counted]) := by
  have hpops : (Instruction.mk opcode 2).pops = 2 := by
    simp only [Instruction.pops, hopcode]
    rfl
  obtain ⟨v, hrunP, hv⟩ := hP slots stack (by omega)
  -- the second condition runs above the value of the first, so it has one slot less
  have hlength : (stack ++ [v]).length = stack.length + 1 := List.length_append
  obtain ⟨w, hrunQ, hw⟩ := hQ slots (stack ++ [v]) (by omega)
  obtain ⟨counted, hperm, hstep⟩ := hjoins state constants stack 2 [v, w] (by simp) rfl
  refine ⟨v, w, counted, hv, hw, hperm, ?_⟩
  rw [run_append, hrunP, Except.bind, run_append, hrunQ, Except.bind, List.append_assoc,
    List.singleton_append, run_replace hpops hstep (by omega)]
  rfl

theorem decides_and (hm : m.Documented) {is js : List Instruction} {room room' : Nat} {P Q : Prop}
    (hP : Decides m state constants is room P) (hQ : Decides m state constants js room' Q) :
    Decides m state constants (is ++ (js ++ [⟨.every, 2⟩])) (max room (room' + 1)) (P ∧ Q) := by
  intro slots stack hroom
  obtain ⟨v, w, counted, hv, hw, hperm, hrun⟩ := run_joined rfl hm.every hP hQ hroom
  have hne : counted ≠ [] := fun h => by simp [h] at hperm
  refine ⟨.every counted, hrun, ?_⟩
  rw [Word.every_ne_zero hne]
  simp only [hperm.mem_iff, List.mem_cons, List.not_mem_nil, or_false, forall_eq_or_imp, forall_eq,
    hv, hw]

theorem decides_or (hm : m.Documented) {is js : List Instruction} {room room' : Nat} {P Q : Prop}
    (hP : Decides m state constants is room P) (hQ : Decides m state constants js room' Q) :
    Decides m state constants (is ++ (js ++ [⟨.any, 2⟩])) (max room (room' + 1)) (P ∨ Q) := by
  intro slots stack hroom
  obtain ⟨v, w, counted, hv, hw, hperm, hrun⟩ := run_joined rfl hm.any hP hQ hroom
  refine ⟨.any counted, hrun, ?_⟩
  rw [Word.any_ne_zero]
  simp only [hperm.mem_iff, List.mem_cons, List.not_mem_nil, or_false, exists_eq_or_imp,
    exists_eq_left, hv, hw]

end Documented

/-! ## A machine that does what is documented -/

/-- Replaces the top `n` values by one. -/
def replaceTop (n : Nat) (f : List Word → Word) (stack : Stack) : Option Stack :=
  if n ≤ stack.length then
    some (stack.take (stack.length - n) ++ [f (stack.drop (stack.length - n))])
  else none

def relate (related : Nat → Nat → Bool) : List Word → Word
  | [a, b] => .ofBool (related a.toNat b.toNat)
  | _ => .zero

/-- Values are counted from the one pushed first; instructions that no rule uses are refused. -/
def plain : Machine := fun state constants i stack =>
  match i.opcode with
  | .val => constants[i.operand.toNat]?.map (stack ++ [·])
  | .blockNumber => some (stack ++ [state.blockNumber])
  | .blockTimestamp => some (stack ++ [state.blockTimestamp])
  | .totalReserveIn => some (stack ++ [state.totalReserveIn])
  | .greaterThan => replaceTop 2 (relate fun a b => decide (b < a)) stack
  | .lessThan => replaceTop 2 (relate fun a b => decide (a < b)) stack
  | .every => replaceTop i.operand.toNat Word.every stack
  | .any => replaceTop i.operand.toNat Word.any stack
  | _ => none

theorem replaceTop_append (f : List Word → Word) (stack : Stack) (values : List Word) :
    replaceTop values.length f (stack ++ values) = some (stack ++ [f values]) := by
  have hlength : (stack ++ values).length - values.length = stack.length := by
    rw [List.length_append, Nat.add_sub_cancel]
  rw [replaceTop, if_pos (by simp), hlength, List.take_left, List.drop_left]

theorem plain_documented : plain.Documented where
  val state constants stack index w hw := by simp only [plain, hw, Option.map_some]
  blockNumber _ _ _ := rfl
  blockTimestamp _ _ _ := rfl
  totalReserveIn _ _ _ := rfl
  greaterThan _ _ stack a b := replaceTop_append (relate _) stack [a, b]
  lessThan _ _ stack a b := replaceTop_append (relate _) stack [a, b]
  every _ _ stack operand values _ hlength := by
    refine ⟨values, .refl values, ?_⟩
    simp only [plain, ← hlength, replaceTop_append]
  any _ _ stack operand values _ hlength := by
    refine ⟨values, .refl values, ?_⟩
    simp only [plain, ← hlength, replaceTop_append]

end Machine

end SaleRules
