import SaleRules.CommandLine.Options
import Mathlib.Data.List.Induction

/-!
# Arguments cut into items

An item is an option with the argument behind it, or a positional argument. Every list of arguments
is a list of items followed by nothing or by words that no item starts with, and this alone decides
what is read: the last item of a kind, the positional arguments in their order, or the first reason
to stop.
-/
namespace SaleRules.Options

/-- An option with its argument, or a positional argument. -/
inductive Item where
  | positional (text : String)
  | output (name value : String)
  | index (value : String) (number : UInt64)

namespace Item

def words : Item → List String
  | positional text => [text]
  | output name value => [name, value]
  | index value _ => ["--index", value]

/-- The words of the item are read as this item. -/
def Proper : Item → Prop
  | positional text => text ∉ ["-o", "--output", "--index", "-h", "--help"]
  | output name _ => name ∈ ["-o", "--output"]
  | index value number => Text.uint64? value.toList = some number

def text? : Item → Option String
  | positional text => some text
  | output .. | index .. => none

def file? : Item → Option String
  | output _ value => some value
  | positional _ | index .. => none

def number? : Item → Option UInt64
  | index _ number => some number
  | positional _ | output .. => none

end Item

/-- The positional arguments in their order, and the last option of each kind. -/
def ofItems (items : List Item) : Options where
  positional := items.filterMap Item.text?
  output? := (items.filterMap Item.file?).getLast?
  index? := (items.filterMap Item.number?).getLast?

/-- The words are those of proper items. -/
def Spells (args : List String) (items : List Item) : Prop :=
  args = items.flatMap Item.words ∧ ∀ i ∈ items, i.Proper

/-- Words that no item starts with. -/
inductive Stops : List String → OptionStop → Prop where
  | help {word : String} (more : List String) (h : word ∈ ["-h", "--help"]) :
      Stops (word :: more) .help
  | missing {name : String} (h : name ∈ ["-o", "--output", "--index"]) :
      Stops [name] (.missingArgument name)
  | badIndex {value : String} (more : List String) (h : Text.uint64? value.toList = none) :
      Stops ("--index" :: value :: more) (.badIndex value)

/-! ## Cutting -/

theorem spells_nil : Spells [] [] := ⟨rfl, by simp⟩

theorem Spells.cons {i : Item} (hi : i.Proper) {args : List String} {items : List Item}
    (h : Spells args items) : Spells (i.words ++ args) (i :: items) :=
  ⟨congrArg (i.words ++ ·) h.1, List.forall_mem_cons.mpr ⟨hi, h.2⟩⟩

/-- A word is an option that takes an argument, a request for help, or a positional argument. -/
theorem word_cases (word : String) :
    word ∈ ["-o", "--output"] ∨ word = "--index" ∨ word ∈ ["-h", "--help"] ∨
      (Item.positional word).Proper := by
  by_cases h : (Item.positional word).Proper
  · exact .inr (.inr (.inr h))
  · simp only [Item.Proper, not_not, List.mem_cons, List.not_mem_nil, or_false] at h ⊢
    tauto

theorem exists_cut (args : List String) :
    ∃ items front back, args = front ++ back ∧ Spells front items ∧
      (back = [] ∨ ∃ stop, Stops back stop) := by
  induction args using List.twoStepInduction with
  | nil => exact ⟨[], [], [], rfl, spells_nil, .inl rfl⟩
  | singleton word =>
    rcases word_cases word with h | rfl | h | h
    · exact ⟨[], [], [word], rfl, spells_nil, .inr ⟨_, .missing (by simp at h ⊢; tauto)⟩⟩
    · exact ⟨[], [], _, rfl, spells_nil, .inr ⟨_, .missing (by simp)⟩⟩
    · exact ⟨[], [], [word], rfl, spells_nil, .inr ⟨_, .help [] h⟩⟩
    · exact ⟨[.positional word], [word], [], rfl, spells_nil.cons h, .inl rfl⟩
  | cons_cons word value rest ih ih' =>
    rcases word_cases word with h | rfl | h | h
    · obtain ⟨items, front, back, rfl, hspells, hback⟩ := ih
      exact ⟨_, _, back, rfl, hspells.cons (i := .output word value) h, hback⟩
    · cases hvalue : Text.uint64? value.toList with
      | none => exact ⟨[], [], _, rfl, spells_nil, .inr ⟨_, .badIndex rest hvalue⟩⟩
      | some number =>
        obtain ⟨items, front, back, rfl, hspells, hback⟩ := ih
        exact ⟨_, _, back, rfl, hspells.cons (i := .index value number) hvalue, hback⟩
    · exact ⟨[], [], _, rfl, spells_nil, .inr ⟨_, .help _ h⟩⟩
    · obtain ⟨items, front, back, heq, hspells, hback⟩ := ih' value
      refine ⟨_, _, back, ?_, hspells.cons (i := .positional word) h, hback⟩
      rw [heq]
      rfl

/-! ## Reading -/

/-- The options with one more item. -/
def add (o : Options) : Item → Options
  | .positional text => { o with positional := o.positional ++ [text] }
  | .output _ value => { o with output? := some value }
  | .index _ number => { o with index? := some number }

theorem readFrom_words {i : Item} (hi : i.Proper) (before : Options) (rest : List String) :
    before.readFrom (i.words ++ rest) = (before.add i).readFrom rest := by
  cases i with
  | positional text =>
    simp only [Item.Proper, List.mem_cons, List.not_mem_nil, or_false, not_or] at hi
    cases rest with
    | nil => simp [Item.words, readFrom, isOutput, isIndex, isHelp, add, hi]
    | cons value rest => simp [Item.words, readFrom, isOutput, isIndex, isHelp, add, hi]
  | output name value =>
    have hname : isOutput name = true := by
      simp only [Item.Proper, List.mem_cons, List.not_mem_nil, or_false] at hi
      rcases hi with rfl | rfl <;> rfl
    simp [Item.words, readFrom, hname, add]
  | index value number =>
    have hvalue : Text.uint64? value.toList = some number := hi
    simp [Item.words, readFrom, isOutput, isIndex, hvalue, add]

theorem readFrom_spelled {front : List String} {items : List Item} (h : Spells front items)
    (before : Options) (back : List String) :
    before.readFrom (front ++ back) = (items.foldl add before).readFrom back := by
  obtain ⟨rfl, hitems⟩ := h
  induction items generalizing before with
  | nil => rfl
  | cons i items ih =>
    obtain ⟨hi, hitems⟩ := List.forall_mem_cons.mp hitems
    rw [List.flatMap_cons, List.append_assoc, readFrom_words hi, ih _ hitems, List.foldl_cons]

theorem readFrom_stop {back : List String} {stop : OptionStop} (h : Stops back stop)
    (before : Options) : before.readFrom back = .error stop := by
  cases h with
  | @help word more h =>
    simp only [List.mem_cons, List.not_mem_nil, or_false] at h
    rcases h with rfl | rfl <;> cases more <;> rfl
  | missing h =>
    simp only [List.mem_cons, List.not_mem_nil, or_false] at h
    rcases h with rfl | rfl | rfl <;> rfl
  | badIndex more h => simp [readFrom, isOutput, isIndex, h]

/-- Positional arguments are collected and an option replaces the one of its kind before it. -/
theorem foldl_add (before : Options) (items : List Item) :
    items.foldl add before =
      ⟨before.positional ++ items.filterMap Item.text?,
        (items.filterMap Item.file?).getLast?.or before.output?,
        (items.filterMap Item.number?).getLast?.or before.index?⟩ := by
  induction items generalizing before with
  | nil => simp
  | cons i items ih =>
    rw [List.foldl_cons, ih]
    cases i with
    | positional text => simp [List.filterMap_cons, add, Item.text?, Item.file?, Item.number?]
    | output name value =>
      simp [List.filterMap_cons, add, Item.text?, Item.file?, Item.number?, List.getLast?_cons]
    | index value number =>
      simp [List.filterMap_cons, add, Item.text?, Item.file?, Item.number?, List.getLast?_cons]

theorem read_spelled {front : List String} {items : List Item} (h : Spells front items)
    (back : List String) : read (front ++ back) = (ofItems items).readFrom back := by
  rw [read, readFrom_spelled h, foldl_add]
  simp [empty, ofItems]

/-- Options are read if and only if the arguments are items to their end. -/
theorem read_eq_ok_iff {args : List String} {o : Options} :
    read args = .ok o ↔ ∃ items, Spells args items ∧ o = ofItems items := by
  constructor
  · intro h
    obtain ⟨items, front, back, rfl, hspells, hback⟩ := exists_cut args
    rw [read_spelled hspells] at h
    rcases hback with rfl | ⟨stop, hstop⟩
    · rw [List.append_nil]
      exact ⟨items, hspells, (Except.ok.inj h).symm⟩
    · rw [readFrom_stop hstop] at h
      cases h
  · rintro ⟨items, hspells, rfl⟩
    have h := read_spelled hspells []
    rw [List.append_nil] at h
    exact h

/-- The first words that no item starts with end the reading, whatever follows them. -/
theorem read_eq_error_iff {args : List String} {stop : OptionStop} :
    read args = .error stop ↔
      ∃ items front back, args = front ++ back ∧ Spells front items ∧ Stops back stop := by
  constructor
  · intro h
    obtain ⟨items, front, back, rfl, hspells, hback⟩ := exists_cut args
    rw [read_spelled hspells] at h
    rcases hback with rfl | ⟨stop', hstop⟩
    · cases h
    · rw [readFrom_stop hstop] at h
      exact ⟨items, front, back, rfl, hspells, Except.error.inj h ▸ hstop⟩
  · rintro ⟨items, front, back, rfl, hspells, hstop⟩
    rw [read_spelled hspells, readFrom_stop hstop]

end SaleRules.Options
