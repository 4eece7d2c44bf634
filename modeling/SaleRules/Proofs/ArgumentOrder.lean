import SaleRules.Proofs.InvocationCourses

/-!
# The order of arguments

Of the arguments behind a command only the order within a kind counts: that of the positional
arguments, of the named files and of the indices. Options may therefore stand anywhere among the
positional arguments. Reading ends at the first words that no item starts with, and the run then
ends with them: nothing behind them is looked at, and the command is not looked up.
-/
namespace SaleRules

namespace Options

inductive Kind where
  | positional | output | index
  deriving DecidableEq, Repr

namespace Item

def kind : Item → Kind
  | positional _ => .positional
  | output .. => .output
  | index .. => .index

end Item

/-- Each kind of item stands in the same order. -/
def SameOrder (items items' : List Item) : Prop :=
  ∀ kind, items.filter (·.kind = kind) = items'.filter (·.kind = kind)

variable {items items' : List Item}

/-- What is kept of one kind only can be kept from the items of this kind. -/
theorem filterMap_filter_kind {α : Type} {kind : Kind} {f : Item → Option α}
    (hf : ∀ i : Item, i.kind ≠ kind → f i = none) (items : List Item) :
    (items.filter (·.kind = kind)).filterMap f = items.filterMap f := by
  rw [List.filterMap_filter]
  refine congrArg (List.filterMap · items) (funext fun i => ?_)
  by_cases hi : i.kind = kind
  · simp [hi]
  · simp [hi, hf i hi]

theorem SameOrder.filterMap_eq {α : Type} (h : SameOrder items items') {kind : Kind}
    {f : Item → Option α} (hf : ∀ i : Item, i.kind ≠ kind → f i = none) :
    items.filterMap f = items'.filterMap f := by
  rw [← filterMap_filter_kind hf items, h kind, filterMap_filter_kind hf items']

theorem Item.text?_of_kind {i : Item} (h : i.kind ≠ .positional) : i.text? = none := by
  cases i with
  | positional => exact absurd rfl h
  | output | index => rfl

theorem Item.file?_of_kind {i : Item} (h : i.kind ≠ .output) : i.file? = none := by
  cases i with
  | output => exact absurd rfl h
  | positional | index => rfl

theorem Item.number?_of_kind {i : Item} (h : i.kind ≠ .index) : i.number? = none := by
  cases i with
  | index => exact absurd rfl h
  | positional | output => rfl

theorem SameOrder.ofItems_eq (h : SameOrder items items') : ofItems items = ofItems items' := by
  rw [ofItems, ofItems, h.filterMap_eq fun _ => Item.text?_of_kind,
    h.filterMap_eq fun _ => Item.file?_of_kind,
    h.filterMap_eq fun _ => Item.number?_of_kind]

theorem SameOrder.proper (h : SameOrder items items') (hitems : ∀ i ∈ items, i.Proper) :
    ∀ i ∈ items', i.Proper := by
  intro i hi
  have hmem : i ∈ items'.filter (·.kind = i.kind) := List.mem_filter.mpr ⟨hi, by simp⟩
  rw [← h i.kind] at hmem
  exact hitems i (List.mem_filter.mp hmem).1

theorem read_words (h : ∀ i ∈ items, i.Proper) :
    read (items.flatMap Item.words) = .ok (ofItems items) :=
  read_eq_ok_iff.mpr ⟨items, ⟨rfl, h⟩, rfl⟩

theorem SameOrder.read_eq (h : SameOrder items items') (hitems : ∀ i ∈ items, i.Proper) :
    read (items.flatMap Item.words) = read (items'.flatMap Item.words) := by
  rw [read_words hitems, read_words (h.proper hitems), h.ofItems_eq]

end Options

namespace Invocation

open Options

variable {inv : Invocation} {name : String}

/-- Of the arguments behind the command a run depends on what they are read as. -/
theorem plan_congr {program : String} {rest rest' : List String}
    (h : Options.read rest = Options.read rest') :
    (Invocation.mk program (name :: rest)).plan = (Invocation.mk program (name :: rest')).plan := by
  simp only [plan, h]
  rfl

/-- The run fails with the text of an error: nothing is printed, all files stay as they are, and the
error stream reports the error, behind what there is to say about the settings. -/
structure FailsWith (inv : Invocation) (env : Environment) (stamp : String) (d : Directory)
    (text : String) : Prop where
  outcome : inv.runIn env stamp d =
    (⟨1, "", LogSettings.errorText env stamp [.record .error text]⟩, d)
  reported : env.Reports stamp text (inv.runIn env stamp d).1.errors

/-- Where the options stop a run they stop it before the command is looked up. -/
theorem runIn_of_stop {items : List Item} {back : List String} {stop : OptionStop}
    (hitems : ∀ i ∈ items, i.Proper) (hname : name ∉ ["-h", "--help"])
    (harguments : inv.arguments = name :: (items.flatMap Item.words ++ back))
    (hstop : Stops back stop) (env : Environment) (stamp : String) (d : Directory) :
    inv.runIn env stamp d =
      (⟨(inv.stopReport stop).exitCode, (inv.stopReport stop).output,
        LogSettings.errorText env stamp (inv.stopReport stop).messages⟩, d) := by
  have hread : Options.read (items.flatMap Item.words ++ back) = .error stop :=
    read_eq_error_iff.mpr ⟨items, _, back, rfl, ⟨rfl, hitems⟩, hstop⟩
  rw [runIn, plan_of_stop harguments (mt isHelp_iff.mp hname) hread]
  rfl

theorem failsWith_of_stop (cause : CommandError) {items : List Item} {back : List String}
    {stop : OptionStop} (hitems : ∀ i ∈ items, i.Proper) (hname : name ∉ ["-h", "--help"])
    (harguments : inv.arguments = name :: (items.flatMap Item.words ++ back))
    (hstop : Stops back stop) (hcause : inv.stopReport stop = .ofError cause) (env : Environment)
    (stamp : String) (d : Directory) : inv.FailsWith env stamp d cause.message := by
  have hrun := runIn_of_stop hitems hname harguments hstop env stamp d
  rw [hcause] at hrun
  refine ⟨hrun, ?_⟩
  rw [hrun]
  exact LogSettings.reports_errorText (List.mem_singleton_self _)

/-- Arguments that are items to their end are read item by item: the positional ones in their order,
and of the options of a kind the last, whatever its value looks like. So items of different kinds
may change places, and the run stays the same. Items may be followed by a request for help, by an
option without its argument at the very end, or by an index that is none; then this alone decides
how the run ends, whatever stands behind it and whichever command was called: the usage is printed,
or the error is reported. -/
theorem arguments_decide :
    (∀ items : List Item, (∀ i ∈ items, i.Proper) →
      Options.read (items.flatMap Item.words) = .ok
        ⟨items.filterMap Item.text?, (items.filterMap Item.file?).getLast?,
          (items.filterMap Item.number?).getLast?⟩) ∧
    (∀ items items' : List Item, (∀ i ∈ items, i.Proper) → SameOrder items items' →
      Options.read (items.flatMap Item.words) = Options.read (items'.flatMap Item.words) ∧
      ∀ program name, (Invocation.mk program (name :: items.flatMap Item.words)).plan =
        (Invocation.mk program (name :: items'.flatMap Item.words)).plan) ∧
    ∀ (inv : Invocation) (name : String) (items : List Item) (back : List String),
      (∀ i ∈ items, i.Proper) → name ∉ ["-h", "--help"] →
      inv.arguments = name :: (items.flatMap Item.words ++ back) →
      ∀ (env : Environment) (stamp : String) (d : Directory),
        (∀ word more, word ∈ ["-h", "--help"] → back = word :: more →
          inv.runIn env stamp d =
            (⟨0, usage inv.program, LogSettings.errorText env stamp []⟩, d) ∧
          IsUsage inv.program (usage inv.program)) ∧
        (∀ option, option ∈ ["-o", "--output", "--index"] → back = [option] →
          inv.FailsWith env stamp d (option ++ " requires an argument")) ∧
        ∀ value more, Text.uint64? value.toList = none → back = "--index" :: value :: more →
          inv.FailsWith env stamp d ("Invalid index: '" ++ value ++ "' is not a valid number") := by
  refine ⟨fun items => read_words, fun items items' hitems horder => ?_, ?_⟩
  · have hread := horder.read_eq hitems
    exact ⟨hread, fun program name => plan_congr hread⟩
  · intro inv name items back hitems hname harguments env stamp d
    refine ⟨?_, ?_, ?_⟩
    · rintro word more hword rfl
      exact ⟨runIn_of_stop hitems hname harguments (.help more hword) env stamp d,
        isUsage_usage inv.program⟩
    · rintro option hoption rfl
      exact failsWith_of_stop (.missingArgument option) hitems hname harguments
        (.missing hoption) rfl env stamp d
    · rintro value more hvalue rfl
      exact failsWith_of_stop (.badIndex value) hitems hname harguments
        (.badIndex more hvalue) rfl env stamp d

/-- The last file is named like an option; an unknown command is not found out, as `-h` stands in
the place of an index. -/
theorem arguments_decide_mixed :
    let items : List Item := [.output "-o" "f", .positional "1", .index "+07" 7,
      .output "--output" "--help", .positional "2"]
    let items' : List Item := [.positional "1", .index "+07" 7, .positional "2", .output "-o" "f",
      .output "--output" "--help"]
    let back : List String := ["--index", "-h", "--help"]
    let inv : Invocation := ⟨"salegate", "none" :: (items.flatMap Item.words ++ back)⟩
    (∀ i ∈ items, i.Proper) ∧ SameOrder items items' ∧ "none" ∉ ["-h", "--help"] ∧
      Text.uint64? "-h".toList = none ∧
      Options.read (items'.flatMap Item.words) = .ok ⟨["1", "2"], some "--help", some 7⟩ ∧
      (∀ env stamp d, inv.FailsWith env stamp d
        ("Invalid index: '" ++ "-h" ++ "' is not a valid number")) ∧
      ∀ d, inv.runIn ⟨none, none, none, none⟩ "12:00" d =
        (⟨1, "", "12:00 [ERROR] Invalid index: '-h' is not a valid number\n"⟩, d) := by
  intro items items' back inv
  have hindex : Text.uint64? ['+', '0', '7'] = some 7 := by decide
  have hitems : ∀ i ∈ items, i.Proper := by simp [items, Item.Proper, hindex]
  have horder : SameOrder items items' := by
    intro kind
    cases kind with
    | positional | output | index => rfl
  have hname : "none" ∉ ["-h", "--help"] := by decide
  have hvalue : Text.uint64? "-h".toList = none := by decide
  obtain ⟨hread, hmoved, hstop⟩ := arguments_decide
  have hfails : ∀ env stamp d, inv.FailsWith env stamp d
      ("Invalid index: '" ++ "-h" ++ "' is not a valid number") := by
    intro env stamp d
    exact (hstop inv "none" items back hitems hname rfl env stamp d).2.2 "-h" _ hvalue rfl
  have herrors : LogSettings.errorText ⟨none, none, none, none⟩ "12:00"
      [.record .error ("Invalid index: '" ++ "-h" ++ "' is not a valid number")] =
        "12:00 [ERROR] Invalid index: '-h' is not a valid number\n" := by decide +kernel
  refine ⟨hitems, horder, hname, hvalue, ?_, hfails, fun d => ?_⟩
  · rw [← (hmoved items items' hitems horder).1]
    exact hread items hitems
  · rw [(hfails _ _ d).outcome, herrors]

end Invocation

end SaleRules
