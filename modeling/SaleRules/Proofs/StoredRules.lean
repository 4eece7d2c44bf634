import SaleRules.Proofs.FilesKept
import SaleRules.Proofs.WordValues

/-!
# Rules between two runs

What one run builds and stores, another shows again: the tuple, the program if it is a shape, and
the parameter at an index. The numbers that were given come back as their shortest numerals, however
they were spelled.
-/
namespace SaleRules

/-- The lines on a word that is the parameter at an index. -/
def Word.shown (w : Word) (index : Nat) : String :=
  let numeral := Text.decimal w.toNat
  let seconds := if w.toNat < 2 ^ 64 then numeral else "(does not fit in 64 bits)"
  let date :=
    if w.toNat ≤ Moment.lastSecond then
      "date:      " ++ (Moment.ofSeconds w.toNat).text ++ "\n"
    else ""
  "constant[" ++ Text.decimal index ++ "]: " ++ numeral ++ "\n" ++
    "seconds:   " ++ seconds ++ "\n" ++ date

namespace StateConfig

variable {c : StateConfig} {index : Nat} {w : Word}

theorem seconds?_of_parameter (h : c.parameter? index = some w) :
    c.seconds? index = if w.toNat < 2 ^ 64 then some (UInt64.ofNat w.toNat) else none := by
  rw [seconds?, h, Option.bind_some, Word.toUInt64?_eq]

/-- All the seconds that have a date are 64-bit integers. -/
theorem date?_of_parameter (h : c.parameter? index = some w) :
    c.date? index =
      if w.toNat ≤ Moment.lastSecond then some (Moment.ofSeconds w.toNat) else none := by
  rw [date?, h, Option.bind_some, Word.toInt64?_eq]
  by_cases hlt : w.toNat < 2 ^ 63
  · rw [if_pos hlt, Option.bind_some, Int64.toInt_ofNat_of_lt hlt, Int.toNat_natCast]
    rfl
  · have hgt : ¬ w.toNat ≤ Moment.lastSecond := by
      rw [Moment.lastSecond]
      omega
    rw [if_neg hlt, if_neg hgt]
    rfl

end StateConfig

theorem Command.parameterText_eq {c : StateConfig} {index : Nat} {w : Word}
    (h : c.parameter? index = some w) : parameterText c index w = w.shown index := by
  delta parameterText Word.shown
  rw [StateConfig.seconds?_of_parameter h, StateConfig.date?_of_parameter h, Word.decimal_eq]
  by_cases hseconds : w.toNat < 2 ^ 64
  · by_cases hdate : w.toNat ≤ Moment.lastSecond
    · simp only [if_pos hseconds, if_pos hdate, UInt64.toNat_ofNat_of_lt' hseconds]
    · simp only [if_pos hseconds, if_neg hdate, UInt64.toNat_ofNat_of_lt' hseconds]
  · have hdate : ¬ w.toNat ≤ Moment.lastSecond := by
      rw [Moment.lastSecond]
      omega
    simp only [if_neg hseconds, if_neg hdate]

namespace Rule

/-- The numbers that a rule is given, in their order. -/
def parameters : Rule → List Word
  | afterBlock block => [block]
  | afterTime timestamp => [timestamp]
  | raiseOrGrace finish extra amount => [finish, extra, amount]

/-- The shape that the program of a rule has. -/
def shape? : Rule → Option Fingerprint
  | afterBlock _ => none
  | afterTime _ => some .afterTime
  | raiseOrGrace .. => some .raiseOrGrace

/-- The lines on a word of a list, if there is one at the index. -/
def shownOf (parameters : List Word) (index : Nat) : String :=
  (parameters[index]?.map (·.shown index)).getD ""

/-- What is shown of a rule behind the tuple of its config: the name of its program, the phase that
it gates with those that can follow, and the number at the index among those that it was given. -/
def shown : Rule → Nat → String
  | afterBlock _, _ => ""
  | afterTime timestamp, index =>
    "program:   after-timestamp\n" ++ "gates:     Pending -> Active\n" ++ shownOf [timestamp] index
  | raiseOrGrace finish extra amount, index =>
    "program:   after-timestamp-end-with-raise-or-grace\n" ++
      "gates:     Active -> Success | Fail\n" ++ shownOf [finish, extra, amount] index

/-- What is shown of a rule that has a shape is the lines on the shape and the parameter. -/
theorem shown_of_shape {r : Rule} {f : Fingerprint} (h : r.shape? = some f) (index : Nat) :
    r.shown index = Command.shapeText f ++ shownOf r.parameters index := by
  have hshape : Command.shapeText .afterTime =
      "program:   after-timestamp\n" ++ "gates:     Pending -> Active\n" := by decide +kernel
  have hshape' : Command.shapeText .raiseOrGrace =
      "program:   after-timestamp-end-with-raise-or-grace\n" ++
        "gates:     Active -> Success | Fail\n" := by decide +kernel
  cases r with
  | afterBlock block => cases h
  | afterTime timestamp =>
    cases h
    delta shown parameters
    rw [hshape]
  | raiseOrGrace finish extra amount =>
    cases h
    delta shown parameters
    rw [hshape']

theorem shown_of_none {r : Rule} (h : r.shape? = none) (index : Nat) : r.shown index = "" := by
  cases r with
  | afterBlock block => rfl
  | afterTime | raiseOrGrace => cases h

theorem packed_shape (r : Rule) :
    r.packed.Shows r.shape? (r.shape?.elim [] fun _ => r.parameters) := by
  cases r with
  | afterBlock block => exact packed_shows_nothing block
  | afterTime timestamp => exact packed_shows rfl
  | raiseOrGrace finish extra amount => exact packed_shows rfl

theorem describe_packed (r : Rule) (index : Nat) :
    (Command.describe r.packed index).exitCode = 0 ∧
      (Command.describe r.packed index).output = r.packed.text ++ "\n" ++ r.shown index := by
  obtain ⟨hshape, hparameters⟩ := r.packed_shape
  have hparameter := hparameters index
  rw [Command.describe, hshape]
  cases h : r.shape? with
  | none =>
    rw [shown_of_none h]
    exact ⟨rfl, (String.append_empty).symm⟩
  | some f =>
    rw [h] at hparameter
    change r.packed.parameter? index = r.parameters[index]? at hparameter
    rw [shown_of_shape h, shownOf, hparameter]
    cases hword : r.parameters[index]? with
    | none => exact ⟨rfl, by simp [Report.success]⟩
    | some w =>
      rw [hword] at hparameter
      refine ⟨rfl, ?_⟩
      simp only [Command.parameterText_eq hparameter, Report.success, Option.map_some,
        Option.getD_some, String.append_assoc]

end Rule

/-! ## Arguments -/

/-- A number is never taken for an option. -/
theorem Options.proper_of_parse {text : String} {w : Word} (h : Word.parse text = .ok w) :
    (Item.positional text).Proper := by
  have hwords : ∀ word ∈ ["-o", "--output", "--index", "-h", "--help"],
      (Word.parse word).toOption = none := by decide +kernel
  intro hmem
  have hnone := hwords text hmem
  rw [h] at hnone
  cases hnone

theorem Rule.Spelled.proper {r : Rule} {name : String} {texts : List String}
    (h : r.Spelled name texts) : ∀ text ∈ texts, (Options.Item.positional text).Proper := by
  cases h with
  | afterBlock h | afterTime h => simpa using Options.proper_of_parse h
  | raiseOrGrace hfinish hextra hamount =>
    simpa using ⟨Options.proper_of_parse hfinish, Options.proper_of_parse hextra,
      Options.proper_of_parse hamount⟩

namespace Invocation

theorem builds_of_words {r : Rule} {name : String} {texts : List String} (h : r.Spelled name texts)
    {option : String} (hoption : option ∈ ["-o", "--output"]) (program path : String) :
    Builds ⟨program, name :: (texts ++ [option, path])⟩ r (some path) := by
  -- the numbers are the positional items, and the file is named by the one item behind them
  refine ⟨name, _, texts.map .positional ++ [.output option path], rfl, ⟨?_, ?_⟩, ?_, ?_⟩
  · simp [Options.Item.words, List.flatMap_map]
  · intro i hi
    rcases List.mem_append.mp hi with hi | hi
    · obtain ⟨text, htext, rfl⟩ := List.mem_map.mp hi
      exact h.proper text htext
    · rw [List.mem_singleton.mp hi]
      exact hoption
  · simpa [List.filterMap_map, List.filterMap_cons, Function.comp_def, Options.Item.text?] using h
  · simp [List.filterMap_map, Function.comp_def, Options.Item.file?]

theorem inspects_of_words {path text : String} {index : UInt64}
    (hpath : path ∉ ["-o", "--output", "--index", "-h", "--help"])
    (hindex : Text.uint64? text.toList = some index) (program : String) :
    Inspects ⟨program, ["inspect", path, "--index", text]⟩ path index.toNat := by
  refine ⟨_, [.positional path, .index text index], rfl, ⟨rfl, ?_⟩, rfl, rfl⟩
  exact List.forall_mem_cons.mpr ⟨hpath, List.forall_mem_singleton.mpr hindex⟩

end Invocation

/-! ## Two runs -/

namespace Run

variable {d : Directory}

theorem of_inspects {run : Run} {path : String} {index : Nat} {c : StateConfig}
    (h : run.invocation.Inspects path index) (hread : d.read path = .ok (Blob.ofConfig c))
    (hstored : Blob.toConfig (Blob.ofConfig c) = .ok c) :
    (run.outcome d).exitCode = (Command.describe c index).exitCode ∧
      (run.outcome d).output = (Command.describe c index).output := by
  obtain ⟨hcode, houtput, -⟩ := outcome_of_plan (d := d) (Invocation.plan_of_inspects h)
  rw [Plan.runIn, hread] at hcode houtput
  simp only [Command.inspectReport, hstored] at hcode houtput
  exact ⟨hcode, houtput⟩

theorem shown_of_built {build inspect : Run} {r : Rule} {path : String} {index : Nat}
    (hwritable : d.Writable path) (hbuilds : build.invocation.Builds r (some path))
    (hinspects : inspect.invocation.Inspects path index) :
    ∃ c, r.config = .ok c ∧
      (build.outcome d).exitCode = 0 ∧ (build.outcome d).output = c.text ++ "\n" ∧
      (inspect.outcome (build.after d)).exitCode = 0 ∧
      (inspect.outcome (build.after d)).output = (build.outcome d).output ++ r.shown index := by
  obtain ⟨next, hwrite⟩ := hwritable.write (Blob.ofConfig r.packed)
  obtain ⟨hcode, houtput, hafter⟩ := of_written hbuilds hwrite
  obtain ⟨hexit, hshown⟩ :=
    of_inspects hinspects (Directory.read_of_write hwrite) r.packed_stored
  obtain ⟨hdescribe, htext⟩ := r.describe_packed index
  rw [hafter, houtput]
  exact ⟨r.packed, r.config_eq, hcode, rfl, hexit.trans hdescribe, hshown.trans htext⟩

end Run

/-- A rule whose config can be written to a file is shown from there: the tuple that was printed
when it was built, and behind it the program and the parameter at the index, for a rule that has a
shape. The options may stand anywhere, such as behind the numbers and behind the path. -/
theorem Rule.stored_shown (r : Rule) {path : String} {d : Directory} (hwritable : d.Writable path) :
    (∀ name texts, r.Spelled name texts → ∀ option ∈ ["-o", "--output"], ∀ program,
      Invocation.Builds ⟨program, name :: (texts ++ [option, path])⟩ r (some path)) ∧
    (path ∉ ["-o", "--output", "--index", "-h", "--help"] → ∀ text index,
      Text.uint64? text.toList = some index → ∀ program,
      Invocation.Inspects ⟨program, ["inspect", path, "--index", text]⟩ path index.toNat) ∧
    ∀ (build inspect : Run) (index : Nat), build.invocation.Builds r (some path) →
      inspect.invocation.Inspects path index →
      ∃ c, r.config = .ok c ∧
        (build.outcome d).exitCode = 0 ∧ (build.outcome d).output = c.text ++ "\n" ∧
        (inspect.outcome (build.after d)).exitCode = 0 ∧
        (inspect.outcome (build.after d)).output = (build.outcome d).output ++ r.shown index := by
  refine ⟨?_, ?_, ?_⟩
  · intro name texts h option hoption program
    exact Invocation.builds_of_words h hoption program path
  · intro hpath text index hindex program
    exact Invocation.inspects_of_words hpath hindex program
  · intro build inspect index hbuilds hinspects
    exact Run.shown_of_built hwritable hbuilds hinspects

/-- The parameter that is shown is spelled with a mark and does not fit in 64 bits. -/
theorem Rule.stored_shown_wide :
    let settings : Environment := ⟨none, none, none, none⟩
    let d : Directory := ⟨[("sale", [1])]⟩
    let r : Rule := .raiseOrGrace (.ofNat 5) (.ofNat (2 ^ 64)) (.ofNat 7)
    let build : Run := ⟨⟨"salegate", ["end-raise-grace", "5", "0x10000000000000000", "007", "-o",
      "./sale"]⟩, settings, ""⟩
    let inspect : Run := ⟨⟨"salegate", ["inspect", "./sale", "--index", "1"]⟩, settings, ""⟩
    d.Writable "./sale" ∧ build.invocation.Builds r (some "./sale") ∧
      inspect.invocation.Inspects "./sale" 1 ∧ (build.outcome d).exitCode = 0 ∧
      (build.outcome d).output = "\x7b sources: [0x060001001f002f0001021e002002060001011f002102], " ++
        "constants: [5, 18446744073709551616, 7], stackLength: 10, argumentsLength: 0 \x7d\n" ∧
      (inspect.outcome (build.after d)).exitCode = 0 ∧
      (inspect.outcome (build.after d)).output = (build.outcome d).output ++
        ("program:   after-timestamp-end-with-raise-or-grace\n" ++
          "gates:     Active -> Success | Fail\n" ++
          "constant[1]: 18446744073709551616\nseconds:   (does not fit in 64 bits)\n") := by
  intro settings d r build inspect
  have hwritable : d.Writable "./sale" := ⟨[], ⟨[("sale", [])]⟩, by decide +kernel⟩
  obtain ⟨hbuilds, hinspects, hruns⟩ := r.stored_shown hwritable
  have hspelled : r.Spelled "end-raise-grace" ["5", "0x10000000000000000", "007"] :=
    .raiseOrGrace (by decide +kernel) (by decide +kernel) (by decide +kernel)
  have hbuild : build.invocation.Builds r (some "./sale") :=
    hbuilds _ _ hspelled "-o" (by simp) "salegate"
  have hinspect : inspect.invocation.Inspects "./sale" 1 :=
    hinspects (by decide) "1" 1 (by decide +kernel) "salegate"
  obtain ⟨c, hc, hcode, hprinted, hexit, houtput⟩ := hruns build inspect 1 hbuild hinspect
  rw [r.config_eq] at hc
  obtain rfl := Except.ok.inj hc
  have htext : r.packed.text ++ "\n" =
      "\x7b sources: [0x060001001f002f0001021e002002060001011f002102], " ++
        "constants: [5, 18446744073709551616, 7], stackLength: 10, argumentsLength: 0 \x7d\n" := by
    decide +kernel
  have hshown : r.shown 1 = "program:   after-timestamp-end-with-raise-or-grace\n" ++
      "gates:     Active -> Success | Fail\n" ++
      "constant[1]: 18446744073709551616\nseconds:   (does not fit in 64 bits)\n" := by
    decide +kernel
  rw [hshown] at houtput
  exact ⟨hwritable, hbuild, hinspect, hcode, hprinted.trans htext, hexit, houtput⟩

end SaleRules
