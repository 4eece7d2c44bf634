import SaleRules.Proofs.ArgumentItems
import SaleRules.Proofs.LogRecords
import SaleRules.Proofs.RulePrograms

/-!
# What an invocation can come to

An invocation has one of a few courses: it is idle, asks for help, is refused, or its command builds
a config, inspects a file or encodes an instruction. Only a command that builds ever writes, and it
is known by its arguments: its name, the numbers of a rule, and the file that is named last.
-/
namespace SaleRules

/-! ## The usage -/

/-- The text shows how the program is called, by its name, and has a line for each command. -/
structure IsUsage (program text : String) : Prop where
  call : ("USAGE:\n    " ++ program ++ " <COMMAND> [ARGS] [OPTIONS]\n").toList <:+: text.toList
  commands : ∀ name ∈ ["after-block", "after-time", "end-raise-grace", "inspect", "encode"],
    ("    " ++ name ++ " ").toList <:+: text.toList

theorem IsUsage.mono {program text stream : String} (h : IsUsage program text)
    (hstream : text.toList <:+: stream.toList) : IsUsage program stream :=
  ⟨h.call.trans hstream, fun name hname => (h.commands name hname).trans hstream⟩

theorem isUsage_usage (program : String) : IsUsage program (usage program) := by
  -- a part is found by leaving the lines behind it out, and then those in front of it
  constructor
  · have hindent : "USAGE:\n    " = "USAGE:\n" ++ "    " := by decide
    delta usage
    iterate 18 with_reducible apply Text.infix_append_left
    simp only [hindent, String.append_assoc]
    exact Text.infix_append_right _ (Text.infix_append_right _ List.infix_rfl)
  · intro name hname
    simp only [List.mem_cons, List.not_mem_nil, or_false] at hname
    delta usage
    rcases hname with rfl | rfl | rfl | rfl | rfl
    · iterate 15 with_reducible apply Text.infix_append_left
      exact Text.infix_append_right _ (by decide +kernel)
    · iterate 14 with_reducible apply Text.infix_append_left
      exact Text.infix_append_right _ (by decide +kernel)
    · iterate 13 with_reducible apply Text.infix_append_left
      exact Text.infix_append_right _ (by decide +kernel)
    · iterate 12 with_reducible apply Text.infix_append_left
      exact Text.infix_append_right _ (by decide +kernel)
    · iterate 11 with_reducible apply Text.infix_append_left
      exact Text.infix_append_right _ (by decide +kernel)

/-! ## The arguments -/

/-- The command of a rule and the numbers that spell its parameters. -/
inductive Rule.Spelled : Rule → String → List String → Prop where
  | afterBlock {text : String} {block : Word} (h : Word.parse text = .ok block) :
      Spelled (.afterBlock block) "after-block" [text]
  | afterTime {text : String} {timestamp : Word} (h : Word.parse text = .ok timestamp) :
      Spelled (.afterTime timestamp) "after-time" [text]
  | raiseOrGrace {first second third : String} {finish extra amount : Word}
      (hfinish : Word.parse first = .ok finish) (hextra : Word.parse second = .ok extra)
      (hamount : Word.parse third = .ok amount) :
      Spelled (.raiseOrGrace finish extra amount) "end-raise-grace" [first, second, third]

namespace Command

/-- The word that calls a command. -/
def word : Command → String
  | afterBlock => "after-block"
  | afterTime => "after-time"
  | endRaiseGrace => "end-raise-grace"
  | inspect => "inspect"
  | encode => "encode"

/-- The commands that build a config. -/
def builders : List String := ["after-block", "after-time", "end-raise-grace"]

theorem ofName?_eq_some_iff {name : String} {command : Command} :
    ofName? name = some command ↔ name = command.word := by
  constructor
  · intro h
    simp only [ofName?] at h
    split at h
    · next hname => cases h; exact hname
    · split at h
      · next hname => cases h; exact hname
      · split at h
        · next hname => cases h; exact hname
        · split at h
          · next hname => cases h; exact hname
          · split at h
            · next hname => cases h; exact hname
            · cases h
  · rintro rfl
    cases command <;> simp [ofName?, word]

/-! ## Building -/

/-- The config is printed, and written if a file is named. -/
def buildPlan (c : StateConfig) : Option String → Plan
  | none => .done (.success (c.text ++ "\n") [])
  | some path =>
    .write (c.text ++ "\n") path (Blob.ofConfig c) (writtenReport path (Blob.ofConfig c).length)

theorem runIn_buildPlan_of_ok {c : StateConfig} {d after : Directory} {path : String}
    (h : d.write path (Blob.ofConfig c) = .ok after) :
    (buildPlan c (some path)).runIn d = (⟨0, c.text ++ "\n", [.record .info ("Wrote " ++ path ++
      " (" ++ Text.decimal (Blob.ofConfig c).length ++ " bytes)")]⟩, after) := by
  simp only [buildPlan, Plan.runIn, h, writtenReport, Report.success, String.append_empty]

theorem runIn_buildPlan_of_error {c : StateConfig} {d : Directory} {path : String} {fault : Fault}
    (h : d.write path (Blob.ofConfig c) = .error fault) :
    (buildPlan c (some path)).runIn d =
      (⟨1, c.text ++ "\n", [.record .error (CommandError.file path fault).message]⟩, d) := by
  simp only [buildPlan, Plan.runIn, h, writtenReport, Report.ofError, Report.failure,
    String.append_empty]

theorem build_eq (output? : Option String) (r : Rule) :
    build output? r = .ok (buildPlan r.packed output?) := by
  rw [build, r.config_eq]
  cases output? <;> rfl

theorem number_eq_ok_iff {text : String} {w : Word} :
    number text = .ok w ↔ Word.parse text = .ok w := Except.mapError_eq_ok_iff

theorem plan?_of_spelled {command : Command} {r : Rule} {options : Options}
    (h : r.Spelled command.word options.positional) :
    command.plan? options = .ok (buildPlan r.packed options.output?) := by
  generalize hword : command.word = name at h
  generalize htexts : options.positional = texts at h
  cases h with
  | afterBlock h =>
    cases command <;> simp [word] at hword
    simp only [plan?, htexts, number_eq_ok_iff.mpr h, bind, Except.bind]
    exact build_eq _ _
  | afterTime h =>
    cases command <;> simp [word] at hword
    simp only [plan?, htexts, number_eq_ok_iff.mpr h, bind, Except.bind]
    exact build_eq _ _
  | raiseOrGrace hfinish hextra hamount =>
    cases command <;> simp [word] at hword
    simp only [plan?, htexts, number_eq_ok_iff.mpr hfinish, number_eq_ok_iff.mpr hextra,
      number_eq_ok_iff.mpr hamount, bind, Except.bind]
    exact build_eq _ _

/-! ## All that a command can do -/

theorem encodePlan_eq_ok {name : String} {operand : Nat} {plan : Plan}
    (h : encodePlan name operand = .ok plan) :
    ∃ text, encodeText name operand = .ok text ∧ plan = .done (.success (text ++ "\n") []) := by
  obtain ⟨text, htext, hplan⟩ := Except.bind_eq_ok_iff.mp h
  exact ⟨text, Except.mapError_eq_ok_iff.mp htext, (Except.ok.inj hplan).symm⟩

/-- A command that is not refused builds the config of a rule, or inspects a file, or encodes. -/
theorem plan?_cases {options : Options} {command : Command} {plan : Plan}
    (h : command.plan? options = .ok plan) :
    (∃ r, Rule.Spelled r command.word options.positional) ∨
    (command = inspect ∧ ∃ path, options.positional = [path]) ∨
    (command = encode ∧ ∃ text, plan = .done (.success (text ++ "\n") [])) := by
  cases command with
  | afterBlock =>
    simp only [plan?] at h
    split at h
    · next text hpositional =>
      obtain ⟨block, hblock, -⟩ := Except.bind_eq_ok_iff.mp h
      rw [hpositional]
      exact .inl ⟨_, .afterBlock (number_eq_ok_iff.mp hblock)⟩
    · cases h
  | afterTime =>
    simp only [plan?] at h
    split at h
    · next text hpositional =>
      obtain ⟨timestamp, htimestamp, -⟩ := Except.bind_eq_ok_iff.mp h
      rw [hpositional]
      exact .inl ⟨_, .afterTime (number_eq_ok_iff.mp htimestamp)⟩
    · cases h
  | endRaiseGrace =>
    simp only [plan?] at h
    split at h
    · next first second third hpositional =>
      obtain ⟨finish, hfinish, h⟩ := Except.bind_eq_ok_iff.mp h
      obtain ⟨extra, hextra, h⟩ := Except.bind_eq_ok_iff.mp h
      obtain ⟨amount, hamount, -⟩ := Except.bind_eq_ok_iff.mp h
      rw [hpositional]
      exact .inl ⟨_, .raiseOrGrace (number_eq_ok_iff.mp hfinish) (number_eq_ok_iff.mp hextra)
        (number_eq_ok_iff.mp hamount)⟩
    · cases h
  | inspect =>
    simp only [plan?] at h
    split at h
    · next path hpositional => exact .inr (.inl ⟨rfl, path, hpositional⟩)
    · cases h
  | encode =>
    simp only [plan?] at h
    split at h
    · next name hpositional =>
      obtain ⟨text, -, hplan⟩ := encodePlan_eq_ok h
      exact .inr (.inr ⟨rfl, text, hplan⟩)
    · next name operand hpositional =>
      obtain ⟨w, -, h⟩ := Except.bind_eq_ok_iff.mp h
      obtain ⟨text, -, hplan⟩ := encodePlan_eq_ok h
      exact .inr (.inr ⟨rfl, text, hplan⟩)
    · cases h

end Command

namespace Invocation

variable {inv : Invocation}

/-- The arguments are the command of a rule, its numbers, and options of which the last to name a
file names the given one. -/
def Builds (inv : Invocation) (r : Rule) (output? : Option String) : Prop :=
  ∃ name rest items, inv.arguments = name :: rest ∧ Options.Spells rest items ∧
    r.Spelled name (items.filterMap Options.Item.text?) ∧
    (items.filterMap Options.Item.file?).getLast? = output?

/-- The arguments are the command that inspects, a path, and options of which the last to give an
index gives this one; where there is none the index is zero. -/
def Inspects (inv : Invocation) (path : String) (index : Nat) : Prop :=
  ∃ rest items, inv.arguments = "inspect" :: rest ∧ Options.Spells rest items ∧
    items.filterMap Options.Item.text? = [path] ∧
    ((items.filterMap Options.Item.number?).getLast?.map UInt64.toNat).getD 0 = index

/-- Help is asked for in the place of the command, or behind it before the options go wrong. -/
def AsksHelp (inv : Invocation) : Prop :=
  ∃ name rest, inv.arguments = name :: rest ∧ (name ∈ ["-h", "--help"] ∨
    ∃ items front back, rest = front ++ back ∧ Options.Spells front items ∧
      Options.Stops back .help)

/-- The course of an invocation and the plan it leads to. -/
inductive Course (inv : Invocation) : Plan → Prop where
  | idle (h : inv.arguments = []) : Course inv (.done inv.noCommandReport)
  | help (h : inv.AsksHelp) : Course inv (.done inv.helpReport)
  | refused (cause : CommandError) (h : inv.arguments ≠ []) : Course inv (.done (.ofError cause))
  | unknown (name : String) (h : inv.arguments ≠ []) :
      Course inv (.done (inv.unknownCommandReport name))
  | built {r : Rule} {output? : Option String} (h : inv.Builds r output?) :
      Course inv (Command.buildPlan r.packed output?)
  | inspected {path : String} {index : Nat} (h : inv.Inspects path index) :
      Course inv (.read path (Command.inspectReport path index))
  | encoded (text : String) (h : inv.arguments.head? = some "encode") :
      Course inv (.done (.success (text ++ "\n") []))

theorem isHelp_iff {word : String} : Options.isHelp word = true ↔ word ∈ ["-h", "--help"] := by
  simp [Options.isHelp, or_comm]

theorem isHelp_word (command : Command) : ¬ Options.isHelp command.word = true := by
  cases command <;> simp [Options.isHelp, Command.word]

theorem plan_of_idle (h : inv.arguments = []) : inv.plan = .done inv.noCommandReport := by
  rw [plan, h]

/-- Where the options go wrong the command is not looked up. -/
theorem plan_of_stop {name : String} {rest : List String} {stop : OptionStop}
    (harguments : inv.arguments = name :: rest) (hhelp : ¬ Options.isHelp name = true)
    (hread : Options.read rest = .error stop) : inv.plan = .done (inv.stopReport stop) := by
  simp only [plan, harguments, if_neg hhelp, hread]

section

variable {command : Command} {rest : List String} {options : Options}
  (harguments : inv.arguments = command.word :: rest) (hread : Options.read rest = .ok options)
include harguments hread

theorem plan_of_refused {cause : CommandError} (h : command.plan? options = .error cause) :
    inv.plan = .done (.ofError cause) := by
  have hname := Command.ofName?_eq_some_iff.mpr (rfl : command.word = command.word)
  simp only [Invocation.plan, harguments, if_neg (isHelp_word command), hread, hname, h]

theorem plan_of_accepted {plan : Plan} (h : command.plan? options = .ok plan) : inv.plan = plan := by
  have hname := Command.ofName?_eq_some_iff.mpr (rfl : command.word = command.word)
  simp only [Invocation.plan, harguments, if_neg (isHelp_word command), hread, hname, h]

end

/-! ## Building and inspecting -/

theorem spelled_word {r : Rule} {name : String} {texts : List String} (h : r.Spelled name texts) :
    ∃ command : Command, name = command.word ∧ name ∈ Command.builders := by
  cases h with
  | afterBlock => exact ⟨.afterBlock, rfl, by simp [Command.builders]⟩
  | afterTime => exact ⟨.afterTime, rfl, by simp [Command.builders]⟩
  | raiseOrGrace => exact ⟨.endRaiseGrace, rfl, by simp [Command.builders]⟩

theorem Builds.head {r : Rule} {output? : Option String} (h : inv.Builds r output?) :
    ∃ name ∈ Command.builders, inv.arguments.head? = some name := by
  obtain ⟨name, rest, items, harguments, -, hspelled, -⟩ := h
  obtain ⟨-, -, hbuilder⟩ := spelled_word hspelled
  exact ⟨name, hbuilder, by rw [harguments]; rfl⟩

theorem plan_of_builds {r : Rule} {output? : Option String} (h : inv.Builds r output?) :
    inv.plan = Command.buildPlan r.packed output? := by
  obtain ⟨name, rest, items, harguments, hspells, hspelled, rfl⟩ := h
  obtain ⟨command, rfl, -⟩ := spelled_word hspelled
  exact plan_of_accepted harguments (Options.read_eq_ok_iff.mpr ⟨items, hspells, rfl⟩)
    (Command.plan?_of_spelled hspelled)

theorem Inspects.head {path : String} {index : Nat} (h : inv.Inspects path index) :
    inv.arguments.head? = some "inspect" := by
  obtain ⟨rest, items, harguments, -⟩ := h
  rw [harguments]
  rfl

theorem plan_of_inspects {path : String} {index : Nat} (h : inv.Inspects path index) :
    inv.plan = .read path (Command.inspectReport path index) := by
  obtain ⟨rest, items, harguments, hspells, hpath, rfl⟩ := h
  have hplan : Command.inspect.plan? (.ofItems items) = .ok (.read path (Command.inspectReport path
      (((items.filterMap Options.Item.number?).getLast?.map UInt64.toNat).getD 0))) := by
    simp only [Command.plan?, Options.ofItems, hpath]
  have hcommand : inv.arguments = Command.inspect.word :: rest := harguments
  exact plan_of_accepted hcommand (Options.read_eq_ok_iff.mpr ⟨items, hspells, rfl⟩) hplan

/-! ## All that an invocation can come to -/

theorem plan_of_help (h : inv.AsksHelp) : inv.plan = .done inv.helpReport := by
  obtain ⟨name, rest, harguments, hasks⟩ := h
  by_cases hhelp : Options.isHelp name = true
  · simp only [plan, harguments, if_pos hhelp]
  · have hread := Options.read_eq_error_iff.mpr (hasks.resolve_left (mt isHelp_iff.mpr hhelp))
    exact plan_of_stop harguments hhelp hread

theorem plan_course (inv : Invocation) : inv.Course inv.plan := by
  match harguments : inv.arguments with
  | [] =>
    rw [plan_of_idle harguments]
    exact .idle harguments
  | name :: rest =>
    have hnonempty : inv.arguments ≠ [] := by simp [harguments]
    by_cases hhelp : Options.isHelp name = true
    · have hplan : inv.plan = .done inv.helpReport := by
        simp only [plan, harguments, if_pos hhelp]
      rw [hplan]
      exact .help ⟨name, rest, harguments, .inl (isHelp_iff.mp hhelp)⟩
    · cases hread : Options.read rest with
      | error stop =>
        rw [plan_of_stop harguments hhelp hread]
        cases stop with
        | help => exact .help ⟨name, rest, harguments, .inr (Options.read_eq_error_iff.mp hread)⟩
        | missingArgument option => exact .refused (.missingArgument option) hnonempty
        | badIndex text => exact .refused (.badIndex text) hnonempty
      | ok options =>
        -- only once all options are read is the command looked up
        cases hname : Command.ofName? name with
        | none =>
          have hplan : inv.plan = .done (inv.unknownCommandReport name) := by
            simp only [plan, harguments, if_neg hhelp, hread, hname]
          rw [hplan]
          exact .unknown name hnonempty
        | some command =>
          obtain rfl := Command.ofName?_eq_some_iff.mp hname
          obtain ⟨items, hspells, rfl⟩ := Options.read_eq_ok_iff.mp hread
          cases hplan : command.plan? (.ofItems items) with
          | error cause =>
            rw [plan_of_refused harguments hread hplan]
            exact .refused cause hnonempty
          | ok plan =>
            rcases Command.plan?_cases hplan with ⟨r, h⟩ | ⟨rfl, path, hpath⟩ | ⟨rfl, text, rfl⟩
            · have hbuilds : inv.Builds r _ := ⟨_, rest, items, harguments, hspells, h, rfl⟩
              rw [plan_of_builds hbuilds]
              exact .built hbuilds
            · have hinspects : inv.Inspects path _ :=
                ⟨rest, items, harguments, hspells, hpath, rfl⟩
              rw [plan_of_inspects hinspects]
              exact .inspected hinspects
            · rw [plan_of_accepted harguments hread hplan]
              exact .encoded text (by rw [harguments]; rfl)

end Invocation

end SaleRules
