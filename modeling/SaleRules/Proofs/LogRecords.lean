import SaleRules.CommandLine.Invocation
import Mathlib.Tactic.Common

/-!
# The messages in the error stream

What is written to the error stream is the texts of some messages, one after another: the warnings
about the settings, then the messages of the report that reach the least level. Which messages these
are is settled by that level alone, and how each of them looks by the other settings. A record of an
error reaches every level, and its text stands in the stream.
-/
namespace SaleRules

namespace Text

/-- A text stands between what is put in front of it and behind it. -/
theorem infix_between (front part back : String) :
    part.toList <:+: (front ++ part ++ back).toList := by
  rw [String.toList_append, String.toList_append]
  exact List.infix_append _ _ _

theorem infix_append_left {part s : String} (h : part.toList <:+: s.toList) (t : String) :
    part.toList <:+: (s ++ t).toList := by
  rw [String.toList_append]
  exact h.trans (List.prefix_append _ _).isInfix

theorem infix_append_right (s : String) {part t : String} (h : part.toList <:+: t.toList) :
    part.toList <:+: (s ++ t).toList := by
  rw [String.toList_append]
  exact h.trans (List.suffix_append _ _).isInfix

end Text

/-- The message is written where records of at least the given level are asked for. -/
def Message.reaches (least : Level) : Message → Bool
  | .record level _ => level.reaches least
  | .raw _ => true

/-- The text of the message stands in the stream, that of a record at the end of a line. -/
def Message.StandsIn (stream : String) : Message → Prop
  | .record _ text => (text ++ "\n").toList <:+: stream.toList
  | .raw text => text.toList <:+: stream.toList

/-- The stream reports an error with the given text: there is a line on it, which shows the time and
the level in front unless plain lines are asked for. -/
def Environment.Reports (env : Environment) (stamp text stream : String) : Prop :=
  ((if env.plain? = some "1" then "" else stamp ++ " [ERROR] ") ++ text ++ "\n").toList <:+:
    stream.toList

theorem Message.reaches_of_le {least greater : Level} (h : least.rank ≤ greater.rank) (m : Message)
    (hm : m.reaches greater = true) : m.reaches least = true := by
  cases m with
  | raw text => rfl
  | record level text =>
    have hlevel : greater.rank ≤ level.rank := of_decide_eq_true hm
    exact decide_eq_true (Nat.le_trans h hlevel)

namespace LogSettings

/-- The text of a message once it is written. -/
def line (s : LogSettings) (stamp : String) (m : Message) : String :=
  { s with least := .debug }.render stamp m

theorem render_eq (s : LogSettings) (stamp : String) (m : Message) :
    s.render stamp m = if m.reaches s.least then s.line stamp m else "" := by
  cases m with
  | raw text => rfl
  | record level text =>
    have hdebug : level.reaches .debug = true := by cases level <;> rfl
    cases h : level.reaches s.least with
    | false => simp only [render, Message.reaches, h, Bool.false_eq_true, if_false]
    | true => simp only [line, render, Message.reaches, h, hdebug, if_true]

theorem renderAll_eq (s : LogSettings) (stamp : String) (messages : List Message) :
    s.renderAll stamp messages =
      String.join ((messages.filter (·.reaches s.least)).map (s.line stamp)) := by
  rw [renderAll]
  induction messages with
  | nil => rfl
  | cons m messages ih =>
    rw [List.map_cons, String.join_cons, ih, render_eq]
    cases h : m.reaches s.least with
    | false => rw [List.filter_cons_of_neg (by simp [h])]; simp
    | true => rw [List.filter_cons_of_pos h, List.map_cons, String.join_cons, if_pos rfl]

/-! ## What stands in a line -/

/-- What stands in front of the text of a record. -/
def mark (s : LogSettings) (stamp : String) (level : Level) : String :=
  if s.plain then "" else stamp ++ " [" ++ level.text ++ "] "

/-- Whatever the colours are, the line on a record holds its mark and its text. -/
theorem mark_infix_line (s : LogSettings) (stamp : String) (level : Level) (text : String) :
    (s.mark stamp level ++ text ++ "\n").toList <:+: (s.line stamp (.record level text)).toList := by
  have hdebug : level.reaches .debug = true := by cases level <;> rfl
  simp only [line, render, hdebug, if_true]
  cases s.coloured with
  | false => exact List.infix_rfl
  | true => exact Text.infix_between (reset ++ level.colour) _ reset

theorem standsIn_line (s : LogSettings) (stamp : String) (m : Message) :
    m.StandsIn (s.line stamp m) := by
  cases m with
  | raw text => exact List.infix_rfl
  | record level text =>
    have hline := s.mark_infix_line stamp level text
    rw [String.append_assoc] at hline
    exact (Text.infix_append_right (s.mark stamp level) List.infix_rfl).trans hline

/-! ## The stream -/

/-- A warning is given only where the level stays the one that is kept by default. -/
theorem warnings_reach (env : Environment) :
    ∀ m ∈ warnings env, m.reaches (ofEnvironment env).least = true := by
  intro m hm
  cases hlevel : env.level? with
  | none => simp [warnings, hlevel] at hm
  | some name =>
    cases hparse : Level.parse? name with
    | some level => simp [warnings, hlevel, hparse] at hm
    | none =>
      -- a name that is no level leaves the default, which a warning reaches
      simp only [warnings, hlevel, hparse, Option.isSome_none, Bool.false_eq_true, if_false,
        List.mem_singleton] at hm
      rw [hm, ofEnvironment]
      simp only [hlevel, Option.bind_some, hparse]
      rfl

/-- The messages that are written for a report, in their order, each with its text. -/
def entries (env : Environment) (stamp : String) (messages : List Message) :
    List (Message × String) :=
  (warnings env).map (fun m => (m, { ofEnvironment env with plain := false }.line stamp m)) ++
    (messages.filter (·.reaches (ofEnvironment env).least)).map
      fun m => (m, (ofEnvironment env).line stamp m)

/-- The error stream is the texts of the messages that are written, one after another. -/
theorem errorText_eq (env : Environment) (stamp : String) (messages : List Message) :
    errorText env stamp messages = String.join ((entries env stamp messages).map Prod.snd) := by
  have hwarnings := List.filter_eq_self.mpr (warnings_reach env)
  rw [errorText, renderAll_eq, renderAll_eq, hwarnings, entries, List.map_append,
    String.join_append, List.map_map, List.map_map]
  rfl

section

variable {env : Environment} {stamp : String} {messages : List Message} {m : Message}
  {text line : String}

/-- What is written is a warning about the settings, with its mark, or a message of the report that
reaches the least level. -/
theorem mem_entries :
    (m, line) ∈ entries env stamp messages ↔
      (m ∈ warnings env ∧ line = { ofEnvironment env with plain := false }.line stamp m) ∨
      (m ∈ messages ∧ m.reaches (ofEnvironment env).least = true ∧
        line = (ofEnvironment env).line stamp m) := by
  simp only [entries, List.mem_append, List.mem_map, List.mem_filter, Prod.mk.injEq]
  constructor
  · rintro (⟨m', hm, rfl, rfl⟩ | ⟨m', ⟨hm, hreaches⟩, rfl, rfl⟩)
    · exact .inl ⟨hm, rfl⟩
    · exact .inr ⟨hm, hreaches, rfl⟩
  · rintro (⟨hm, rfl⟩ | ⟨hm, hreaches, rfl⟩)
    · exact .inl ⟨m, hm, rfl, rfl⟩
    · exact .inr ⟨m, ⟨hm, hreaches⟩, rfl, rfl⟩

theorem infix_errorText (h : (m, line) ∈ entries env stamp messages) :
    line.toList <:+: (errorText env stamp messages).toList := by
  rw [errorText_eq, String.toList_join, List.flatMap_def]
  exact List.infix_of_mem_flatten (List.mem_map_of_mem (List.mem_map_of_mem h))

theorem standsIn_entry (h : (m, line) ∈ entries env stamp messages) : m.StandsIn line := by
  rcases mem_entries.mp h with ⟨-, rfl⟩ | ⟨-, -, rfl⟩
  · exact standsIn_line _ stamp m
  · exact standsIn_line _ stamp m

/-! ## Errors -/

theorem error_not_mem_warnings : .record .error text ∉ warnings env := by
  rw [warnings]
  split
  · exact List.not_mem_nil
  · split <;> simp

theorem record_mem_entries :
    (∃ line, (Message.record .error text, line) ∈ entries env stamp messages) ↔
      .record .error text ∈ messages := by
  constructor
  · rintro ⟨line, hline⟩
    rcases mem_entries.mp hline with ⟨hm, -⟩ | ⟨hm, -⟩
    · exact absurd hm error_not_mem_warnings
    · exact hm
  · intro hm
    refine ⟨_, mem_entries.mpr (.inr ⟨hm, ?_, rfl⟩)⟩
    cases (ofEnvironment env).least <;> rfl

/-- The line on an error reports it. -/
theorem reports_entry (h : (Message.record .error text, line) ∈ entries env stamp messages) :
    env.Reports stamp text line := by
  have hmark : (ofEnvironment env).mark stamp .error =
      if env.plain? = some "1" then "" else stamp ++ " [ERROR] " := by
    simp only [mark, ofEnvironment, beq_iff_eq, Level.text, String.append_assoc]
    rfl
  rcases mem_entries.mp h with ⟨hm, -⟩ | ⟨-, -, rfl⟩
  · exact absurd hm error_not_mem_warnings
  · rw [Environment.Reports, ← hmark]
    exact mark_infix_line _ stamp .error text

/-- Whatever the settings are, the stream reports an error that there is a message on. -/
theorem reports_errorText (h : .record .error text ∈ messages) :
    env.Reports stamp text (errorText env stamp messages) := by
  obtain ⟨line, hline⟩ := record_mem_entries.mpr h
  exact (reports_entry hline).trans (infix_errorText hline)

end

/-! ## Levels -/

theorem least_of_parse {name : String} {level : Level} (h : Level.parse? name = some level)
    (env : Environment) : (ofEnvironment { env with level? := some name }).least = level := by
  simp only [ofEnvironment, Option.bind_some, h]
  rfl

theorem warnings_of_parse {name : String} {level : Level} (h : Level.parse? name = some level)
    (env : Environment) : warnings { env with level? := some name } = [] := by
  simp only [warnings, h]
  rfl

/-- How a line looks does not depend on the level. -/
theorem line_of_level (env : Environment) (level? : Option String) (stamp : String) (m : Message) :
    (ofEnvironment { env with level? := level? }).line stamp m =
      (ofEnvironment env).line stamp m := by
  simp only [line, ofEnvironment]

/-- With a level named that there is, the messages are those that reach it. -/
theorem entries_of_parse {name : String} {level : Level} (h : Level.parse? name = some level)
    (env : Environment) (stamp : String) (messages : List Message) :
    entries { env with level? := some name } stamp messages =
      (messages.filter (·.reaches level)).map fun m => (m, (ofEnvironment env).line stamp m) := by
  rw [entries, warnings_of_parse h, least_of_parse h, List.map_nil, List.nil_append]
  simp only [line_of_level]

/-- A higher level takes away records and leaves all else in its order. -/
theorem entries_filter {name name' : String} {level level' : Level}
    (h : Level.parse? name = some level) (h' : Level.parse? name' = some level')
    (hle : level.rank ≤ level'.rank) (env : Environment) (stamp : String)
    (messages : List Message) :
    entries { env with level? := some name' } stamp messages =
      (entries { env with level? := some name } stamp messages).filter (·.1.reaches level') := by
  rw [entries_of_parse h, entries_of_parse h', List.filter_map, List.filter_filter]
  refine congrArg (List.map _) (List.filter_congr fun m _ => ?_)
  have hm := m.reaches_of_le hle
  rw [Function.comp_apply]
  cases hr : m.reaches level' with
  | false => rfl
  | true => rw [hm hr]; rfl

end LogSettings

/-! ## Runs -/

namespace Invocation

/-- The messages that a run writes to the error stream, each with its text. -/
def entries (inv : Invocation) (env : Environment) (stamp : String) (d : Directory) :
    List (Message × String) :=
  LogSettings.entries env stamp (inv.plan.runIn d).1.messages

/-- A run is what the plan of the invocation does; the settings enter the error stream alone. -/
theorem runIn_eq (inv : Invocation) (env : Environment) (stamp : String) (d : Directory) :
    inv.runIn env stamp d =
      (⟨(inv.plan.runIn d).1.exitCode, (inv.plan.runIn d).1.output,
        LogSettings.errorText env stamp (inv.plan.runIn d).1.messages⟩, (inv.plan.runIn d).2) :=
  rfl

theorem errors_eq (inv : Invocation) (env : Environment) (stamp : String) (d : Directory) :
    (inv.runIn env stamp d).1.errors =
      String.join ((inv.entries env stamp d).map Prod.snd) :=
  LogSettings.errorText_eq env stamp _

theorem infix_errors {inv : Invocation} {env : Environment} {stamp : String} {d : Directory}
    {m : Message} {line : String} (h : (m, line) ∈ inv.entries env stamp d) :
    line.toList <:+: (inv.runIn env stamp d).1.errors.toList := by
  rw [runIn_eq]
  exact LogSettings.infix_errorText h

theorem reports_errors {inv : Invocation} {d : Directory} {text : String}
    (h : .record .error text ∈ (inv.plan.runIn d).1.messages) (env : Environment) (stamp : String) :
    env.Reports stamp text (inv.runIn env stamp d).1.errors := by
  rw [runIn_eq]
  exact LogSettings.reports_errorText h

/-- The settings decide on nothing but the error stream, in which every message that is written
stands with its text. Of two runs that ask for records of different levels, the one with the higher
level writes what the other writes, in the same order, without the records below its level. -/
theorem runIn_settings (inv : Invocation) (d : Directory) :
    (∀ env env' stamp stamp',
      (inv.runIn env stamp d).1.exitCode = (inv.runIn env' stamp' d).1.exitCode ∧
      (inv.runIn env stamp d).1.output = (inv.runIn env' stamp' d).1.output ∧
      (inv.runIn env stamp d).2 = (inv.runIn env' stamp' d).2) ∧
    (∀ env stamp, ∀ entry ∈ inv.entries env stamp d, entry.1.StandsIn entry.2) ∧
    ∀ (env : Environment) (stamp name name' : String) (level level' : Level),
      Level.parse? name = some level → Level.parse? name' = some level' →
      level.rank ≤ level'.rank →
      let low : Environment := { env with level? := some name }
      let high : Environment := { env with level? := some name' }
      (inv.runIn low stamp d).1.errors = String.join ((inv.entries low stamp d).map Prod.snd) ∧
      (inv.runIn high stamp d).1.errors = String.join
        (((inv.entries low stamp d).filter (·.1.reaches level')).map Prod.snd) := by
  refine ⟨?_, fun env stamp (m, line) => LogSettings.standsIn_entry, ?_⟩
  · intro env env' stamp stamp'
    rw [runIn_eq, runIn_eq]
    exact ⟨rfl, rfl, rfl⟩
  · intro env stamp name name' level level' h h' hle low high
    refine ⟨errors_eq inv low stamp d, ?_⟩
    have hentries : inv.entries high stamp d =
        (inv.entries low stamp d).filter (·.1.reaches level') :=
      LogSettings.entries_filter h h' hle env stamp _
    rw [errors_eq, hentries]

/-- A program that is no shape is shown to those who debug; they and those who ask for warnings are
warned of it. -/
theorem runIn_settings_unrecognised :
    let inv : Invocation := ⟨"salegate", ["inspect", "f"]⟩
    let d : Directory := ⟨[("f", Blob.ofConfig ⟨[⟨[0x05, 0x00]⟩], [], 1, 0⟩)]⟩
    let settings : Environment := ⟨none, some "1", none, none⟩
    let low : Environment := { settings with level? := some " Debug " }
    let high : Environment := { settings with level? := some "warning" }
    Level.parse? " Debug " = some .debug ∧ Level.parse? "warning" = some .warn ∧
      Level.debug.rank ≤ Level.warn.rank ∧
      (inv.entries low "" d).length = 2 ∧
      ((inv.entries low "" d).filter (·.1.reaches .warn)).length = 1 ∧
      (inv.runIn high "" d).1.errors = String.join
        (((inv.entries low "" d).filter (·.1.reaches .warn)).map Prod.snd) ∧
      (inv.runIn high "" d).1.errors =
        "Program not recognised; no parameters can be extracted\n" := by
  intro inv d settings low high
  have hlow : Level.parse? " Debug " = some .debug := by decide +kernel
  have hhigh : Level.parse? "warning" = some .warn := by decide +kernel
  have hle : Level.debug.rank ≤ Level.warn.rank := by decide
  exact ⟨hlow, hhigh, hle, by decide +kernel, by decide +kernel,
    ((runIn_settings inv d).2.2 settings "" _ _ _ _ hlow hhigh hle).2, by decide +kernel⟩

end Invocation

end SaleRules
