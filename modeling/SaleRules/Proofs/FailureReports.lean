import SaleRules.Proofs.InvocationCourses
import SaleRules.Proofs.LogRecords

/-!
# How failures are reported

A run that fails says why in a record of an error, which no setting holds back, and prints nothing;
a run that succeeds records no error. There are two exceptions. A run without a command fails with
the usage text in place of a record, and a config that could not be written has been printed before.
-/
namespace SaleRules

/-! ## The texts of errors -/

theorem EncodingError.message_ne_empty (e : EncodingError) : e.message ≠ "" := by
  delta message
  cases e <;> simp

theorem SourceError.message_ne_empty (e : SourceError) : e.message ≠ "" := by
  delta message
  cases e <;> simp

theorem ProgramError.message_ne_empty (e : ProgramError) : e.message ≠ "" := by
  cases e with
  | encoding cause => exact cause.message_ne_empty
  | source cause => exact cause.message_ne_empty
  | constantOutOfRange | stackTooShort =>
    delta message
    simp

/-- There is something to say about every error. -/
theorem CommandError.message_ne_empty (e : CommandError) : e.message ≠ "" := by
  cases e with
  | program cause =>
    have h := cause.message_ne_empty
    delta message
    exact h
  | blob cause =>
    delta message BlobError.message
    simp
  | missingArgument | badIndex | expected | number | encoding | file =>
    delta message
    simp

namespace Command

/-! ## Inspecting -/

theorem describe_eq (c : StateConfig) (index : Nat) :
    ∃ output messages, describe c index = .success output messages ∧
      ∀ text, .record .error text ∉ messages := by
  rw [describe]
  split
  · refine ⟨_, _, rfl, fun text => ?_⟩
    rw [unrecognised]
    cases c.entry? <;> simp
  · split
    · exact ⟨_, _, rfl, fun text => List.not_mem_nil⟩
    · exact ⟨_, _, rfl, fun text => by simp⟩

theorem inspectReport_cases (path : String) (index : Nat) (result : Except Fault Bytes) :
    (∃ cause, inspectReport path index result = .ofError cause) ∨
      ∃ c, inspectReport path index result = describe c index := by
  cases result with
  | error fault => exact .inl ⟨.file path fault, rfl⟩
  | ok bytes =>
    cases h : Blob.toConfig bytes with
    | error cause => exact .inl ⟨.blob cause, by simp only [inspectReport, h]⟩
    | ok c => exact .inr ⟨c, by simp only [inspectReport, h]⟩

end Command

namespace Invocation

variable {inv : Invocation} {d : Directory}

/-- The command is that of a rule and is right in all but that the file that is named last for its
config cannot be written. -/
def FailsAtWriting (inv : Invocation) (d : Directory) (c : StateConfig) : Prop :=
  ∃ r path fault, inv.Builds r (some path) ∧ r.config = .ok c ∧
    d.write path (Blob.ofConfig c) = .error fault

/-- How a run ends in a directory: without a record of an error, with one and nothing printed, or
with one behind the config that could not be written. -/
inductive Ending (inv : Invocation) (d : Directory) : Report → Prop where
  | success (output : String) {messages : List Message}
      (h : ∀ text, .record .error text ∉ messages) : Ending inv d ⟨0, output, messages⟩
  | failure {messages : List Message} {text : String} (htext : text ≠ "")
      (h : .record .error text ∈ messages) : Ending inv d (.failure messages)
  | unwritten {c : StateConfig} {text : String} (htext : text ≠ "") (h : inv.FailsAtWriting d c) :
      Ending inv d ⟨1, c.text ++ "\n", [.record .error text]⟩

namespace Ending

variable {report : Report}

theorem exitCode_cases (h : inv.Ending d report) : report.exitCode = 0 ∨ report.exitCode = 1 := by
  cases h with
  | success => exact .inl rfl
  | failure | unwritten => exact .inr rfl

theorem exitCode_eq_one_iff (h : inv.Ending d report) :
    report.exitCode = 1 ↔ ∃ text, .record .error text ∈ report.messages := by
  cases h with
  | success output h => exact iff_of_false (by simp) (not_exists.mpr h)
  | failure htext h => exact iff_of_true rfl ⟨_, h⟩
  | unwritten htext h => exact iff_of_true rfl ⟨_, List.mem_singleton_self _⟩

/-- What a run says that fails is not empty. -/
theorem exists_error (h : inv.Ending d report) (hcode : report.exitCode = 1) :
    ∃ text, text ≠ "" ∧ .record .error text ∈ report.messages := by
  cases h with
  | success => cases hcode
  | failure htext h => exact ⟨_, htext, h⟩
  | unwritten htext => exact ⟨_, htext, List.mem_singleton_self _⟩

theorem output_eq (h : inv.Ending d report) (hcode : report.exitCode = 1)
    (hwritten : ∀ c, ¬ inv.FailsAtWriting d c) : report.output = "" := by
  cases h with
  | success => cases hcode
  | failure => rfl
  | unwritten htext h => exact absurd h (hwritten _)

end Ending

/-- What a run comes to that has anything to do. -/
theorem report_ending (h : inv.arguments ≠ []) (d : Directory) :
    inv.Ending d (inv.plan.runIn d).1 := by
  have hcourse := inv.plan_course
  generalize inv.plan = plan at hcourse
  cases hcourse with
  | idle h' => exact absurd h' h
  | help => exact .success _ fun text => List.not_mem_nil
  | refused cause => exact .failure cause.message_ne_empty (List.mem_singleton_self _)
  | unknown name => exact .failure (by simp) List.mem_cons_self
  | @built r output? hbuilds =>
    cases output? with
    | none => exact .success _ fun text => List.not_mem_nil
    | some path =>
      cases hwrite : d.write path (Blob.ofConfig r.packed) with
      | ok after =>
        rw [Command.runIn_buildPlan_of_ok hwrite]
        exact .success _ fun text => by simp
      | error fault =>
        rw [Command.runIn_buildPlan_of_error hwrite]
        exact .unwritten (CommandError.message_ne_empty _)
          ⟨r, path, fault, hbuilds, r.config_eq, hwrite⟩
  | @inspected path index =>
    rw [Plan.runIn]
    rcases Command.inspectReport_cases path index (d.read path) with ⟨cause, h⟩ | ⟨c, h⟩
    · rw [h]
      exact .failure cause.message_ne_empty (List.mem_singleton_self _)
    · obtain ⟨output, messages, hdescribe, hmessages⟩ := Command.describe_eq c index
      rw [h, hdescribe]
      exact .success output hmessages
  | encoded text => exact .success _ fun text => List.not_mem_nil

theorem report_of_failsAtWriting {c : StateConfig} (h : inv.FailsAtWriting d c) :
    (inv.plan.runIn d).1.exitCode = 1 ∧ (inv.plan.runIn d).1.output = c.text ++ "\n" := by
  obtain ⟨r, path, fault, hbuilds, hc, hwrite⟩ := h
  rw [r.config_eq] at hc
  obtain rfl := Except.ok.inj hc
  rw [plan_of_builds hbuilds, Command.runIn_buildPlan_of_error hwrite]
  exact ⟨rfl, rfl⟩

theorem report_of_idle (h : inv.arguments = []) : (inv.plan.runIn d).1 = inv.noCommandReport := by
  rw [plan_of_idle h]
  rfl

theorem usage_mem_entries (h : inv.arguments = []) (env : Environment) (stamp : String) :
    (Message.raw (usage inv.program), usage inv.program) ∈ inv.entries env stamp d := by
  rw [entries, report_of_idle h]
  exact List.mem_append_right _ (List.mem_singleton_self _)

/-- A run exits with zero or one, and with one exactly if it writes a record of an error or has no
command, for which it writes the usage text, whatever level of records is asked for. The record is a
line in the error stream that says something. A run that fails prints nothing, unless it fails at
writing a config, which it has then printed. -/
theorem runIn_exitCode (inv : Invocation) (env : Environment) (stamp : String) (d : Directory) :
    ((inv.runIn env stamp d).1.exitCode = 0 ∨ (inv.runIn env stamp d).1.exitCode = 1) ∧
    (inv.runIn env stamp d).1.errors = String.join ((inv.entries env stamp d).map Prod.snd) ∧
    ((inv.runIn env stamp d).1.exitCode = 1 ↔
      (∃ text line, (Message.record .error text, line) ∈ inv.entries env stamp d) ∨
        inv.arguments = []) ∧
    (∀ text line, (Message.record .error text, line) ∈ inv.entries env stamp d →
      env.Reports stamp text line) ∧
    ((inv.runIn env stamp d).1.exitCode = 1 → inv.arguments ≠ [] →
      ∃ text, text ≠ "" ∧ env.Reports stamp text (inv.runIn env stamp d).1.errors) ∧
    (inv.arguments = [] → (Message.raw (usage inv.program), usage inv.program) ∈
        inv.entries env stamp d ∧
      IsUsage inv.program (inv.runIn env stamp d).1.errors) ∧
    ((inv.runIn env stamp d).1.exitCode = 1 → (∀ c, ¬ inv.FailsAtWriting d c) →
      (inv.runIn env stamp d).1.output = "") ∧
    ∀ c, inv.FailsAtWriting d c →
      (inv.runIn env stamp d).1.exitCode = 1 ∧
        (inv.runIn env stamp d).1.output = c.text ++ "\n" := by
  have hwritten : (∃ text line, (Message.record .error text, line) ∈ inv.entries env stamp d) ↔
      ∃ text, .record .error text ∈ (inv.plan.runIn d).1.messages :=
    exists_congr fun text => LogSettings.record_mem_entries
  have hcode : (inv.runIn env stamp d).1.exitCode = (inv.plan.runIn d).1.exitCode := rfl
  rw [hwritten, hcode]
  by_cases hidle : inv.arguments = []
  · have hreport : (inv.plan.runIn d).1 = inv.noCommandReport := report_of_idle hidle
    have husage := usage_mem_entries (d := d) hidle env stamp
    refine ⟨.inr (by rw [hreport]; rfl), errors_eq inv env stamp d, ?_,
      fun text line => LogSettings.reports_entry, fun _ h => absurd hidle h, fun _ => ⟨husage, ?_⟩,
      fun _ _ => ?_, fun c => report_of_failsAtWriting⟩
    · exact iff_of_true (by rw [hreport]; rfl) (.inr hidle)
    · exact (isUsage_usage inv.program).mono (infix_errors husage)
    · rw [runIn_eq, hreport]
      rfl
  · have hending := inv.report_ending hidle d
    refine ⟨hending.exitCode_cases, errors_eq inv env stamp d, ?_,
      fun text line => LogSettings.reports_entry, fun hone _ => ?_, fun h => absurd h hidle,
      hending.output_eq, fun c => report_of_failsAtWriting⟩
    · rw [hending.exitCode_eq_one_iff]
      exact (or_iff_left hidle).symm
    · obtain ⟨text, htext, hmem⟩ := hending.exists_error hone
      exact ⟨text, htext, reports_errors hmem env stamp⟩

/-- The file is in a directory that is not there; only errors are asked for. -/
theorem runIn_exitCode_unwritable :
    let inv : Invocation := ⟨"salegate", ["after-time", "-o", "missing/f", "0x10"]⟩
    let settings : Environment := ⟨some "error", none, none, none⟩
    let c := (Rule.afterTime (.ofNat 16)).packed
    inv.arguments ≠ [] ∧ inv.FailsAtWriting ⟨[]⟩ c ∧
      (inv.runIn settings "12:00" ⟨[]⟩).1.exitCode = 1 ∧
      (inv.runIn settings "12:00" ⟨[]⟩).1.output = c.text ++ "\n" ∧
      c.text = "\x7b sources: [0x060001001f00], constants: [16], stackLength: 3, " ++
        "argumentsLength: 0 \x7d" ∧
      (∃ text line, (Message.record .error text, line) ∈ inv.entries settings "12:00" ⟨[]⟩) ∧
      (∃ text, text ≠ "" ∧
        settings.Reports "12:00" text (inv.runIn settings "12:00" ⟨[]⟩).1.errors) ∧
      (inv.runIn settings "12:00" ⟨[]⟩).1.errors =
        "12:00 [ERROR] io error: missing/f: No such file or directory (os error 2)\n" := by
  intro inv settings c
  have hfails : inv.FailsAtWriting ⟨[]⟩ c := by
    refine ⟨.afterTime (.ofNat 16), "missing/f", .notFound, ⟨"after-time", _,
      [.output "-o" "missing/f", .positional "0x10"], rfl, ⟨rfl, ?_⟩,
      .afterTime (by decide +kernel), rfl⟩, Rule.config_eq _, by decide +kernel⟩
    simp [Options.Item.Proper]
  obtain ⟨-, -, herror, -, hreports, -, -, hwritten⟩ := runIn_exitCode inv settings "12:00" ⟨[]⟩
  obtain ⟨hcode, houtput⟩ := hwritten c hfails
  have hnonempty : inv.arguments ≠ [] := List.cons_ne_nil _ _
  exact ⟨hnonempty, hfails, hcode, houtput, by decide +kernel,
    (herror.mp hcode).resolve_right hnonempty, hreports hcode hnonempty, by decide +kernel⟩

end Invocation

end SaleRules
