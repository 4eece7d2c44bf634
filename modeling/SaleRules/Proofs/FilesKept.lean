import SaleRules.Proofs.DirectoryFiles
import SaleRules.Proofs.InvocationCourses

/-!
# The files behind a sequence of runs

A run leaves all files as they are unless it succeeds at building a config for a file, and then it
changes that file alone. So what a file holds behind any sequence of runs is the blob of the last
run that stored one in it, or what it held before all of them.
-/
namespace SaleRules

/-- One run of the program: how it was called, with which settings, and at what time. -/
structure Run where
  invocation : Invocation
  environment : Environment
  stamp : String

namespace Run

def outcome (run : Run) (d : Directory) : Outcome :=
  (run.invocation.runIn run.environment run.stamp d).1

/-- The directory behind the run. -/
def after (run : Run) (d : Directory) : Directory :=
  (run.invocation.runIn run.environment run.stamp d).2

/-- The run succeeds at building a config, and the file is the one that is named for it last. -/
structure Stores (run : Run) (d : Directory) (name : String) (c : StateConfig) : Prop where
  builds : ∃ r path, run.invocation.Builds r (some path) ∧ r.config = .ok c ∧ d.Names path name
  succeeds : (run.outcome d).exitCode = 0

end Run

namespace Directory

/-- The directory behind runs one after another. -/
def afterRuns (d : Directory) : List Run → Directory
  | [] => d
  | run :: runs => (run.after d).afterRuns runs

/-- None of the runs stores a config in the file. -/
def Untouched (d : Directory) (name : String) : List Run → Prop
  | [] => True
  | run :: runs => (∀ c, ¬ run.Stores d name c) ∧ (run.after d).Untouched name runs

/-- The directories differ in one file at most, which holds the given bytes in the second. -/
structure Replaces (before after : Directory) (name : String) (bytes : Bytes) : Prop where
  file : after.find? name = some bytes
  others : ∀ other, other ≠ name → after.find? other = before.find? other

theorem replaces_put (d : Directory) (name : String) (bytes : Bytes) :
    d.Replaces (d.put name bytes) name bytes :=
  ⟨d.find?_put_self name bytes, fun _ h => d.find?_put_of_ne h bytes⟩

end Directory

/-! ## One run -/

namespace Run

variable {run : Run} {d : Directory}

theorem outcome_of_plan {plan : Plan} (h : run.invocation.plan = plan) :
    (run.outcome d).exitCode = (plan.runIn d).1.exitCode ∧
      (run.outcome d).output = (plan.runIn d).1.output ∧ run.after d = (plan.runIn d).2 := by
  subst h
  exact ⟨rfl, rfl, rfl⟩

/-- A run whose config can be written prints and writes it. -/
theorem of_written {r : Rule} {path : String} {next : Directory}
    (h : run.invocation.Builds r (some path))
    (hwrite : d.write path (Blob.ofConfig r.packed) = .ok next) :
    (run.outcome d).exitCode = 0 ∧ (run.outcome d).output = r.packed.text ++ "\n" ∧
      run.after d = next := by
  have hplan := outcome_of_plan (d := d) (Invocation.plan_of_builds h)
  rw [Command.runIn_buildPlan_of_ok hwrite] at hplan
  exact hplan

/-- A run whose config cannot be written prints it and fails. -/
theorem of_unwritten {r : Rule} {path : String} {fault : Fault}
    (h : run.invocation.Builds r (some path))
    (hwrite : d.write path (Blob.ofConfig r.packed) = .error fault) :
    (run.outcome d).exitCode = 1 ∧ (run.outcome d).output = r.packed.text ++ "\n" ∧
      run.after d = d := by
  have hplan := outcome_of_plan (d := d) (Invocation.plan_of_builds h)
  rw [Command.runIn_buildPlan_of_error hwrite] at hplan
  exact hplan

theorem of_builds {r : Rule} {path : String} (h : run.invocation.Builds r (some path)) :
    (run.outcome d).output = r.packed.text ++ "\n" ∧
    ((∃ name, d.Names path name ∧ (run.outcome d).exitCode = 0 ∧
        run.after d = d.put name (Blob.ofConfig r.packed)) ∨
      (run.outcome d).exitCode = 1 ∧ run.after d = d) := by
  cases hwrite : d.write path (Blob.ofConfig r.packed) with
  | error fault =>
    obtain ⟨hcode, houtput, hafter⟩ := of_unwritten h hwrite
    exact ⟨houtput, .inr ⟨hcode, hafter⟩⟩
  | ok next =>
    obtain ⟨hcode, houtput, hafter⟩ := of_written h hwrite
    obtain ⟨name, hname, -, rfl⟩ := Directory.write_eq_ok_iff.mp hwrite
    exact ⟨houtput, .inl ⟨name, hname, hcode, hafter⟩⟩

theorem Stores.after {name : String} {c : StateConfig} (h : run.Stores d name c) :
    run.after d = d.put name (Blob.ofConfig c) := by
  obtain ⟨r, path, hbuilds, hc, hname⟩ := h.builds
  rw [r.config_eq] at hc
  obtain rfl := Except.ok.inj hc
  obtain ⟨-, ⟨name', hname', -, hafter⟩ | ⟨hcode, -⟩⟩ := of_builds (d := d) hbuilds
  · rw [hname.unique hname']
    exact hafter
  · rw [h.succeeds] at hcode
    cases hcode

/-- A run that changes anything stores a config. -/
theorem after_cases (run : Run) (d : Directory) :
    run.after d = d ∨ ∃ name c, run.Stores d name c := by
  have hplan := run.invocation.plan_course
  generalize hp : run.invocation.plan = plan at hplan
  cases hplan with
  | idle | help | refused | unknown | inspected | encoded =>
    exact .inl (outcome_of_plan (d := d) hp).2.2
  | @built r output? h =>
    cases output? with
    | none => exact .inl (outcome_of_plan (d := d) hp).2.2
    | some path =>
      rcases (of_builds (d := d) h).2 with ⟨name, hname, hcode, -⟩ | ⟨-, hafter⟩
      · exact .inr ⟨name, _, ⟨r, path, h, r.config_eq, hname⟩, hcode⟩
      · exact .inl hafter

theorem find?_after {name : String} (h : ∀ c, ¬ run.Stores d name c) :
    (run.after d).find? name = d.find? name := by
  rcases run.after_cases d with hafter | ⟨name', c, hstores⟩
  · rw [hafter]
  · have hne : name ≠ name' := by
      rintro rfl
      exact h c hstores
    rw [hstores.after, Directory.find?_put_of_ne d hne]

theorem after_of_failure (h : (run.outcome d).exitCode = 1) : run.after d = d := by
  refine (run.after_cases d).resolve_right ?_
  rintro ⟨name, c, hstores⟩
  rw [hstores.succeeds] at h
  cases h

theorem after_of_other (h : ∀ name ∈ Command.builders, run.invocation.arguments.head? ≠ some name) :
    run.after d = d := by
  refine (run.after_cases d).resolve_right ?_
  rintro ⟨_, c, hstores⟩
  obtain ⟨r, path, hbuilds, -, -⟩ := hstores.builds
  obtain ⟨name, hname, hhead⟩ := hbuilds.head
  exact h name hname hhead

theorem after_of_help (h : run.invocation.AsksHelp) : run.after d = d :=
  (outcome_of_plan (Invocation.plan_of_help h)).2.2

/-- A command that builds and succeeds without help has built a config. -/
theorem builds_of_success {name : String} (hname : name ∈ Command.builders)
    (hhead : run.invocation.arguments.head? = some name) (hcode : (run.outcome d).exitCode = 0)
    (hhelp : ¬ run.invocation.AsksHelp) : ∃ r output?, run.invocation.Builds r output? := by
  have hplan := run.invocation.plan_course
  generalize hp : run.invocation.plan = plan at hplan
  have hexit := (outcome_of_plan (d := d) hp).1
  rw [hcode] at hexit
  cases hplan with
  | idle h => simp [h] at hhead
  | help h => exact absurd h hhelp
  | refused | unknown => cases hexit
  | @built r output? h => exact ⟨r, output?, h⟩
  | inspected h =>
    rw [h.head, Option.some.injEq] at hhead
    simp [← hhead, Command.builders] at hname
  | encoded text h =>
    rw [h, Option.some.injEq] at hhead
    simp [← hhead, Command.builders] at hname

theorem replaces_of_builds {r : Rule} {path : String}
    (h : run.invocation.Builds r (some path)) (hcode : (run.outcome d).exitCode = 0) :
    ∃ name, d.Names path name ∧ d.Replaces (run.after d) name (Blob.ofConfig r.packed) := by
  rcases (of_builds (d := d) h).2 with ⟨name, hname, -, hafter⟩ | ⟨hfailed, -⟩
  · exact ⟨name, hname, hafter ▸ d.replaces_put name _⟩
  · rw [hcode] at hfailed
    cases hfailed

theorem output_of_builds {r : Rule} {output? : Option String}
    (h : run.invocation.Builds r output?) : (run.outcome d).output = r.packed.text ++ "\n" := by
  cases output? with
  | none => exact (outcome_of_plan (Invocation.plan_of_builds h)).2.1
  | some path => exact (of_builds h).1

end Run

/-! ## Sequences of runs -/

namespace Directory

/-- The last run that stores a config in a file settles what the file holds. -/
theorem find?_afterRuns (d : Directory) (runs : List Run) (name : String) :
    (∃ before run later c, runs = before ++ run :: later ∧
      run.Stores (d.afterRuns before) name c ∧
      (run.after (d.afterRuns before)).Untouched name later ∧
      (d.afterRuns runs).find? name = some (Blob.ofConfig c)) ∨
    (d.Untouched name runs ∧ (d.afterRuns runs).find? name = d.find? name) := by
  induction runs generalizing d with
  | nil => exact .inr ⟨trivial, rfl⟩
  | cons run runs ih =>
    -- a later run that stores settles what the file holds, and only without one does the first run
    rcases ih (run.after d) with
      ⟨before, last, later, c, rfl, hstores, hlater, hfind⟩ | ⟨hrest, hfind⟩
    · exact .inl ⟨run :: before, last, later, c, rfl, hstores, hlater, hfind⟩
    · by_cases hrun : ∃ c, run.Stores d name c
      · obtain ⟨c, hstores⟩ := hrun
        refine .inl ⟨[], run, runs, c, rfl, hstores, hrest, ?_⟩
        rw [afterRuns, hfind, hstores.after, find?_put_self]
      · have hnot := not_exists.mp hrun
        exact .inr ⟨⟨hnot, hrest⟩, hfind.trans (Run.find?_after hnot)⟩

/-- A run that fails, a request for help and any command that does not build leave all files as they
are. A command that builds and succeeds prints a config and changes at most the file that its last
option for one names, which then holds the blob of that config. So behind any runs a file holds what
the last run left that stored a config in it, or what it held before. -/
theorem afterRuns_files :
    (∀ (run : Run) d, (run.outcome d).exitCode = 1 → run.after d = d) ∧
    (∀ (run : Run) d, (∀ name ∈ Command.builders, run.invocation.arguments.head? ≠ some name) →
      run.after d = d) ∧
    (∀ (run : Run) d, run.invocation.AsksHelp → run.after d = d) ∧
    (∀ (run : Run) d, ∀ name ∈ Command.builders, run.invocation.arguments.head? = some name →
      (run.outcome d).exitCode = 0 → ¬ run.invocation.AsksHelp →
      ∃ r output? c, run.invocation.Builds r output? ∧ r.config = .ok c ∧
        (run.outcome d).output = c.text ++ "\n" ∧
        (output? = none → run.after d = d) ∧
        ∀ path, output? = some path →
          ∃ file, d.Names path file ∧ d.Replaces (run.after d) file (Blob.ofConfig c)) ∧
    ∀ (d : Directory) runs name,
      (∃ before run later c, runs = before ++ run :: later ∧
        run.Stores (d.afterRuns before) name c ∧
        (run.after (d.afterRuns before)).Untouched name later ∧
        (d.afterRuns runs).find? name = some (Blob.ofConfig c)) ∨
      (d.Untouched name runs ∧ (d.afterRuns runs).find? name = d.find? name) := by
  refine ⟨fun run d => Run.after_of_failure, fun run d => Run.after_of_other,
    fun run d => Run.after_of_help, ?_, find?_afterRuns⟩
  intro run d name hname hhead hcode hhelp
  obtain ⟨r, output?, hbuilds⟩ := Run.builds_of_success hname hhead hcode hhelp
  refine ⟨r, output?, r.packed, hbuilds, r.config_eq, Run.output_of_builds hbuilds, ?_, ?_⟩
  · rintro rfl
    exact (Run.outcome_of_plan (Invocation.plan_of_builds hbuilds)).2.2
  · rintro path rfl
    exact Run.replaces_of_builds hbuilds hcode

/-- Two files are named and the second is written, over one that was there; a later command for it
has a bad number. -/
theorem afterRuns_files_overwritten :
    let settings : Environment := ⟨some "debug", none, none, none⟩
    let store : Run :=
      ⟨⟨"salegate", ["after-time", "5", "-o", "a", "--output", "./f"]⟩, settings, ""⟩
    let refuse : Run := ⟨⟨"salegate", ["after-block", "ten", "-o", "f"]⟩, settings, ""⟩
    let d : Directory := ⟨[("f", [1]), ("g", [2])]⟩
    store.invocation.arguments.head? = some "after-time" ∧ (store.outcome d).exitCode = 0 ∧
      ¬ store.invocation.AsksHelp ∧ (refuse.outcome (store.after d)).exitCode = 1 ∧
      refuse.after (store.after d) = store.after d ∧
      ∃ r output? c, store.invocation.Builds r output? ∧ r.config = .ok c ∧
        (store.outcome d).output = c.text ++ "\n" ∧
        (output? = none → store.after d = d) ∧
        ∀ path, output? = some path →
          ∃ file, d.Names path file ∧ d.Replaces (store.after d) file (Blob.ofConfig c) := by
  intro settings store refuse d
  have hbuilds : store.invocation.Builds (.afterTime (.ofNat 5)) (some "./f") := by
    refine ⟨"after-time", _, [.positional "5", .output "-o" "a", .output "--output" "./f"], rfl,
      ⟨rfl, ?_⟩, .afterTime (by decide +kernel), rfl⟩
    simp [Options.Item.Proper]
  have hcode : (store.outcome d).exitCode = 0 := by decide +kernel
  have hhelp : ¬ store.invocation.AsksHelp := by
    intro h
    have hplan := Invocation.plan_of_help h
    rw [Invocation.plan_of_builds hbuilds] at hplan
    cases hplan
  have hfailed : (refuse.outcome (store.after d)).exitCode = 1 := by decide +kernel
  exact ⟨rfl, hcode, hhelp, hfailed, afterRuns_files.1 refuse _ hfailed,
    afterRuns_files.2.2.2.1 store d "after-time" (by simp [Command.builders]) rfl hcode hhelp⟩

end Directory

end SaleRules
