import SaleRules.Directory
import SaleRules.Log

/-!
# Plans

A command decides everything from its arguments, except for what a file holds or whether one can be
written. A plan is that decision: a report, or one action on a file and the report on its result.
It can be carried out on a directory or by the system.
-/
namespace SaleRules

/-- The exit code, the text for the output stream, and the messages for the error stream. -/
structure Report where
  exitCode : UInt32
  output : String
  messages : List Message
  deriving DecidableEq, Repr

namespace Report

def success (output : String) (messages : List Message) : Report := ⟨0, output, messages⟩

def failure (messages : List Message) : Report := ⟨1, "", messages⟩

end Report

inductive Plan where
  | done (report : Report)
  /-- Report on what a file holds. -/
  | read (path : String) (next : Except Fault Bytes → Report)
  /-- Print a text, write a file, then report on that. -/
  | write (printed path : String) (bytes : Bytes) (next : Except Fault Unit → Report)

namespace Plan

/-- Carries out a plan on a directory. -/
def runIn (d : Directory) : Plan → Report × Directory
  | done report => (report, d)
  | read path next => (next (d.read path), d)
  | write printed path bytes next =>
    let (report, after) := match d.write path bytes with
      | .ok after => (next (.ok ()), after)
      | .error fault => (next (.error fault), d)
    ({ report with output := printed ++ report.output }, after)

end Plan

end SaleRules
