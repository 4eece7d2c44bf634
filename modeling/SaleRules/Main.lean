import SaleRules.CommandLine.Invocation
import Std.Time.DateTime.Timestamp

/-!
# The command line program

Carries out the plan of an invocation and tells the system's streams and clock about it. Nothing is
decided here.
-/
namespace SaleRules

def Fault.numbered (code : UInt32) (details : String) : Fault :=
  .other (details ++ " (os error " ++ Text.decimal code.toNat ++ ")")

/-- The fault behind an error of the system. -/
def Fault.ofSystem : IO.Error → Fault
  | .noFileOrDirectory _ _ _ => .notFound
  | .inappropriateType _ 20 _ => .notADirectory
  | .inappropriateType _ 21 _ => .isADirectory
  | .invalidArgument _ 36 _ => .nameTooLong
  | .inappropriateType _ code details => .numbered code details
  | .permissionDenied _ code details => .numbered code details
  | .invalidArgument _ code details => .numbered code details
  | .resourceExhausted _ code details => .numbered code details
  | .resourceBusy code details => .numbered code details
  | .otherError code details => .numbered code details
  | e => .other (toString e)

/-- Carries out a plan on the system's files. -/
def Plan.perform : Plan → IO Report
  | .done report => return report
  | .read path next => do
    let result ← (IO.FS.withFile path .read (·.readBinToEnd)).toBaseIO
    return next ((result.map (·.toList)).mapError Fault.ofSystem)
  | .write printed path bytes next => do
    IO.print printed
    let result ← (IO.FS.writeBinFile path ⟨bytes.toArray⟩).toBaseIO
    return next (result.mapError Fault.ofSystem)

def Environment.current : IO Environment := do
  let level? ← IO.getEnv "SALE_GATE_LOG"
  let plain? ← IO.getEnv "SALE_GATE_LOG_PLAIN"
  let terminal? ← IO.getEnv "TERM"
  let noColour? ← IO.getEnv "NO_COLOR"
  return ⟨level?, plain?, terminal?, noColour?⟩

def currentStamp : IO String := do
  let now ← Std.Time.Timestamp.now
  return Moment.stamp (now.toMillisecondsSinceUnixEpoch.val.toNat)

/-- One run; the program is named as its file is. -/
def runProgram (args : List String) : IO UInt32 := do
  let program := (← IO.appPath).fileName.getD "salegate"
  let report ← (Invocation.mk program args).plan.perform
  IO.print report.output
  IO.eprint (LogSettings.errorText (← Environment.current) (← currentStamp) report.messages)
  return report.exitCode

end SaleRules

def main (args : List String) : IO UInt32 := SaleRules.runProgram args
