import SaleRules.CommandLine.Command

/-!
# Invocations

One run of the program, from its arguments to its exit code and the two streams. Help is looked for
in the place of the command first, then among the options; options are read before the command is
known to be one. The environment decides on nothing but the text of the error stream.
-/
namespace SaleRules

/-- How the program was called: under which name, and with which arguments behind it. -/
structure Invocation where
  program : String
  arguments : List String
  deriving DecidableEq, Repr

/-- The exit code and the text of the two streams. -/
structure Outcome where
  exitCode : UInt32
  output : String
  errors : String
  deriving DecidableEq, Repr

def usage (program : String) : String :=
  "Sale Condition Builder\n" ++
  "\n" ++
  "USAGE:\n" ++
  "    " ++ program ++ " <COMMAND> [ARGS] [OPTIONS]\n" ++
  "\n" ++
  "COMMANDS:\n" ++
  "    after-block <block>                     Active from block <block> onwards\n" ++
  "    after-time <timestamp>                  Active strictly after <timestamp>\n" ++
  "    end-raise-grace <end> <extra> <amount>  Ends after <end> if under <amount> raised, or after <extra>\n" ++
  "    inspect <file>                          Show a serialized config and its parameters\n" ++
  "    encode <MNEMONIC|opcode> [operand]      Encode one instruction as hex\n" ++
  "\n" ++
  "OPTIONS:\n" ++
  "    -o, --output <file>     Also write the binary config to <file>\n" ++
  "    --index <n>             Constant to extract with inspect (defaults to 0)\n" ++
  "    -h, --help              Print this help message\n" ++
  "\n" ++
  "Numbers may be decimal or 0x-prefixed hex.\n" ++
  "\n" ++
  "ENVIRONMENT:\n" ++
  "    SALE_GATE_LOG           Minimum log level: debug, info, warn, error\n" ++
  "    SALE_GATE_LOG_PLAIN     Set to 1 to omit timestamps and level tags\n"

namespace Invocation

def helpReport (inv : Invocation) : Report := .success (usage inv.program) []

def noCommandReport (inv : Invocation) : Report := .failure [.raw (usage inv.program)]

def unknownCommandReport (inv : Invocation) (name : String) : Report :=
  .failure [.record .error ("Unknown command: " ++ name ++ "\n"), .raw (usage inv.program)]

def stopReport (inv : Invocation) : OptionStop → Report
  | .help => inv.helpReport
  | .missingArgument option => .ofError (.missingArgument option)
  | .badIndex text => .ofError (.badIndex text)

def plan (inv : Invocation) : Plan :=
  match inv.arguments with
  | [] => .done inv.noCommandReport
  | name :: rest =>
    if Options.isHelp name then .done inv.helpReport
    else
      match Options.read rest with
      | .error stop => .done (inv.stopReport stop)
      | .ok options =>
        match Command.ofName? name with
        | none => .done (inv.unknownCommandReport name)
        | some command =>
          match command.plan? options with
          | .error cause => .done (.ofError cause)
          | .ok plan => plan

/-- Runs in a directory; `stamp` is the time in the records. -/
def runIn (inv : Invocation) (env : Environment) (stamp : String) (d : Directory) :
    Outcome × Directory :=
  let (report, after) := inv.plan.runIn d
  (⟨report.exitCode, report.output, LogSettings.errorText env stamp report.messages⟩, after)

end Invocation

end SaleRules
