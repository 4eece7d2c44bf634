import SaleRules.Text.Blank

/-!
# Log records

A record is a line with a level; it is written if its level reaches the least level asked for. A
line carries the time and its level in front unless plain lines are asked for, and stands between
colour codes where a terminal is announced. Text such as the usage is no record: it is written as
it is, whatever the settings.
-/
namespace SaleRules

inductive Level where
  | debug | info | warn | error
  deriving DecidableEq, Repr

namespace Level

def rank : Level → Nat
  | debug => 0
  | info => 1
  | warn => 2
  | error => 3

def text : Level → String
  | debug => "DEBUG"
  | info => "INFO"
  | warn => "WARN"
  | error => "ERROR"

/-- Reads the name of a level in ASCII letters of any case, with blanks around it. -/
def parse? (name : String) : Option Level :=
  let lower := String.ofList ((Text.trim name.toList).map Char.toLower)
  if lower = "debug" then some debug
  else if lower = "info" then some info
  else if lower = "warn" ∨ lower = "warning" then some warn
  else if lower = "error" then some error
  else none

/-- Whether records of a level are written when `least` is asked for. -/
def reaches (level least : Level) : Bool := least.rank ≤ level.rank

/-- The codes that colour a line: bold yellow for warnings, bold red for errors, cyan for
debugging. -/
def colour : Level → String
  | debug => "\x1b[36m"
  | info => ""
  | warn => "\x1b[1m\x1b[33m"
  | error => "\x1b[1m\x1b[31m"

end Level

/-- What goes to the error stream. -/
inductive Message where
  | record (level : Level) (text : String)
  | raw (text : String)
  deriving DecidableEq, Repr

/-- The variables that settle how messages are written, as far as they are set. -/
structure Environment where
  level? : Option String
  plain? : Option String
  terminal? : Option String
  noColour? : Option String
  deriving DecidableEq, Repr

structure LogSettings where
  least : Level
  plain : Bool
  coloured : Bool
  deriving DecidableEq, Repr

namespace LogSettings

/-- Lines are plain if the variable is exactly `1`. They are coloured if a terminal other than the
dumb one is named and colour is not refused; an empty value counts as set. -/
def ofEnvironment (env : Environment) : LogSettings where
  least := (env.level?.bind Level.parse?).getD .info
  plain := env.plain? == some "1"
  coloured := env.terminal?.any (· ≠ "dumb") && env.noColour?.isNone

/-- A warning about a level that has no such name. -/
def warnings (env : Environment) : List Message :=
  match env.level? with
  | none => []
  | some name =>
    if (Level.parse? name).isSome then []
    else [.record .warn
      ("ignoring SALE_GATE_LOG=" ++ name ++ ": expected debug, info, warn or error")]

def reset : String := "\x1b[0m"

/-- The text of a message at a time of day. -/
def render (s : LogSettings) (stamp : String) : Message → String
  | .raw text => text
  | .record level text =>
    if level.reaches s.least then
      let mark := if s.plain then "" else stamp ++ " [" ++ level.text ++ "] "
      let line := mark ++ text ++ "\n"
      if s.coloured then reset ++ level.colour ++ line ++ reset else line
    else ""

def renderAll (s : LogSettings) (stamp : String) (messages : List Message) : String :=
  String.join (messages.map (s.render stamp))

/-- The warnings come before plain lines are asked for, so they carry the time and the level. -/
def errorText (env : Environment) (stamp : String) (messages : List Message) : String :=
  let settings := ofEnvironment env
  { settings with plain := false }.renderAll stamp (warnings env) ++
    settings.renderAll stamp messages

end LogSettings

end SaleRules
