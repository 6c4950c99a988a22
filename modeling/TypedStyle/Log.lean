import TypedStyle.Compile
import TypedStyle.Path
import TypedStyle.Text.Quoted

/-!
# Log records

What the programs say about their work to those who want to follow it. Each record has a level,
and is shown when the level that was asked for reaches as far.
-/

namespace TypedStyle

/-- How far a log goes. -/
inductive Level where
  | off
  | error
  | warn
  | info
  | debug
  | trace
deriving DecidableEq

namespace Level

def rank : Level → Nat
  | off => 0
  | error => 1
  | warn => 2
  | info => 3
  | debug => 4
  | trace => 5

def name : Level → String
  | off => "off"
  | error => "error"
  | warn => "warn"
  | info => "info"
  | debug => "debug"
  | trace => "trace"

def ofName? (text : String) : Option Level :=
  [off, error, warn, info, debug, trace].find? (·.name = text)

/-- Whether a log of the first level shows records of the second. -/
def shows (log record : Level) : Bool :=
  record.rank ≤ log.rank

end Level

/-- Which of the two programs is at work. -/
inductive Program where
  | compiler
  | projectTool
deriving DecidableEq

def Program.name : Program → String
  | compiler => "icssc"
  | projectTool => "icss"

/-- Something that is worth a line of the log. -/
inductive LogRecord where
  | compiled (event : Event)
  | loaded (package : String)
  | stale (record : Path)
  | wrote (program : Program) (path : Path) (bytes : Nat)
deriving DecidableEq

namespace LogRecord

def level : LogRecord → Level
  | compiled _ | loaded _ => .debug
  | stale _ => .warn
  | wrote .. => .info

/-- The part of the programs that a record comes from. -/
def source : LogRecord → String
  | compiled (.checked _) => "icssc::sema"
  | compiled (.folded _) => "icssc::transform::fold"
  | compiled (.stopped _) | compiled (.generated ..) => Program.compiler.name
  | loaded _ | stale _ => Program.projectTool.name
  | wrote program .. => program.name

def message : LogRecord → String
  | compiled (.checked n) => "type check finished diagnostics=" ++ toString n
  | compiled (.stopped n) => "compilation stopped on diagnostics count=" ++ toString n
  | compiled (.folded n) => "constant folding finished bindings=" ++ toString n
  | compiled (.generated rules bytes) =>
    "generated stylesheet rules=" ++ toString rules ++ " bytes=" ++ toString bytes
  | loaded package => "loaded manifest package=" ++ Text.quoted package
  | stale record => "stale build cache entry meta=" ++ record.text
  | wrote _ path bytes => "wrote stylesheet path=" ++ path.text ++ " bytes=" ++ toString bytes

def line (r : LogRecord) : String :=
  r.level.name.toUpper ++ " " ++ r.source ++ ": " ++ r.message

end LogRecord

end TypedStyle
