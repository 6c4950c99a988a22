import TypedStyle.Arguments
import TypedStyle.Disk
import TypedStyle.Log

/-!
# Notices

What a program tells its user, in the order of telling: log records, diagnostics, failures, and
how a command gets on. A whole run of a program is an `Outcome`.
-/

namespace TypedStyle

/-- Why a command, or its work on one entry, failed. -/
inductive Failure where
  | read (path : Path) (error : DiskError)
  | write (path : Path) (error : DiskError)
  | create (path : Path) (error : DiskError)
  | remove (path : Path) (error : DiskError)
  | invalidManifest
  | missingEntry
  | invalidEntry (path : Path)
  /-- The source has mistakes, which have been shown. -/
  | notCompiled (path : Path)
  /-- A checked source could not be folded. -/
  | fold (error : FoldError)
  | argument (error : ArgumentError)
  | unknownCommand (text : String)
deriving DecidableEq

def Failure.message : Failure → String
  | read path error => "failed to read " ++ path.text ++ ": " ++ error.message
  | write path error => "failed to write " ++ path.text ++ ": " ++ error.message
  | create path error => "failed to create " ++ path.text ++ ": " ++ error.message
  | remove path error => "failed to remove " ++ path.text ++ ": " ++ error.message
  | invalidManifest => "invalid manifest"
  | missingEntry => "missing entry: pass a file path or set package.entry in icss.toml"
  | invalidEntry path => "invalid entry path: " ++ path.text
  | notCompiled path => "failed to compile " ++ path.text
  | fold error => (CompileError.fold error).message
  | argument error => error.message
  | unknownCommand text => "unknown command: " ++ text

/-- A command of the project tool. -/
inductive Command where
  | build
  | check
  | clean
deriving DecidableEq

namespace Command

def name : Command → String
  | build => "build"
  | check => "check"
  | clean => "clean"

def ofName? (text : String) : Option Command :=
  [build, check, clean].find? (·.name = text)

end Command

/-- How a command gets on. -/
inductive Progress where
  /-- The output of an entry need not be made again. -/
  | upToDate (entry : Path)
  | built (entry output : Path)
  | done (success : Bool)
deriving DecidableEq

/-- The words for how a command gets on. -/
def Progress.message : Progress → String
  | upToDate entry => entry.text ++ " up to date"
  | built entry output => entry.text ++ " -> " ++ output.text
  | done success => if success then "ok" else "failed"

/-- Something a program tells its user. -/
inductive Notice where
  | log (record : LogRecord)
  | diagnostic (path : Path) (source : String) (found : Diagnostic)
  | failure (cause : Failure)
  | plain (cause : Failure)
  | progress (command : Command) (state : Progress)
  | usage (text : String)
deriving DecidableEq

namespace Notice

/-- What the user sees of a notice when the log goes as far as `level`, if anything. -/
def text? (level : Level) : Notice → Option String
  | log record => if level.shows record.level then some record.line else none
  | diagnostic path source found => found.render? (some path.text) source
  | failure cause => some ("error: " ++ cause.message)
  | plain cause => some cause.message
  | progress command state => some ("[" ++ command.name ++ "] " ++ state.message)
  | usage text => some text

end Notice

def CompileError.notices (path : Path) (source : String) : CompileError → List Notice
  | diagnostics found => found.map (.diagnostic path source)
  | fold error => [.failure (.fold error)]

/-- How steps of compilation are told. -/
def Event.notices (events : List Event) : List Notice :=
  events.map fun event => .log (.compiled event)

/-- A run of a program. -/
structure Outcome where
  disk : Disk
  success : Bool
  printed : String := ""
  notices : List Notice

namespace Outcome

def exitCode (o : Outcome) : UInt32 :=
  if o.success then 0 else 1

/-- What the user sees of the notices, each on a line of its own. -/
def report (level : Level) (o : Outcome) : String :=
  String.join ((o.notices.filterMap (·.text? level)).map (· ++ "\n"))

end Outcome

end TypedStyle
