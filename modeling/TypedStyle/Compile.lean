import TypedStyle.Branch
import TypedStyle.Css
import TypedStyle.Sheet.Parser
import TypedStyle.Typing.Check

/-!
# Compilation

From a source to the generated text: read, check, fold, select branches if asked to, and write.
The first step that finds something wrong ends it. Each step leaves an event for those who want to
follow.
-/

namespace TypedStyle

/-- How to compile. -/
structure Options where
  /-- Whether to keep only the branch that each conditional takes. -/
  selectBranches : Bool := false
deriving DecidableEq

/-- Why there is no generated text. -/
inductive CompileError where
  | diagnostics (found : List Diagnostic)
  /-- A checked sheet could not be folded. -/
  | fold (error : FoldError)
deriving DecidableEq

/-- The sentence that reports why there is no generated text. -/
def CompileError.message : CompileError → String
  | diagnostics found => toString found.length ++ " error(s) reported"
  | fold error => "internal error: " ++ error.message

/-- A step of compilation that is done. -/
inductive Event where
  | checked (diagnostics : Nat)
  | stopped (diagnostics : Nat)
  /-- The sheet is folded, with so many variables bound. -/
  | folded (bindings : Nat)
  /-- The text is written, with so many rules and bytes. -/
  | generated (rules bytes : Nat)
deriving DecidableEq

/-- Reads a source and, if that went well, checks its types; with the events of it. -/
def Sheet.checkSource (source : String) : Parsed × List Event :=
  let parsed := Sheet.parse source
  if parsed.diagnostics.isEmpty then
    let found := parsed.sheet.analyze
    ({ parsed with diagnostics := found }, [.checked found.length])
  else (parsed, [])

/-- A sheet after folding and selecting, with the error that ended it and the events. -/
structure Finished where
  /-- The sheet as far as the steps got. -/
  sheet : Sheet
  /-- Why they stopped, if they did. -/
  error : Option CompileError
  events : List Event

/-- A folding error as the user meets it: a result that does not fit is a mistake of the source,
all else is one of this program. -/
def CompileError.ofFold : FoldError → CompileError
  | .overflow op node span => .diagnostics [.ofNode node span (.overflow op)]
  | error => .fold error

/-- Folds a sheet and, if asked to, selects branches. -/
def Sheet.finish (options : Options) (sheet : Sheet) : Finished :=
  let folded := sheet.fold
  match folded.error with
  | some error => { sheet := folded.sheet, error := some (.ofFold error), events := [] }
  | none =>
    let events := [Event.folded sheet.assignmentCount]
    if options.selectBranches then
      let selected := folded.sheet.selectBranches
      { sheet := selected.sheet, error := selected.error.map .fold, events }
    else { sheet := folded.sheet, error := none, events }

/-- The generated text of a source, or why there is none. -/
structure Compiled where
  result : Except CompileError String
  events : List Event

def compileWithEvents (options : Options) (source : String) : Compiled :=
  let (parsed, checkEvents) := Sheet.checkSource source
  if parsed.diagnostics.isEmpty then
    let finished := parsed.sheet.finish options
    let events := checkEvents ++ finished.events
    match finished.error with
    | some error => { result := .error error, events }
    | none =>
      let text := finished.sheet.css
      { result := .ok text
        events := events ++ [.generated finished.sheet.rules.length text.utf8ByteSize] }
  else
    { result := .error (.diagnostics parsed.diagnostics)
      events := checkEvents ++ [.stopped parsed.diagnostics.length] }

def compile (options : Options) (source : String) : Except CompileError String :=
  (compileWithEvents options source).result

end TypedStyle
