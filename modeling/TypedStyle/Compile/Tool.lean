import TypedStyle.Notice
import TypedStyle.Sheet.Outline

/-!
# The compiler of single files

Compiles a source file and prints the stylesheet, or writes it to a file. On request it only
checks the source, or prints the outline of the tree.
-/

namespace TypedStyle.Compiler

def usage : String :=
  "usage: icssc [--dump-ast] [--check] [--select-branches] [-o <file>] <file>"

/-- What the arguments ask for. -/
structure Request where
  /-- Whether to print the outline of the tree. -/
  dump : Bool := false
  check : Bool := false
  options : Options := {}
  output : Option Path := none
  path : Option Path := none
deriving DecidableEq

/-- Takes in an argument that stands for itself. -/
def Request.add (text : String) (found : Request) : Except ArgumentError Request :=
  if text = "--dump-ast" then .ok { found with dump := true }
  else if text = "--check" then .ok { found with check := true }
  else if text = "--select-branches" then .ok { found with options := { selectBranches := true } }
  else if text = "-o" then .error (.missingPath text)
  else match found.path with
  | none => .ok { found with path := some ⟨text⟩ }
  | some _ => .error (.unexpected text)

/-- Reads the remaining arguments, after what has been found. -/
def Request.readFrom (found : Request) : List String → Except ArgumentError Request
  | [] => .ok found
  | [text] => found.add text
  | text :: next :: rest =>
    if text = "-o" then readFrom { found with output := some ⟨next⟩ } rest
    else
      match found.add text with
      | .error e => .error e
      | .ok found => readFrom found (next :: rest)

def Request.read (arguments : List String) : Except ArgumentError Request :=
  readFrom {} arguments

def outlined (sheet : Sheet) : String :=
  sheet.outline.text 0 ++ "\n"

/-- Writes a stylesheet where the request says. -/
def deliver (d : Disk) (output : Option Path) (css : String) (notices : List Notice) : Outcome :=
  match output with
  | none => { disk := d, success := true, printed := css, notices }
  | some path =>
    match d.write path (Text.utf8 css) with
    | .error e => { disk := d, success := false, notices := notices ++ [.plain (.write path e)] }
    | .ok d =>
      let wrote := Notice.log (.wrote .compiler path css.utf8ByteSize)
      { disk := d, success := true, notices := notices ++ [wrote] }

/-- Does what is asked with the text of a source file. -/
def compileText (d : Disk) (request : Request) (path : Path) (source : String) : Outcome :=
  let (parsed, checked) := Sheet.checkSource source
  let notices := Event.notices checked
  if parsed.diagnostics.isEmpty then
    let printed := if request.check && request.dump then outlined parsed.sheet else ""
    let finished := parsed.sheet.finish request.options
    let notices := notices ++ Event.notices finished.events
    match finished.error with
    | some e =>
      { disk := d, success := false, printed, notices := notices ++ e.notices path source }
    | none =>
      if request.check then { disk := d, success := true, printed, notices }
      else if request.dump then
        { disk := d, success := true, printed := outlined finished.sheet, notices }
      else deliver d request.output finished.sheet.css notices
  else
    let shown := (CompileError.diagnostics parsed.diagnostics).notices path source
    { disk := d, success := false, notices := notices ++ shown }

def run (d : Disk) (arguments : List String) : Outcome :=
  match Request.read arguments with
  | .error e => { disk := d, success := false, notices := [.plain (.argument e), .usage usage] }
  | .ok request =>
    match request.path with
    | none => { disk := d, success := false, notices := [.usage usage] }
    | some path =>
      match d.readText path with
      | .error e => { disk := d, success := false, notices := [.plain (.read path e)] }
      | .ok source => compileText d request path source

end TypedStyle.Compiler
