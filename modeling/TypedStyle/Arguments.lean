import TypedStyle.Path

/-!
# Arguments of the project tool

What stands after the command: options, and a file or a project directory.
-/

namespace TypedStyle

/-- Why arguments cannot be read. -/
inductive ArgumentError where
  /-- An option stands last that needs a path after it. -/
  | missingPath (option : String)
  | cleanOutsideBuild
  | unknownOption (text : String)
  /-- There is an argument too many. -/
  | unexpected (text : String)
deriving DecidableEq

def ArgumentError.message : ArgumentError → String
  | missingPath option => option ++ " expects a path"
  | cleanOutsideBuild => "--clean is only supported for icss build"
  | unknownOption text => "unknown option: " ++ text
  | unexpected text => "unexpected argument: " ++ text

/-- What the arguments ask for. -/
structure Arguments where
  manifestPath : Option Path := none
  entry : Option String := none
  selectBranches : Bool := false
  clean : Bool := false
deriving DecidableEq

namespace Arguments

/-- Takes in an argument that is not an option: a project directory if no manifest is given yet,
else the entry. There is room for one entry. -/
def addPlain (isProject : Path → Bool) (text : String) (found : Arguments) :
    Except ArgumentError Arguments :=
  match found.entry with
  | some _ => .error (.unexpected text)
  | none =>
    if found.manifestPath.isNone && isProject ⟨text⟩ then
      .ok { found with manifestPath := some ⟨text⟩ }
    else .ok { found with entry := some text }

/-- Reads the remaining arguments, after what has been found. -/
def readFrom (allowClean : Bool) (isProject : Path → Bool) (found : Arguments) :
    List String → Except ArgumentError Arguments
  | [] => .ok found
  | [text] =>
    if text = "--manifest-path" ∨ text = "--file" then .error (.missingPath text)
    else single text
  | text :: next :: rest =>
    if text = "--manifest-path" then
      readFrom allowClean isProject { found with manifestPath := some ⟨next⟩ } rest
    else if text = "--file" then
      readFrom allowClean isProject { found with entry := some next } rest
    else
      match single text with
      | .error e => .error e
      | .ok found => readFrom allowClean isProject found (next :: rest)
where
  /-- Takes in an argument that stands for itself. -/
  single (text : String) : Except ArgumentError Arguments :=
    if text = "--select-branches" then .ok { found with selectBranches := true }
    else if text = "--clean" then
      if allowClean then .ok { found with clean := true } else .error .cleanOutsideBuild
    else if text.startsWith "--" then .error (.unknownOption text)
    else found.addPlain isProject text

/-- Reads arguments. `isProject` says whether a path is a directory with a manifest. -/
def read (allowClean : Bool) (isProject : Path → Bool) (arguments : List String) :
    Except ArgumentError Arguments :=
  readFrom allowClean isProject {} arguments

end Arguments

end TypedStyle
