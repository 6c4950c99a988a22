import TypedStyle.Manifest
import TypedStyle.Notice

/-!
# Projects

A project is a directory, with a manifest if there is one. The manifest is the one that is asked
for, or else the nearest one in the working directory or a directory around it.
-/

namespace TypedStyle

/-- A project. -/
structure Project where
  manifest : Option Manifest
  directory : Option Path

namespace Project

/-- The name of the manifest in the directory of a project. -/
def manifestName : Path := ⟨"icss.toml"⟩

/-- Whether a path is a directory with a manifest. -/
def isProject (d : Disk) (path : Path) : Bool :=
  d.isDirectory path && d.has (path.join manifestName)

/-- The manifest in the nearest of the working directory and those around it that has one. -/
def nearestManifest (d : Disk) : Option Path :=
  ((d.cwdPath :: d.cwdPath.parents).map (·.join manifestName)).find? d.has

def locate (d : Disk) : Option Path → Option (Path × Option Path)
  | some path =>
    if d.isDirectory path then some (path.join manifestName, some path)
    else some (path, path.parent?)
  | none => (nearestManifest d).map fun path => (path, path.parent?)

/-- Finds and loads the project, given the path of a manifest or its directory if one is asked
for. -/
def load (d : Disk) (asked : Option Path) : Except Failure Project :=
  match locate d asked with
  | none => .ok { manifest := none, directory := none }
  | some (path, directory) =>
    match d.readText path with
    | .error e => .error (.read path e)
    | .ok text =>
      match Manifest.parse? text with
      | none => .error .invalidManifest
      | some manifest => .ok { manifest := some manifest, directory }

/-- The directory that relative entries and outputs are taken from. -/
def base (d : Disk) (p : Project) : Path :=
  p.directory.getD d.cwdPath

/-! ## Entries -/

/-- The first of each group of paths that name the same file. -/
def distinct : List Path → List Path
  | [] => []
  | path :: rest => path :: (distinct rest).filter (!path.same ·)

/-- The names of the entries to work on: the one that is asked for, or else all of the
manifest's. -/
def entryNames (asked : Option String) (manifest : Option Manifest) : List String :=
  match asked with
  | some entry => [entry]
  | none => manifest.elim [] Manifest.entryNames

/-- The paths of the entries to work on, each once. -/
def entries (asked : Option String) (manifest : Option Manifest) (base : Path) :
    Except Failure (List Path) :=
  match entryNames asked manifest with
  | [] => .error .missingEntry
  | names => .ok (distinct (names.map fun name => base.join ⟨name⟩))

/-! ## Cleaning -/

def recordDirectory (base : Path) : Path :=
  (base.join ⟨".icss"⟩).join ⟨"build"⟩

def removeIfThere (d : Disk) (path : Path) : Disk × Option Failure :=
  if d.has path then
    match d.removeDirectory path with
    | (d, some e) => (d, some (.remove path e))
    | (d, none) => (d, none)
  else (d, none)

/-- Removes the build records. -/
def clean (d : Disk) (base : Path) : Disk × Option Failure :=
  removeIfThere d (recordDirectory base)

/-! ## Checking -/

/-- Checks one entry: what there is to tell, and whether all is well. -/
def checkEntry (d : Disk) (entry : Path) : List Notice × Bool :=
  match d.readText entry with
  | .error e => ([.failure (.read entry e)], false)
  | .ok source =>
    let compiled := compileWithEvents {} source
    match compiled.result with
    | .ok _ => (Event.notices compiled.events, true)
    | .error e => (Event.notices compiled.events ++ e.notices entry source, false)

end Project

end TypedStyle
