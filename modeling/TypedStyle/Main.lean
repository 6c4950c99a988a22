import TypedStyle.Footprint

/-!
# Command line

The first argument is the name of a program, `icss` or `icssc`; the others are for the program. The
part of the disk that the run looks at is read, the run is made on it, and what it changed is
written back.
-/

namespace TypedStyle.CommandLine

def pathOf (place : Place) : String :=
  "/" ++ "/".intercalate place

def namesAt (place : Place) : IO (Option (List String)) := do
  try
    let directory ← IO.FS.realPath (pathOf place)
    let found ← directory.readDir
    return some (found.toList.map (·.fileName))
  catch _ => return none

def entryAt (place : Place) : IO (Option Entry) := do
  if (← namesAt place).isSome then return some .directory
  else
    try
      let content ← IO.FS.readBinFile (pathOf place)
      return some (.file content.toList)
    catch _ => return none

def take (tree : FileTree) (place : Place) : IO FileTree := do
  if (tree.get? place).isSome then return tree
  match ← entryAt place with
  | some entry => return tree.put place entry
  | none => return tree

/-- Takes in what there is at and below a place. -/
partial def takeBelow (tree : FileTree) (place : Place) : IO FileTree := do
  let names ← namesAt place
  (names.getD []).foldlM (fun tree name => takeBelow tree (place ++ [name])) (← take tree place)

def takePart (disk : Disk) (part : Footprint) : IO Disk := do
  let paths := part.paths ++ part.directories
  let mut tree ← (paths.flatMap disk.placesOn).foldlM take disk.tree
  for directory in part.directories do
    if let .ok found := { disk with tree }.resolve directory then
      tree ← takeBelow tree found.place
  return { disk with tree }

/-- Whether there is still a directory where one was, or a file where one was. -/
def isKept (after : FileTree) (place : Place) (entry : Entry) : Bool :=
  match entry, after.get? place with
  | .directory, some .directory => true
  | .file _, some (.file _) => true
  | _, _ => false

/-- Removes what is not there any more, the innermost first. -/
def removeGone (before after : FileTree) : IO Unit := do
  let gone := before.entries.filter fun x => !isKept after x.1 x.2
  for (place, entry) in gone.mergeSort fun x y => y.1.length ≤ x.1.length do
    match entry with
    | .directory => IO.FS.removeDir (pathOf place)
    | .file _ => IO.FS.removeFile (pathOf place)

def writeNew (before after : FileTree) : IO Unit := do
  let new := after.entries.filter fun x => before.get? x.1 ≠ some x.2
  for (place, entry) in new.mergeSort fun x y => x.1.length ≤ y.1.length do
    match entry with
    | .directory => IO.FS.createDir (pathOf place)
    | .file content => IO.FS.writeBinFile (pathOf place) ⟨content.toArray⟩

def execute (program : Program) (arguments : List String) : IO UInt32 := do
  let cwd : Path := ⟨(← IO.currentDir).toString⟩
  let level := ((← IO.getEnv "ICSS_LOG").bind Level.ofName?).getD .warn
  let mut disk : Disk := { tree := .empty, cwd := { place := cwd.segments.filter (· ≠ "") } }
  for _ in [0:3] do
    disk ← takePart disk (program.footprint disk arguments)
  let outcome := program.run disk arguments
  removeGone disk.tree outcome.disk.tree
  writeNew disk.tree outcome.disk.tree
  IO.print outcome.printed
  IO.eprint (outcome.report level)
  return outcome.exitCode

end TypedStyle.CommandLine

open TypedStyle in
/-- Runs the program that the first argument names. -/
def main (arguments : List String) : IO UInt32 := do
  match arguments with
  | [] =>
    IO.eprintln "usage: icss|icssc [arguments]"
    return 1
  | name :: rest =>
    match Program.ofName? name with
    | some program => CommandLine.execute program rest
    | none =>
      IO.eprintln ("unknown program: " ++ name)
      return 1
