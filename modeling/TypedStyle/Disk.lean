import TypedStyle.Path
import TypedStyle.Standpoint

/-!
# Disks

A disk is a file tree together with the working directory from which relative paths start. Its
operations are those of an operating system: they follow a path piece by piece, and each says why
it cannot be done when it cannot. The working directory may be removed; relative paths then start
in what is left of it.
-/

namespace TypedStyle

/-- Why an operation on files cannot be done. -/
inductive DiskError where
  | notFound
  | busy
  | alreadyExists
  | notDirectory
  | isDirectory
  | invalidArgument
  | nameTooLong
  | notEmpty
  /-- A path holds the character that ends a name. -/
  | nulInPath
  | notText
deriving DecidableEq

def DiskError.message : DiskError → String
  | notFound => "No such file or directory (os error 2)"
  | busy => "Device or resource busy (os error 16)"
  | alreadyExists => "File exists (os error 17)"
  | notDirectory => "Not a directory (os error 20)"
  | isDirectory => "Is a directory (os error 21)"
  | invalidArgument => "Invalid argument (os error 22)"
  | nameTooLong => "File name too long (os error 36)"
  | notEmpty => "Directory not empty (os error 39)"
  | nulInPath => "file name contained an unexpected NUL byte"
  | notText => "stream did not contain valid UTF-8"

/-- A file tree and the working directory. -/
structure Disk where
  tree : FileTree
  /-- Where relative paths start. -/
  cwd : Standpoint

namespace Disk

def cwdPath (d : Disk) : Path :=
  ⟨"/" ++ "/".intercalate d.cwd.place⟩

/-! ## Following paths -/

def mostNameBytes : Nat := 255

def mostPathBytes : Nat := 4095

def isTooLong (name : String) : Bool :=
  mostNameBytes < name.utf8ByteSize

/-- Why a text is not followed as a path at all. -/
def refusal? (path : Path) : Option DiskError :=
  if path.text.toList.contains '\x00' then some .nulInPath
  else if path.text.isEmpty then some .notFound
  else if mostPathBytes < path.text.utf8ByteSize then some .nameTooLong
  else none

/-- Where one piece of a path leads. One must stand in a directory; there may be nothing where the
piece leads. -/
def step (t : FileTree) (s : Standpoint) (segment : String) : Except DiskError Standpoint :=
  match s.entry? t with
  | none => .error .notFound
  | some (.file _) => .error .notDirectory
  | some .directory =>
    if Path.isIdle segment then .ok s
    else if segment = ".." then .ok s.up
    else if s.lost ≠ 0 then .error .notFound
    else if isTooLong segment then .error .nameTooLong
    else .ok { place := s.place ++ [segment] }

/-- Where the pieces of a path lead, one after the other. -/
def walk (t : FileTree) : Standpoint → List String → Except DiskError Standpoint
  | s, [] => .ok s
  | s, segment :: rest =>
    match step t s segment with
    | .error e => .error e
    | .ok s => walk t s rest

def origin (d : Disk) (path : Path) : Standpoint :=
  if path.isAbsolute then .root else d.cwd

/-- Where a path leads. There may be nothing there. -/
def resolve (d : Disk) (path : Path) : Except DiskError Standpoint :=
  match refusal? path with
  | some e => .error e
  | none => walk d.tree (d.origin path) path.segments

def entry (d : Disk) (path : Path) : Except DiskError Entry :=
  match d.resolve path with
  | .error e => .error e
  | .ok s =>
    match s.entry? d.tree with
    | some entry => .ok entry
    | none => .error .notFound

/-- Whether there is something where a path leads. -/
def has (d : Disk) (path : Path) : Bool :=
  (d.entry path).toBool

def isDirectory (d : Disk) (path : Path) : Bool :=
  match d.entry path with
  | .ok .directory => true
  | _ => false

/-- What a path names last: a name in a directory that is there, or a directory that is. -/
inductive Target where
  /-- A name in the directory at a place; `slash` says that the path ends in a slash. -/
  | child (directory : Place) (name : String) (slash : Bool)
  | root
  | here
  /-- The directory above another, by two dots. -/
  | up

/-- What a path names last. The directories on the way must be there, and the one that the name is
in must not have been removed. -/
def target (d : Disk) (path : Path) : Except DiskError Target :=
  match refusal? path with
  | some e => .error e
  | none =>
    let segments := path.segments.reverse
    match segments.dropWhile (· == "") with
    | [] => .ok .root
    | last :: front =>
      match walk d.tree (d.origin path) front.reverse with
      | .error e => .error e
      | .ok parent =>
        match parent.entry? d.tree with
        | none => .error .notFound
        | some (.file _) => .error .notDirectory
        | some .directory =>
          if last = "." then .ok .here
          else if last = ".." then .ok .up
          else if parent.lost ≠ 0 then .error .notFound
          else .ok (.child parent.place last (segments.head? == some ""))

def lookUp (d : Disk) (directory : Place) (name : String) : Except DiskError (Option Entry) :=
  if isTooLong name then .error .nameTooLong else .ok (d.tree.get? (directory ++ [name]))

/-! ## Reading -/

def read (d : Disk) (path : Path) : Except DiskError Bytes :=
  match d.entry path with
  | .ok (.file content) => .ok content
  | .ok .directory => .error .isDirectory
  | .error e => .error e

def readText (d : Disk) (path : Path) : Except DiskError String :=
  match d.read path with
  | .error e => .error e
  | .ok content =>
    match Text.ofUtf8? content with
    | some text => .ok text
    | none => .error .notText

/-! ## Changing -/

/-- Puts something under a name in the directory at a place. -/
def put (d : Disk) (directory : Place) (name : String) (entry : Entry) : Disk :=
  { d with tree := d.tree.put (directory ++ [name]) entry }

def remove (d : Disk) (directory : Place) (name : String) : Disk :=
  let place := directory ++ [name]
  { tree := d.tree.remove place, cwd := d.cwd.afterRemove place }

/-- Removes all that is in the directory in which one stands. In one that has been removed there is
nothing. -/
def clear (d : Disk) (s : Standpoint) : Disk :=
  if s.lost = 0 then { tree := d.tree.clear s.place, cwd := d.cwd.afterClear s.place } else d

/-- Writes a file, which takes the place of a file that is there. -/
def write (d : Disk) (path : Path) (content : Bytes) : Except DiskError Disk :=
  match d.target path with
  | .error e => .error e
  | .ok (.child directory name false) =>
    match d.lookUp directory name with
    | .error e => .error e
    | .ok (some .directory) => .error .isDirectory
    | .ok _ => .ok (d.put directory name (.file content))
  | .ok _ => .error .isDirectory

def makeDirectory (d : Disk) (path : Path) : Except DiskError Disk :=
  match d.target path with
  | .error e => .error e
  | .ok (.child directory name _) =>
    match d.lookUp directory name with
    | .error e => .error e
    | .ok (some _) => .error .alreadyExists
    | .ok none => .ok (d.put directory name .directory)
  | .ok _ => .error .alreadyExists

/-- Makes the first of some directories, each inside the next. Those around it are made first
where they are missing, and the first may be there already. -/
def makeNested (d : Disk) : List Path → Disk × Option DiskError
  | [] => (d, none)
  | path :: around =>
    if path.text.isEmpty then (d, none)
    else match d.makeDirectory path with
    | .ok d => (d, none)
    | .error .notFound =>
      match makeNested d around with
      | (d, some e) => (d, some e)
      | (d, none) =>
        match d.makeDirectory path with
        | .ok d => (d, none)
        | .error e => (d, if d.isDirectory path then none else some e)
    | .error e => (d, if d.isDirectory path then none else some e)

/-- Makes a directory with all directories around it, as far as they are missing. -/
def makeDirectories (d : Disk) (path : Path) : Disk × Option DiskError :=
  d.makeNested (path :: path.parents)

/-- Removes an empty directory by its path. That there is none is no error. -/
def removeEmptied (d : Disk) (path : Path) : Disk × Option DiskError :=
  match d.target path with
  | .error .notFound => (d, none)
  | .error e => (d, some e)
  | .ok (.child directory name _) => (d.remove directory name, none)
  | .ok .root => (d, some .busy)
  | .ok .here => (d, some .invalidArgument)
  | .ok .up => (d, some .notEmpty)

/-- Removes a directory with all that is in it. First its content goes, then the directory. -/
def removeDirectory (d : Disk) (path : Path) : Disk × Option DiskError :=
  match d.resolve path with
  | .error e => (d, some e)
  | .ok s =>
    match s.entry? d.tree with
    | none => (d, some .notFound)
    | some (.file _) => (d, some .notDirectory)
    | some .directory => removeEmptied (d.clear s) path

end Disk

end TypedStyle
