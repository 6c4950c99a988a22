/-!
# Paths

A path is a text whose parts are separated by slashes. It keeps the text it was given, while two
paths name the same file when their components agree: repeated slashes, a slash at the end and a
dot that is not the first part do not count, and `..` is a part like any other.
-/

namespace TypedStyle

/-- A path as it is written. -/
structure Path where
  text : String
deriving DecidableEq

/-- A part of a path that counts. -/
inductive Path.Component where
  /-- The slash in front of an absolute path. -/
  | root
  /-- A dot that is the first part. -/
  | here
  /-- Two dots: the directory above. -/
  | up
  | name (text : String)
deriving DecidableEq

namespace Path

/-- The pieces of a text between slashes; a text without a slash is one piece. -/
def split : List Char → List (List Char)
  | [] => [[]]
  | c :: rest =>
    if c = '/' then [] :: split rest
    else match split rest with
    | [] => [[c]]
    | first :: more => (c :: first) :: more

def segments (p : Path) : List String :=
  (split p.text.toList).map String.ofList

def isAbsolute (p : Path) : Bool :=
  p.text.toList.head? == some '/'

/-- Whether a piece of a path does not count: an empty piece or a dot. -/
def isIdle (segment : String) : Bool :=
  segment == "" || segment == "."

/-- What a path starts with, apart from names. -/
inductive Lead where
  | absolute
  | dot
  | plain

/-- What a path starts with, and the pieces after that. -/
def leadAndBody (p : Path) : Lead × List String :=
  if p.isAbsolute then (.absolute, p.segments.tail)
  else if p.segments.head? = some "." then (.dot, p.segments.tail)
  else (.plain, p.segments)

def build (lead : Lead) (body : List String) : Path :=
  match lead, body with
  | .absolute, body => ⟨"/" ++ "/".intercalate body⟩
  | .dot, [] => ⟨"."⟩
  | .dot, body => ⟨"./" ++ "/".intercalate body⟩
  | .plain, body => ⟨"/".intercalate body⟩

def components (p : Path) : List Component :=
  let (lead, body) := p.leadAndBody
  let first := match lead with
    | .absolute => [.root]
    | .dot => [.here]
    | .plain => []
  first ++ (body.filter (!isIdle ·)).map fun s => if s = ".." then .up else .name s

def same (p q : Path) : Bool :=
  p.components == q.components

/-- A path seen from a directory. An absolute path stays as it is. -/
def join (dir : Path) (p : Path) : Path :=
  if p.isAbsolute then p
  else if dir.text.isEmpty || dir.text.toList.getLast? == some '/' then ⟨dir.text ++ p.text⟩
  else ⟨dir.text ++ "/" ++ p.text⟩

/-- For pieces in reverse, what is left without the last piece that counts, then without the one
before it, and so on. -/
def shorter : List String → List (List String)
  | [] => []
  | s :: rest => if isIdle s then shorter rest else rest.dropWhile isIdle :: shorter rest

/-- The directories around a path, the nearest first. -/
def parents (p : Path) : List Path :=
  let (lead, body) := p.leadAndBody
  let above := (shorter body.reverse).map fun body => build lead body.reverse
  match lead with
  | .dot => above ++ [⟨""⟩]
  | _ => above

def parent? (p : Path) : Option Path :=
  p.parents.head?

def fileName? (p : Path) : Option String :=
  match p.components.getLast? with
  | some (.name text) => some text
  | _ => none

/-- A name up to its last dot. A name whose only dot is its first character is left whole. -/
def stemOf (name : List Char) : List Char :=
  match name.reverse.dropWhile (· != '.') with
  | [] => name
  | [_] => name
  | _ :: before => before.reverse

/-- The last part of a path without its extension. -/
def stem? (p : Path) : Option String :=
  p.fileName?.map fun name => String.ofList (stemOf name.toList)

end Path

end TypedStyle
