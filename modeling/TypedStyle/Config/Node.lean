/-!
# Configuration values

The values of a TOML document, and how a document is put together from headers and keys. A table
remembers how it came to be: a table that has its own header, or one made by a dotted key, cannot
be opened again by a header, while one that is only implied by a longer header can.
-/

namespace TypedStyle.Config

/-- How a table came to be. -/
inductive Origin where
  | header
  /-- By the header of a table inside it. -/
  | implied
  | dotted
deriving DecidableEq

/-- A value. -/
inductive Node where
  | text (value : String)
  | integer (value : Int)
  | boolean (value : Bool)
  /-- A number with a fraction or an exponent, or a date or time. -/
  | other
  | array (values : List Node)
  /-- A table written between braces, to which nothing can be added. -/
  | inline (members : List (String × Node))
  | table (origin : Origin) (members : List (String × Node))
  /-- Tables collected under one name by repeated headers. -/
  | tables (elements : List (List (String × Node)))

/-- The named values of a table, in order. -/
abbrev Members : Type := List (String × Node)

def Node.members? : Node → Option Members
  | inline members | table _ members => some members
  | _ => none

namespace Members

def update (key : String) (change : Option Node → Option Node) : Members → Option Members
  | [] => (change none).map fun value => [(key, value)]
  | (name, value) :: rest =>
    if name = key then (change (some value)).map fun value => (name, value) :: rest
    else (update key change rest).map ((name, value) :: ·)

/-- Changes the table at the end of a path of names, which goes through the tables that `origin`
calls for where there are none. A dotted key does not go through a table with a header. -/
def change (origin : Origin) (act : Origin → Members → Option Members) :
    List String → Origin → Members → Option Members
  | [], here, members => act here members
  | key :: path, _, members =>
    members.update key fun
      | none => (change origin act path origin []).map (.table origin)
      | some (.table found inner) =>
        if origin = .dotted ∧ found = .header then none
        else (change origin act path found inner).map (.table found)
      | some (.tables elements) =>
        match elements.reverse with
        | [] => none
        | last :: before =>
          (change origin act path .header last).map fun last =>
            .tables (before.reverse ++ [last])
      | some _ => none

/-- Adds a value under a dotted key. The last table on the way is one made by dotted keys if
there is any on the way. -/
def insert (path : List String) (key : String) (value : Node) (members : Members) :
    Option Members :=
  members.change .dotted
    (fun here members =>
      if (here = .dotted) ↔ path = [] then none
      else members.update key fun
        | none => some value
        | some _ => none)
    path .header

/-- Adds a value under a dotted key in the table of the header `path`. -/
def insertUnder (header path : List String) (key : String) (value : Node) (members : Members) :
    Option Members :=
  members.change .implied (fun _ members => members.insert path key value) header .header

def openTable (path : List String) (key : String) (members : Members) : Option Members :=
  members.change .implied
    (fun _ members => members.update key fun
      | none => some (.table .header [])
      | some (.table .implied inner) => some (.table .header inner)
      | some _ => none)
    path .header

/-- Opens the next of the tables that are collected under one name. -/
def openNext (path : List String) (key : String) (members : Members) : Option Members :=
  members.change .implied
    (fun _ members => members.update key fun
      | none => some (.tables [[]])
      | some (.tables elements) => some (.tables (elements ++ [[]]))
      | some _ => none)
    path .header

def get? (members : Members) (key : String) : Option Node :=
  members.lookup key

end Members

end TypedStyle.Config
