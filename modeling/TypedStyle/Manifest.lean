import TypedStyle.Config.Document

/-!
# Manifests

A manifest describes a project: its name, its entries, and how to build it. It is read from a
configuration document. What the document says besides is not looked at, but what it says must be
of the right type.
-/

namespace TypedStyle

/-- The description of a project. -/
structure Manifest where
  name : Option String := none
  entry : Option String := none
  entries : List String := []
  outDir : String := "dist"
  /-- Whether to keep only the branch that each conditional takes. -/
  selectBranches : Bool := false
deriving DecidableEq

namespace Manifest

open Config

/-- The text under a name; it may be absent, but not of another type. -/
def text? (members : Members) (key : String) : Option (Option String) :=
  match members.get? key with
  | none => some none
  | some (.text value) => some (some value)
  | some _ => none

/-- The truth value under a name, with one for when it is absent. -/
def flag? (members : Members) (key : String) (absent : Bool) : Option Bool :=
  match members.get? key with
  | none => some absent
  | some (.boolean value) => some value
  | some _ => none

/-- The texts under a name; none when it is absent. -/
def texts? (members : Members) (key : String) : Option (List String) :=
  match members.get? key with
  | none => some []
  | some (.array values) => values.mapM fun
    | .text value => some value
    | _ => none
  | some _ => none

/-- The table under a name; an empty one when it is absent. -/
def table? (members : Members) (key : String) : Option Members :=
  match members.get? key with
  | none => some []
  | some node => node.members?

/-- The first entry, which has two names. Only one of them may be used. -/
def entryText? (package : Members) : Option (Option String) := do
  let entry ← text? package "entry"
  let main ← text? package "main"
  match entry, main with
  | some _, some _ => none
  | some entry, none => some (some entry)
  | none, main => some main

def ofDocument? (document : Members) : Option Manifest := do
  let package ← table? document "package"
  let build ← table? document "build"
  let outDir ← text? build "out_dir"
  return {
    name := ← text? package "name"
    entry := ← entryText? package
    entries := ← texts? package "entries"
    outDir := outDir.getD "dist"
    selectBranches := ← flag? build "select_branches" false }

/-- The manifest that a text describes, or `none` when it describes none. -/
def parse? (text : String) : Option Manifest := do
  ofDocument? (← document? text)

def entryNames (m : Manifest) : List String :=
  m.entry.toList ++ m.entries

end Manifest

end TypedStyle
