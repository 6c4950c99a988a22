import TypedStyle.Problem
import TypedStyle.Location

/-!
# Diagnostics

A diagnostic is a problem at a place of the source, bound to a node of the tree if there is one.
Rendering shows its message, the line it stands on and a caret below the first character.
-/

namespace TypedStyle

/-- A problem, where it is, and the node it belongs to. -/
structure Diagnostic where
  problem : Problem
  span : Span
  /-- The node it belongs to. A problem found before there is a tree has none. -/
  node : Option NodeId
deriving DecidableEq

namespace Diagnostic

/-- A problem found before there is a tree. -/
def ofText (span : Span) (problem : Problem) : Diagnostic :=
  { problem, span, node := none }

def ofNode (node : NodeId) (span : Span) (problem : Problem) : Diagnostic :=
  { problem, span, node := some node }

def message (d : Diagnostic) : String :=
  d.problem.message

/-- The report of a diagnostic: the message with its location, the line, and a caret. There is
none when the span starts inside a character of the source. -/
def render? (path : Option String) (source : String) (d : Diagnostic) : Option String :=
  (Location.ofOffset? source.toList d.span.start).map fun location =>
    let place := toString location.line ++ ":" ++ toString location.column
    let place := match path with
      | some path => path ++ ":" ++ place
      | none => place
    "error: " ++ d.message ++ " (" ++ place ++ ")\n" ++
      "  " ++ String.ofList location.text ++ "\n" ++
      "  " ++ String.ofList (List.replicate (location.column - 1) ' ') ++ "^"

end Diagnostic

end TypedStyle
