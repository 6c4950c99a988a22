/-!
# Outlines

An outline shows a nested value over several lines: a group has its members on lines of their own,
one level further in, each followed by a comma.
-/

namespace TypedStyle

/-- A nested value to be shown. -/
inductive Outline where
  | atom (text : String)
  | labelled (label : String) (value : Outline)
  | group (opening : String) (members : List Outline) (closing : String)

namespace Outline

/-- The blanks in front of a line at the given depth. -/
def indent (depth : Nat) : String :=
  String.ofList (List.replicate (4 * depth) ' ')

mutual

/-- The text of an outline whose first line stands at the given depth. -/
def text (depth : Nat) : Outline → String
  | atom text => text
  | labelled label value => label ++ ": " ++ value.text depth
  | group opening [] closing => opening ++ closing
  | group opening (first :: rest) closing =>
    opening ++ "\n" ++ memberText (depth + 1) first ++ membersText (depth + 1) rest ++
      indent depth ++ closing

def memberText (depth : Nat) (member : Outline) : String :=
  indent depth ++ member.text depth ++ ",\n"

def membersText (depth : Nat) : List Outline → String
  | [] => ""
  | first :: rest => memberText depth first ++ membersText depth rest

end

def record (name : String) (members : List (String × Outline)) : Outline :=
  group (name ++ " \x7b") (members.map fun (label, value) => labelled label value) "\x7d"

def tagged (name : String) (value : Outline) : Outline :=
  group (name ++ "(") [value] ")"

def list (values : List Outline) : Outline :=
  group "[" values "]"

end Outline

end TypedStyle
