import TypedStyle.Span

/-!
# Stylesheets as trees

A sheet is a list of rules and variable assignments. A rule holds a block of statements:
declarations, assignments and conditionals, which hold blocks in turn. Expressions and
conditionals carry an identity, so that a diagnostic can point at one of them.
-/

namespace TypedStyle

/-- Identity of an expression or a conditional. -/
structure NodeId where
  /-- The number of the node, counted in the order in which nodes are made. -/
  val : Nat
deriving DecidableEq

/-- The identity of nodes that were never numbered. -/
def NodeId.dummy : NodeId := ⟨4294967295⟩

/-- A value that needs no evaluation. -/
inductive Literal where
  | bool (value : Bool)
  /-- A colour as written, the leading `#` included. -/
  | color (text : String)
  | pixel (value : Int)
  | percentage (value : Int)
  | scalar (value : Int)
deriving DecidableEq

/-- A binary operator. -/
inductive Operator where
  | add
  | subtract
  | multiply
deriving DecidableEq

/-- An expression. -/
inductive Expr where
  | literal (id : NodeId) (span : Span) (value : Literal)
  | reference (id : NodeId) (span : Span) (name : String)
  | operation (id : NodeId) (span : Span) (op : Operator) (lhs rhs : Expr)
deriving DecidableEq

/-- A name and its place in the source. -/
structure Ident where
  name : String
  span : Span
deriving DecidableEq

/-- The assignment of a value to a variable, `Name := value;`. -/
structure Assignment where
  name : Ident
  value : Expr
  span : Span
deriving DecidableEq

/-- One member of a block. -/
inductive Statement where
  /-- `property: value;` -/
  | declare (property : Ident) (value : Expr) (span : Span)
  /-- `Name := value;` -/
  | assign (assignment : Assignment)
  /-- `if [condition] { body }` -/
  | ifThen (id : NodeId) (condition : Expr) (body : List Statement) (span : Span)
  /-- `if [condition] { body } else { alternative }`; `elseSpan` covers the part from `else` on. -/
  | ifElse (id : NodeId) (condition : Expr) (body alternative : List Statement)
      (elseSpan span : Span)

/-- What a rule applies to. -/
inductive Selector where
  | tag (name : String)
  | className (name : String)
  | id (name : String)
deriving DecidableEq

/-- A selector with its block. -/
structure Rule where
  selector : Selector
  body : List Statement
  span : Span

/-- One member of a sheet. -/
inductive Item where
  | assign (assignment : Assignment)
  | rule (rule : Rule)

/-- A stylesheet. -/
structure Sheet where
  /-- Rules and assignments in source order. -/
  items : List Item

namespace Literal

/-- How a literal is written in the generated text. -/
def text : Literal → String
  | bool true => "true"
  | bool false => "false"
  | color text => text
  | pixel value => toString value ++ "px"
  | percentage value => toString value ++ "%"
  | scalar value => toString value

end Literal

namespace Operator

def text : Operator → String
  | add => "+"
  | subtract => "-"
  | multiply => "*"

/-- The operator written in this way, if there is one. -/
def ofText? (text : String) : Option Operator :=
  [add, subtract, multiply].find? fun op => op.text == text

end Operator

namespace Expr

def id : Expr → NodeId
  | literal id .. | reference id .. | operation id .. => id

def span : Expr → Span
  | literal _ span _ | reference _ span _ | operation _ span .. => span

def literal? : Expr → Option Literal
  | literal _ _ value => some value
  | _ => none

/-- How an expression is written: its parts in order, with no brackets. -/
def text : Expr → String
  | literal _ _ value => value.text
  | reference _ _ name => name
  | operation _ _ op lhs rhs => lhs.text ++ " " ++ op.text ++ " " ++ rhs.text

end Expr

namespace Selector

def text : Selector → String
  | tag name => name
  | className name => "." ++ name
  | id name => "#" ++ name

end Selector

namespace Statement

def assignment? : Statement → Option Assignment
  | assign a => some a
  | _ => none

def isAssignment (s : Statement) : Bool :=
  s.assignment?.isSome

/-- The assignments that stand directly in a block, in order. -/
def assignments (body : List Statement) : List Assignment :=
  body.filterMap assignment?

mutual

/-- How many assignments a statement holds, those of nested blocks included. -/
def assignmentCount : Statement → Nat
  | declare .. => 0
  | assign _ => 1
  | ifThen _ _ body _ => assignmentCountAll body
  | ifElse _ _ body alternative _ _ => assignmentCountAll body + assignmentCountAll alternative

/-- How many assignments a block holds, those of nested blocks included. -/
def assignmentCountAll : List Statement → Nat
  | [] => 0
  | s :: rest => s.assignmentCount + assignmentCountAll rest

end

end Statement

namespace Item

def assignment? : Item → Option Assignment
  | assign a => some a
  | rule _ => none

def rule? : Item → Option Rule
  | assign _ => none
  | rule r => some r

/-- How many assignments an item holds, those of nested blocks included. -/
def assignmentCount : Item → Nat
  | assign _ => 1
  | rule r => Statement.assignmentCountAll r.body

end Item

namespace Sheet

def rules (sheet : Sheet) : List Rule :=
  sheet.items.filterMap Item.rule?

/-- The assignments that stand directly in a sheet, in order. -/
def assignments (sheet : Sheet) : List Assignment :=
  sheet.items.filterMap Item.assignment?

/-- How many assignments a sheet holds, those of nested blocks included. -/
def assignmentCount (sheet : Sheet) : Nat :=
  sheet.items.foldl (fun n item => n + item.assignmentCount) 0

end Sheet

/-! ## Members of blocks and sheets -/

theorem Statement.mem_of_mem_assignments {body : List Statement} {a : Assignment}
    (h : a ∈ assignments body) : .assign a ∈ body := by
  obtain ⟨s, hs, hsa⟩ := List.mem_filterMap.1 h
  cases s with
  | assign b =>
    obtain rfl := Option.some.inj hsa
    exact hs
  | _ => cases hsa

theorem Sheet.mem_items_of_mem_assignments {sheet : Sheet} {a : Assignment}
    (h : a ∈ sheet.assignments) : .assign a ∈ sheet.items := by
  obtain ⟨i, hi, hia⟩ := List.mem_filterMap.1 h
  cases i with
  | assign b =>
    obtain rfl := Option.some.inj hia
    exact hi
  | rule r => cases hia

theorem Sheet.mem_items_of_mem_rules {sheet : Sheet} {r : Rule} (h : r ∈ sheet.rules) :
    .rule r ∈ sheet.items := by
  obtain ⟨i, hi, hir⟩ := List.mem_filterMap.1 h
  cases i with
  | assign a => cases hir
  | rule r' =>
    obtain rfl := Option.some.inj hir
    exact hi

end TypedStyle
