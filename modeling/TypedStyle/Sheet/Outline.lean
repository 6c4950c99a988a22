import TypedStyle.Outline
import TypedStyle.Sheet
import TypedStyle.Text.Quoted

/-!
# Outlines of sheets

The outline of a sheet shows every part of the tree with its identity and its span.
-/

namespace TypedStyle

def Outline.nat (n : Nat) : Outline := .atom (toString n)

def Outline.string (text : String) : Outline := .atom (Text.quoted text)

def Span.outline (span : Span) : Outline :=
  .record "Span" [("start", .nat span.start), ("end", .nat span.stop)]

def NodeId.outline (id : NodeId) : Outline :=
  .tagged "NodeId" (.nat id.val)

def Ident.outline (ident : Ident) : Outline :=
  .record "Ident" [("name", .string ident.name), ("span", ident.span.outline)]

def Literal.outline : Literal → Outline
  | bool value => .tagged "Bool" (.atom (if value then "true" else "false"))
  | color text => .tagged "Color" (.string text)
  | pixel value => .tagged "Pixel" (.atom (toString value))
  | percentage value => .tagged "Percentage" (.atom (toString value))
  | scalar value => .tagged "Scalar" (.atom (toString value))

def Operator.outline : Operator → Outline
  | add => .atom "Add"
  | subtract => .atom "Subtract"
  | multiply => .atom "Multiply"

namespace Expr

/-- The outline of an expression around that of what it is. -/
def outlineOf (id : NodeId) (span : Span) (kind : Outline) : Outline :=
  .record "Expr" [("id", id.outline), ("kind", kind), ("span", span.outline)]

def outline : Expr → Outline
  | literal id span value => outlineOf id span (.tagged "Literal" value.outline)
  | reference id span name => outlineOf id span (.tagged "VariableReference" (.string name))
  | operation id span op lhs rhs =>
    outlineOf id span
      (.record "Operation" [("op", op.outline), ("lhs", lhs.outline), ("rhs", rhs.outline)])

end Expr

def Assignment.outline (a : Assignment) : Outline :=
  .tagged "Assignment" (.record "VariableAssignment"
    [("name", a.name.outline), ("expression", a.value.outline), ("span", a.span.outline)])

namespace Statement

mutual

def outline : Statement → Outline
  | declare property value span =>
    .tagged "Declaration" (.record "Declaration" [("property", property.outline),
      ("expression", value.outline), ("span", span.outline)])
  | assign a => a.outline
  | ifThen id condition body span =>
    .tagged "If" (.record "IfClause" [("id", id.outline), ("condition", condition.outline),
      ("body", .list (outlineAll body)), ("else_clause", .atom "None"), ("span", span.outline)])
  | ifElse id condition body alternative elseSpan span =>
    .tagged "If" (.record "IfClause" [("id", id.outline), ("condition", condition.outline),
      ("body", .list (outlineAll body)),
      ("else_clause", .tagged "Some" (.record "ElseClause"
        [("body", .list (outlineAll alternative)), ("span", elseSpan.outline)])),
      ("span", span.outline)])

def outlineAll : List Statement → List Outline
  | [] => []
  | s :: rest => s.outline :: outlineAll rest

end

end Statement

def Selector.outline : Selector → Outline
  | tag name => .tagged "Tag" (.string name)
  | className name => .tagged "Class" (.string name)
  | id name => .tagged "Id" (.string name)

def Item.outline : Item → Outline
  | assign a => a.outline
  | rule r =>
    .tagged "Rule" (.record "Stylerule" [("selector", r.selector.outline),
      ("body", .list (Statement.outlineAll r.body)), ("span", r.span.outline)])

def Sheet.outline (sheet : Sheet) : Outline :=
  .record "Stylesheet" [("items", .list (sheet.items.map Item.outline))]

end TypedStyle
