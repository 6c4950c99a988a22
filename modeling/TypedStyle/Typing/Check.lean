import TypedStyle.Diagnostic
import TypedStyle.Scope
import TypedStyle.Typing

/-!
# Type checking

A check walks a sheet and reports every reference without a binding, every operation, property and
condition of the wrong type. In a sheet and in every block the assignments come first, in order,
and then the other members; so a rule may use a variable that is assigned further down.
-/

namespace TypedStyle

/-- The type of an expression, and what is wrong in it. -/
def Expr.check (scope : Scope Ty) : Expr → Ty × List Diagnostic
  | .literal _ _ value => (.ofLiteral value, [])
  | .reference id span name =>
    match scope.resolve name with
    | some ty => (ty, [])
    | none => (.unknown, [.ofNode id span (.unboundVariable name)])
  | .operation id span op lhs rhs =>
    let left := lhs.check scope
    let right := rhs.check scope
    let found := left.2 ++ right.2
    if left.1.isUnknown || right.1.isUnknown then (.unknown, found)
    else match op.result? left.1 right.1 with
    | some ty => (ty, found)
    | none => (.unknown, found ++ [.ofNode id span .badOperands])

/-- A scope after some statements, and what is wrong in them. -/
structure Checked where
  scope : Scope Ty
  diagnostics : List Diagnostic

namespace Checked

/-- Binds the variable of an assignment. A variable assigned from another variable has no
recognised type of its own. -/
def assignment (scope : Scope Ty) (a : Assignment) : Checked :=
  let value := a.value.check scope
  let ty := match a.value with
    | .reference .. => if value.1.isUnknown then .unknown else .undefined
    | _ => value.1
  { scope := scope.declare a.name.name ty, diagnostics := value.2 }

/-- Binds the variables of assignments, in order. -/
def assignments (scope : Scope Ty) : List Assignment → Checked
  | [] => { scope, diagnostics := [] }
  | a :: rest =>
    let first := assignment scope a
    let more := assignments first.scope rest
    { scope := more.scope, diagnostics := first.diagnostics ++ more.diagnostics }

/-- What is wrong in a declaration: its value, or the value's type. -/
def declaration (scope : Scope Ty) (property : Ident) (value : Expr) : List Diagnostic :=
  let (ty, found) := value.check scope
  if ty.isUnknown then found
  else match Ty.allowed? property.name with
  | some types =>
    if ty ∈ types then found
    else found ++ [.ofNode value.id value.span (.badProperty property.name)]
  | none => found

/-- What is wrong in a condition: the expression, or its type. -/
def condition (scope : Scope Ty) (id : NodeId) (value : Expr) : List Diagnostic :=
  let (ty, found) := value.check scope
  if ty.isUnknown || ty = .bool then found
  else found ++ [.ofNode id value.span .badCondition]

/-- Checks a block: opens it, binds its assignments, checks its other members with `rest`, and
closes it. -/
def block (scope : Scope Ty) (body : List Statement) (rest : Scope Ty → Checked) : Checked :=
  let bound := assignments scope.push (Statement.assignments body)
  let checked := rest bound.scope
  { scope := checked.scope.pop, diagnostics := bound.diagnostics ++ checked.diagnostics }

mutual

def statement (scope : Scope Ty) : Statement → Checked
  | .assign _ => { scope, diagnostics := [] }
  | .declare property value _ => { scope, diagnostics := declaration scope property value }
  | .ifThen id value body _ =>
    let checked := block scope body fun scope => statements scope body
    { checked with diagnostics := condition scope id value ++ checked.diagnostics }
  | .ifElse id value body alternative _ _ =>
    let taken := block scope body fun scope => statements scope body
    let other := block taken.scope alternative fun scope => statements scope alternative
    { other with
      diagnostics := condition scope id value ++ taken.diagnostics ++ other.diagnostics }

/-- Checks the statements of a block other than its assignments. -/
def statements (scope : Scope Ty) : List Statement → Checked
  | [] => { scope, diagnostics := [] }
  | s :: rest =>
    let first := statement scope s
    let more := statements first.scope rest
    { more with diagnostics := first.diagnostics ++ more.diagnostics }

end

def rules (scope : Scope Ty) : List Rule → Checked
  | [] => { scope, diagnostics := [] }
  | r :: rest =>
    let first := block scope r.body fun scope => statements scope r.body
    let more := rules first.scope rest
    { more with diagnostics := first.diagnostics ++ more.diagnostics }

end Checked

/-- The first diagnostic of each node, where `seen` have had theirs. A node without a number of
its own keeps all of its diagnostics. -/
def Diagnostic.oncePerNode (seen : List NodeId) : List Diagnostic → List Diagnostic
  | [] => []
  | d :: rest =>
    match d.node with
    | none => d :: oncePerNode seen rest
    | some node =>
      if node = .dummy then d :: oncePerNode seen rest
      else if node ∈ seen then oncePerNode seen rest
      else d :: oncePerNode (node :: seen) rest

theorem Diagnostic.oncePerNode_map (g : Diagnostic → Diagnostic) (h : ∀ d, (g d).node = d.node)
    (seen : List NodeId) (ds : List Diagnostic) :
    oncePerNode seen (ds.map g) = (oncePerNode seen ds).map g := by
  induction ds generalizing seen with
  | nil => rfl
  | cons d rest ih =>
    simp only [List.map_cons, oncePerNode, h, ih]
    cases d.node with
    | none => rfl
    | some node =>
      dsimp only
      split
      · rfl
      · split
        · rfl
        · rfl

/-- Everything that is wrong in a sheet, in the order of checking, before repeats are dropped. -/
def Sheet.violations (sheet : Sheet) : List Diagnostic :=
  let bound := Checked.assignments .empty sheet.assignments
  bound.diagnostics ++ (Checked.rules bound.scope sheet.rules).diagnostics

/-- Everything that is wrong in a sheet, at most once per node. -/
def Sheet.analyze (sheet : Sheet) : List Diagnostic :=
  Diagnostic.oncePerNode [] sheet.violations

end TypedStyle
