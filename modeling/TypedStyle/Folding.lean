import TypedStyle.Scope
import TypedStyle.Typing

/-!
# Folding

Folding replaces every expression by the literal it denotes and takes out the assignments. In a
sheet and in every block the assignments are evaluated first, in order. Arithmetic is exact; a
result that does not fit into 64 bits is an error.

A fold that fails keeps what it has done up to there: the expressions folded so far stay folded,
and a block loses its assignments only when all of it is folded.
-/

namespace TypedStyle

/-- Why a sheet cannot be folded. -/
inductive FoldError where
  | operands (op : Operator) (lhs rhs : Ty) (span : Span)
  /-- A reference to a variable that is not bound there. -/
  | unresolved (name : String) (span : Span)
  | overflow (op : Operator) (node : NodeId) (span : Span)
  | condition (span : Span)
deriving DecidableEq

/-- The sentence that reports why a sheet cannot be folded. -/
def FoldError.message : FoldError → String
  | operands op lhs rhs span =>
    "cannot fold `" ++ lhs.text ++ " " ++ op.text ++ " " ++ rhs.text ++ "` at " ++ place span
  | unresolved name span =>
    "variable '" ++ name ++ "' reached the folder unresolved at " ++ place span
  | overflow op _ span => "arithmetic overflow in `" ++ op.text ++ "` at " ++ place span
  | condition span => "if-clause condition was not folded to a boolean at " ++ place span
where
  place (span : Span) : String :=
    toString span.start ++ ".." ++ toString span.stop

def fits (n : Int) : Bool :=
  -9223372036854775808 ≤ n && n ≤ 9223372036854775807

/-- The unit of a length. -/
inductive LengthUnit where
  | pixel
  | percentage
deriving DecidableEq

def LengthUnit.literal : LengthUnit → Int → Literal
  | pixel, n => .pixel n
  | percentage, n => .percentage n

/-- The exact result of an operation, with its unit: lengths of one unit are added and
subtracted, a number and a length are multiplied. -/
def Operator.exactResult? : Operator → Literal → Literal → Option (LengthUnit × Int)
  | .add, .pixel a, .pixel b => some (.pixel, a + b)
  | .add, .percentage a, .percentage b => some (.percentage, a + b)
  | .subtract, .pixel a, .pixel b => some (.pixel, a - b)
  | .subtract, .percentage a, .percentage b => some (.percentage, a - b)
  | .multiply, .scalar a, .pixel b => some (.pixel, a * b)
  | .multiply, .pixel a, .scalar b => some (.pixel, a * b)
  | .multiply, .scalar a, .percentage b => some (.percentage, a * b)
  | .multiply, .percentage a, .scalar b => some (.percentage, a * b)
  | _, _, _ => none

/-- The value of the operation at the given node on two literals. -/
def Operator.apply (op : Operator) (node : NodeId) (span : Span) (lhs rhs : Literal) :
    Except FoldError Literal :=
  match op.exactResult? lhs rhs with
  | some (unit, n) => if fits n then .ok (unit.literal n) else .error (.overflow op node span)
  | none => .error (.operands op (.ofLiteral lhs) (.ofLiteral rhs) span)

namespace Expr

def eval (scope : Scope Literal) : Expr → Except FoldError Literal
  | literal _ _ value => .ok value
  | reference _ span name =>
    match scope.resolve name with
    | some value => .ok value
    | none => .error (.unresolved name span)
  | operation id span op lhs rhs =>
    match lhs.eval scope with
    | .error e => .error e
    | .ok a =>
      match rhs.eval scope with
      | .error e => .error e
      | .ok b => op.apply id span a b

/-- The literal with an expression's value, under the identity and span of the expression. -/
def fold (scope : Scope Literal) (e : Expr) : Except FoldError Expr :=
  match e.eval scope with
  | .ok value => .ok (literal e.id e.span value)
  | .error x => .error x

end Expr

/-- What folding left of a part of a sheet, and why it stopped if it did. -/
structure Folded (α : Type) where
  scope : Scope Literal
  /-- The part as far as it is folded. -/
  tree : α
  error : Option FoldError

namespace Folded

/-- Binds the variables of assignments to their values, in order. -/
def assignments (scope : Scope Literal) : List Assignment → Scope Literal × Option FoldError
  | [] => (scope, none)
  | a :: rest =>
    match a.value.eval scope with
    | .ok value => assignments (scope.declare a.name.name value) rest
    | .error e => (scope, some e)

/-- Folds a block: opens it, binds its assignments, folds its other members with `rest`, closes
it, and takes the assignments out if nothing failed. -/
def block (scope : Scope Literal) (body : List Statement)
    (rest : Scope Literal → Folded (List Statement)) : Folded (List Statement) :=
  match assignments scope.push (Statement.assignments body) with
  | (scope, some e) => { scope := scope.pop, tree := body, error := some e }
  | (scope, none) =>
    let folded := rest scope
    match folded.error with
    | some e => { scope := folded.scope.pop, tree := folded.tree, error := some e }
    | none =>
      { scope := folded.scope.pop
        tree := folded.tree.filter fun s => !s.isAssignment
        error := none }

mutual

def statement (scope : Scope Literal) : Statement → Folded Statement
  | .assign a => { scope, tree := .assign a, error := none }
  | .declare property value span =>
    match value.fold scope with
    | .ok value => { scope, tree := .declare property value span, error := none }
    | .error e => { scope, tree := .declare property value span, error := some e }
  | .ifThen id condition body span =>
    match condition.fold scope with
    | .error e => { scope, tree := .ifThen id condition body span, error := some e }
    | .ok condition =>
      let taken := block scope body fun scope => statements scope body
      { taken with tree := .ifThen id condition taken.tree span }
  | .ifElse id condition body alternative elseSpan span =>
    match condition.fold scope with
    | .error e =>
      { scope, tree := .ifElse id condition body alternative elseSpan span, error := some e }
    | .ok condition =>
      let taken := block scope body fun scope => statements scope body
      match taken.error with
      | some _ => { taken with tree := .ifElse id condition taken.tree alternative elseSpan span }
      | none =>
        let other := block taken.scope alternative fun scope => statements scope alternative
        { other with tree := .ifElse id condition taken.tree other.tree elseSpan span }

/-- Folds the statements of a block other than its assignments, up to the first failure. -/
def statements (scope : Scope Literal) : List Statement → Folded (List Statement)
  | [] => { scope, tree := [], error := none }
  | s :: rest =>
    let first := statement scope s
    match first.error with
    | some _ => { first with tree := first.tree :: rest }
    | none =>
      let more := statements first.scope rest
      { more with tree := first.tree :: more.tree }

end

/-- Folds the rules among the members of a sheet, up to the first failure. -/
def items (scope : Scope Literal) : List Item → Folded (List Item)
  | [] => { scope, tree := [], error := none }
  | .assign a :: rest =>
    let more := items scope rest
    { more with tree := .assign a :: more.tree }
  | .rule r :: rest =>
    let first := block scope r.body fun scope => statements scope r.body
    let folded := Item.rule { r with body := first.tree }
    match first.error with
    | some _ => { first with tree := folded :: rest }
    | none =>
      let more := items first.scope rest
      { more with tree := folded :: more.tree }

end Folded

/-- A sheet after a step that may have failed. -/
structure Attempt where
  /-- The sheet as far as the step got. -/
  sheet : Sheet
  /-- Why the step stopped, if it did. -/
  error : Option FoldError

def Sheet.fold (sheet : Sheet) : Attempt :=
  match Folded.assignments .empty sheet.assignments with
  | (_, some e) => { sheet, error := some e }
  | (scope, none) =>
    let folded := Folded.items scope sheet.items
    match folded.error with
    | some e => { sheet := ⟨folded.tree⟩, error := some e }
    | none => { sheet := ⟨folded.tree.filter fun i => i.rule?.isSome⟩, error := none }

end TypedStyle
