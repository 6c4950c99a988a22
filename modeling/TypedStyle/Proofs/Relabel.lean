import TypedStyle.Sheet

/-!
# Trees up to their labels

The identities and spans of a tree are labels: they say where its parts come from, not what they
are. `relabel` changes them all, and `bare` makes them all the same, so that two trees with the
same bare form differ in labels only.
-/

namespace TypedStyle

/-- An expression with other labels. -/
def Expr.relabel (ids : NodeId → NodeId) (spans : Span → Span) : Expr → Expr
  | literal id span value => literal (ids id) (spans span) value
  | reference id span name => reference (ids id) (spans span) name
  | operation id span op lhs rhs =>
    operation (ids id) (spans span) op (lhs.relabel ids spans) (rhs.relabel ids spans)

def Ident.relabel (spans : Span → Span) (i : Ident) : Ident :=
  { i with span := spans i.span }

def Assignment.relabel (ids : NodeId → NodeId) (spans : Span → Span) (a : Assignment) :
    Assignment :=
  { name := a.name.relabel spans, value := a.value.relabel ids spans, span := spans a.span }

namespace Statement

mutual

def relabel (ids : NodeId → NodeId) (spans : Span → Span) : Statement → Statement
  | declare property value span =>
    declare (property.relabel spans) (value.relabel ids spans) (spans span)
  | assign a => assign (a.relabel ids spans)
  | ifThen id condition body span =>
    ifThen (ids id) (condition.relabel ids spans) (relabelAll ids spans body) (spans span)
  | ifElse id condition body alternative elseSpan span =>
    ifElse (ids id) (condition.relabel ids spans) (relabelAll ids spans body)
      (relabelAll ids spans alternative) (spans elseSpan) (spans span)

def relabelAll (ids : NodeId → NodeId) (spans : Span → Span) : List Statement → List Statement
  | [] => []
  | s :: rest => s.relabel ids spans :: relabelAll ids spans rest

end

end Statement

/-- A member of a sheet with other labels. -/
def Item.relabel (ids : NodeId → NodeId) (spans : Span → Span) : Item → Item
  | assign a => assign (a.relabel ids spans)
  | rule r =>
    rule { selector := r.selector, body := Statement.relabelAll ids spans r.body
           span := spans r.span }

def Sheet.relabel (ids : NodeId → NodeId) (spans : Span → Span) (sheet : Sheet) : Sheet :=
  ⟨sheet.items.map (Item.relabel ids spans)⟩

/-! ## The same labels -/

theorem Expr.relabel_self (e : Expr) : e.relabel (fun i => i) (fun s => s) = e := by
  induction e with
  | literal id span value => rfl
  | reference id span name => rfl
  | operation id span op lhs rhs ihl ihr => rw [relabel, ihl, ihr]

theorem Assignment.relabel_self (a : Assignment) :
    a.relabel (fun i => i) (fun s => s) = a := by
  rw [relabel, Expr.relabel_self]
  rfl

mutual

theorem Statement.relabel_self :
    ∀ s : Statement, s.relabel (fun i => i) (fun s => s) = s
  | .declare property value span => by
    rw [relabel, Expr.relabel_self]
    rfl
  | .assign a => by rw [relabel, Assignment.relabel_self]
  | .ifThen id condition body span => by
    rw [relabel, Expr.relabel_self, relabelAll_self body]
  | .ifElse id condition body alternative elseSpan span => by
    rw [relabel, Expr.relabel_self, relabelAll_self body, relabelAll_self alternative]

theorem Statement.relabelAll_self :
    ∀ body : List Statement, relabelAll (fun i => i) (fun s => s) body = body
  | [] => rfl
  | s :: rest => by rw [relabelAll, relabel_self s, relabelAll_self rest]

end

theorem Item.relabel_self (i : Item) : i.relabel (fun i => i) (fun s => s) = i := by
  cases i with
  | assign a => rw [relabel, Assignment.relabel_self]
  | rule r => rw [relabel, Statement.relabelAll_self]

/-! ## Bare trees -/

def Expr.bare (e : Expr) : Expr :=
  e.relabel (fun _ => .dummy) fun _ => .zero

def Assignment.bare (a : Assignment) : Assignment :=
  a.relabel (fun _ => .dummy) fun _ => .zero

def Statement.bareAll (body : List Statement) : List Statement :=
  relabelAll (fun _ => .dummy) (fun _ => .zero) body

def Statement.bare (s : Statement) : Statement :=
  s.relabel (fun _ => .dummy) fun _ => .zero

/-- A member of a sheet without labels. -/
def Item.bare (i : Item) : Item :=
  i.relabel (fun _ => .dummy) fun _ => .zero

/-- A sheet without labels. -/
def Sheet.bare (sheet : Sheet) : Sheet :=
  sheet.relabel (fun _ => .dummy) fun _ => .zero

end TypedStyle
