import TypedStyle.Folding

/-!
# Branches

Selecting branches replaces every conditional by the statements of the branch that its condition
takes. The conditions must have been folded to booleans. A rule in which that is not so loses its
body, and the rules after it are left alone.
-/

namespace TypedStyle

namespace Branch

def condition (value : Expr) : Except FoldError Bool :=
  match value.literal? with
  | some (.bool b) => .ok b
  | _ => .error (.condition value.span)

mutual

/-- The statements that take the place of a statement. -/
def statement : Statement → Except FoldError (List Statement)
  | .ifThen _ value body _ =>
    match condition value with
    | .error e => .error e
    | .ok true => statements body
    | .ok false => .ok []
  | .ifElse _ value body alternative _ _ =>
    match condition value with
    | .error e => .error e
    | .ok true => statements body
    | .ok false => statements alternative
  | .declare property value span => .ok [.declare property value span]
  | .assign a => .ok [.assign a]

/-- The statements that take the place of those of a block. -/
def statements : List Statement → Except FoldError (List Statement)
  | [] => .ok []
  | s :: rest =>
    match statement s with
    | .error e => .error e
    | .ok first =>
      match statements rest with
      | .error e => .error e
      | .ok more => .ok (first ++ more)

end

theorem statement_ifThen_eq_ok {id : NodeId} {value : Expr} {body taken : List Statement}
    {span : Span} (h : statement (.ifThen id value body span) = .ok taken) :
    statements body = .ok taken ∨ taken = [] := by
  simp only [statement] at h
  split at h
  · cases h
  · exact .inl h
  · exact .inr (Except.ok.inj h).symm

theorem statement_ifElse_eq_ok {id : NodeId} {value : Expr}
    {body alternative taken : List Statement} {elseSpan span : Span}
    (h : statement (.ifElse id value body alternative elseSpan span) = .ok taken) :
    statements body = .ok taken ∨ statements alternative = .ok taken := by
  simp only [statement] at h
  split at h
  · cases h
  · exact .inl h
  · exact .inr h

theorem statements_cons_eq_ok {s : Statement} {rest taken : List Statement}
    (h : statements (s :: rest) = .ok taken) :
    ∃ first more, statement s = .ok first ∧ statements rest = .ok more ∧ taken = first ++ more := by
  simp only [statements] at h
  split at h
  · cases h
  · next first hfirst =>
    split at h
    · cases h
    · next more hmore => exact ⟨first, more, hfirst, hmore, (Except.ok.inj h).symm⟩

/-- Selects branches in the members of a sheet, up to the first failure. -/
def items : List Item → List Item × Option FoldError
  | [] => ([], none)
  | .assign a :: rest =>
    let more := items rest
    (.assign a :: more.1, more.2)
  | .rule r :: rest =>
    match statements r.body with
    | .error e => (.rule { r with body := [] } :: rest, some e)
    | .ok body =>
      let more := items rest
      (.rule { r with body } :: more.1, more.2)

end Branch

def Sheet.selectBranches (sheet : Sheet) : Attempt :=
  let selected := Branch.items sheet.items
  { sheet := ⟨selected.1⟩, error := selected.2 }

end TypedStyle
