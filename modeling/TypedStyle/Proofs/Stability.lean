import TypedStyle.Proofs.Hoisting

/-!
# Folding twice

A fold that stops leaves a tree in which some parts are folded and others are not. Folding that tree
again stops at the same place for the same reason, and changes nothing.

Two facts carry this through the tree:

- What has been folded is a literal, and stays as it is in every scope (`Statement.Inert`). So it does
  not matter that the assignments around it are gone.
- What has not been folded is still below all assignments that it is folded with: a block loses its
  own only when everything in it is folded. So the second fold comes to the place of the failure
  with the same scope.
-/

namespace TypedStyle

/-! ## What has been folded -/

theorem Expr.fold_of_fold {scope : Scope Literal} {e folded : Expr} (h : e.fold scope = .ok folded)
    (other : Scope Literal) : folded.fold other = .ok folded := by
  unfold fold at h
  split at h
  · obtain rfl := Except.ok.inj h
    rfl
  · cases h

/-- There is nothing left to fold in a statement: it stays as it is, whatever the scope. -/
def Statement.Inert (s : Statement) : Prop :=
  ∀ scope, Folded.statement scope s = { scope, tree := s, error := none }

namespace Folded

variable {scope : Scope Literal} {body : List Statement}

theorem eq_of_error_eq_none {α : Type} {f : Folded α} (hscope : f.scope = scope)
    (herror : f.error = none) :
    f = { scope, tree := f.tree, error := none } := by
  rw [← hscope, ← herror]

theorem statements_of_inert (h : ∀ s ∈ body, s.Inert) (scope : Scope Literal) :
    statements scope body = { scope, tree := body, error := none } := by
  induction body with
  | nil => rfl
  | cons s rest ih =>
    obtain ⟨hs, hrest⟩ := List.forall_mem_cons.1 h
    simp only [statements, hs scope, ih hrest]

theorem block_of_inert (hassign : ∀ s ∈ body, s.isAssignment = false) (h : ∀ s ∈ body, s.Inert)
    (scope : Scope Literal) :
    (block scope body fun inner => statements inner body) =
      { scope, tree := body, error := none } := by
  have hnone : Statement.assignments body = [] := by
    refine List.filterMap_eq_nil_iff.2 fun s hs => ?_
    simpa [Statement.isAssignment] using hassign s hs
  have hfilter : (body.filter fun s => !s.isAssignment) = body := by
    refine List.filter_eq_self.2 fun s hs => ?_
    rw [hassign s hs]
    rfl
  simp only [block, hnone, assignments, statements_of_inert h, hfilter, Scope.pop_push]

theorem block_of_folded (h : (block scope body fun inner => statements inner body).error = none)
    (hinert : ∀ inner, (statements inner body).error = none →
      ∀ t ∈ (statements inner body).tree, t.Inert) (other : Scope Literal) :
    let folded := (block scope body fun inner => statements inner body).tree
    (block other folded fun inner => statements inner folded) =
      { scope := other, tree := folded, error := none } := by
  intro folded
  obtain ⟨after, -, herror, htree⟩ := block_of_error_eq_none h
  have hmem : ∀ t ∈ folded, t ∈ (statements after body).tree ∧ t.isAssignment = false := by
    intro t ht
    simpa [folded, htree] using ht
  exact block_of_inert (fun t ht => (hmem t ht).2)
    (fun t ht => hinert after herror t (hmem t ht).1) other

mutual

theorem inert_statement {scope : Scope Literal} :
    ∀ s : Statement, (statement scope s).error = none → (statement scope s).tree.Inert
  | .assign a, _ => fun _ => rfl
  | .declare property value span, h => by
    intro other
    cases hvalue : value.fold scope with
    | error e => simp [statement, hvalue] at h
    | ok folded => simp only [statement, hvalue, Expr.fold_of_fold hvalue other]
  | .ifThen id condition body span, h => by
    intro other
    cases hcondition : condition.fold scope with
    | error e => simp [statement, hcondition] at h
    | ok folded =>
      simp only [statement, hcondition] at h ⊢
      have hbody := block_of_folded h (fun _ => inert_statements body) other
      simp only [Expr.fold_of_fold hcondition other, hbody]
  | .ifElse id condition body alternative elseSpan span, h => by
    intro other
    cases hcondition : condition.fold scope with
    | error e => simp [statement, hcondition] at h
    | ok folded =>
      simp only [statement, hcondition, scope_block] at h ⊢
      split at h
      · next e herror => simp [herror] at h
      · next herror =>
        have hbody := block_of_folded herror (fun _ => inert_statements body) other
        have hother := block_of_folded h (fun _ => inert_statements alternative) other
        simp only [statement, Expr.fold_of_fold hcondition other, hbody, hother]

theorem inert_statements {scope : Scope Literal} :
    ∀ body : List Statement, (statements scope body).error = none →
      ∀ t ∈ (statements scope body).tree, t.Inert
  | [], _ => by simp [statements]
  | s :: rest, h => by
    simp only [statements, scope_statement] at h ⊢
    split at h
    · next e herror => simp [herror] at h
    · next herror =>
      exact List.forall_mem_cons.2 ⟨inert_statement s herror, inert_statements rest h⟩

end

/-! ## What has not been folded -/

theorem assignments_tree (scope : Scope Literal) (body : List Statement) :
    Statement.assignments (statements scope body).tree = Statement.assignments body := by
  induction body with
  | nil => rfl
  | cons s rest ih =>
    have hfirst := assignment?_tree scope s
    simp only [Statement.assignments, statements, scope_statement] at ih ⊢
    split
    · simp only [List.filterMap_cons, hfirst]
    · simp only [List.filterMap_cons, hfirst, ih]

theorem block_again
    (h : ∀ inner, statements inner (statements inner body).tree = statements inner body)
    (scope : Scope Literal) :
    let left := (block scope body fun inner => statements inner body).tree
    (block scope left fun inner => statements inner left) =
      block scope body fun inner => statements inner body := by
  intro left
  cases hbound : assignments scope.push (Statement.assignments body) with
  | mk after failure =>
    cases failure with
    | some e =>
      -- The assignments already fail, and nothing of the block is touched.
      have hleft : left = body := by simp only [left, block, hbound]
      rw [hleft]
    | none =>
      cases herror : (statements after body).error with
      | some e =>
        -- The block keeps its assignments, so its members are folded in the same scope again.
        have hleft : left = (statements after body).tree := by
          simp only [left, block, hbound, herror]
        have hagain : assignments scope.push (Statement.assignments left) = (after, none) := by
          rw [hleft, assignments_tree, hbound]
        simp only [block, hbound, hagain]
        rw [hleft, h after]
      | none =>
        -- Nothing is left to bind or to fold.
        have hfolded : (block scope body fun inner => statements inner body).error = none := by
          simp only [block, hbound, herror]
        rw [eq_of_error_eq_none (scope_block scope body) hfolded]
        exact block_of_folded hfolded (fun _ => inert_statements body) scope

mutual

theorem statement_again (scope : Scope Literal) :
    ∀ s : Statement, statement scope (statement scope s).tree = statement scope s
  | .assign a => rfl
  | .declare property value span => by
    cases hvalue : value.fold scope with
    | error e => simp only [statement, hvalue]
    | ok folded => simp only [statement, hvalue, Expr.fold_of_fold hvalue scope]
  | .ifThen id condition body span => by
    cases hcondition : condition.fold scope with
    | error e => simp only [statement, hcondition]
    | ok folded =>
      have hbody := block_again (fun inner => statements_again inner body) scope
      simp only [statement, hcondition, Expr.fold_of_fold hcondition scope, hbody]
  | .ifElse id condition body alternative elseSpan span => by
    cases hcondition : condition.fold scope with
    | error e => simp only [statement, hcondition]
    | ok folded =>
      have hbody := block_again (fun inner => statements_again inner body) scope
      have hother := block_again (fun inner => statements_again inner alternative) scope
      cases herror : (block scope body fun inner => statements inner body).error with
      | some e =>
        -- The alternative has not been visited.
        simp only [statement, hcondition, herror, Expr.fold_of_fold hcondition scope, hbody]
      | none =>
        simp only [statement, hcondition, herror, Expr.fold_of_fold hcondition scope, hbody,
          scope_block, hother]

theorem statements_again (scope : Scope Literal) :
    ∀ body : List Statement, statements scope (statements scope body).tree = statements scope body
  | [] => rfl
  | s :: rest => by
    have hfirst := statement_again scope s
    have hrest := statements_again scope rest
    cases herror : (statement scope s).error with
    | some e => simp only [statements, herror, hfirst]
    | none => simp only [statements, herror, hfirst, scope_statement, hrest]

end

/-! ## Sheets -/

theorem items_again (scope : Scope Literal) (members : List Item) :
    items scope (items scope members).tree = items scope members := by
  induction members with
  | nil => rfl
  | cons item rest ih =>
    cases item with
    | assign a => simp only [items, ih]
    | rule r =>
      have hrule := block_again (fun inner => statements_again inner r.body) scope
      cases herror : (block scope r.body fun inner => statements inner r.body).error with
      | some e => simp only [items, herror, hrule]
      | none => simp only [items, herror, hrule, scope_block, ih]

theorem assignments_items (scope : Scope Literal) (members : List Item) :
    (items scope members).tree.filterMap Item.assignment? = members.filterMap Item.assignment? := by
  induction members with
  | nil => rfl
  | cons item rest ih =>
    cases item with
    | assign a => simp only [items, List.filterMap_cons, Item.assignment?, ih]
    | rule r =>
      simp only [items, scope_block]
      split
      · rfl
      · exact ih

/-- The rules that have been folded stay as they are, whatever the scope. -/
theorem items_of_folded {members : List Item} (h : (items scope members).error = none)
    (other : Scope Literal) :
    let rules := (items scope members).tree.filter fun i => i.rule?.isSome
    items other rules = { scope := other, tree := rules, error := none } := by
  induction members with
  | nil => rfl
  | cons item rest ih =>
    cases item with
    | assign a => exact ih h
    | rule r =>
      simp only [items, scope_block] at h ⊢
      split at h
      · next e herror => simp [herror] at h
      · next herror =>
        have hrule := block_of_folded herror (fun _ => inert_statements r.body) other
        have hrest := ih h
        rw [List.filter_cons_of_pos rfl]
        simp only [items, hrule, hrest]

end Folded

namespace Sheet

theorem assignments_fold {sheet : Sheet} {e : FoldError} (h : sheet.fold.error = some e) :
    sheet.fold.sheet.assignments = sheet.assignments := by
  simp only [fold] at h ⊢
  split at h
  · rfl
  · split at h
    · exact Folded.assignments_items ..
    · cases h

/-- Folding is stable. Whether folding a sheet succeeds or stops somewhere, folding what it leaves
ends in the same way, with the same error if it stops, and leaves the same sheet. -/
theorem fold_fold (sheet : Sheet) : sheet.fold.sheet.fold = sheet.fold := by
  cases hbound : Folded.assignments .empty sheet.assignments with
  | mk scope failure =>
    cases failure with
    | some e =>
      have hfold : sheet.fold = { sheet, error := some e } := by simp only [fold, hbound]
      rw [hfold, hfold]
    | none =>
      cases herror : (Folded.items scope sheet.items).error with
      | some e =>
        -- The assignments are still there, so the rules are folded in the same scope again.
        have hfold : sheet.fold = ⟨⟨(Folded.items scope sheet.items).tree⟩, some e⟩ := by
          simp only [fold, hbound, herror]
        have hagain : Folded.assignments .empty sheet.fold.sheet.assignments = (scope, none) := by
          rw [assignments_fold (congrArg Attempt.error hfold), hbound]
        rw [hfold] at hagain ⊢
        simp only [fold, hagain, Folded.items_again, herror]
      | none =>
        -- Only folded rules are left, and they do not look at the scope.
        have hfold : sheet.fold =
            ⟨⟨(Folded.items scope sheet.items).tree.filter fun i => i.rule?.isSome⟩, none⟩ := by
          simp only [fold, hbound, herror]
        have hnone : sheet.fold.sheet.assignments = [] := by
          rw [sheet_fold (congrArg Attempt.error hfold), assignments_ofParts]
        have hrules := Folded.items_of_folded herror .empty
        rw [hfold] at hnone ⊢
        simp only [fold, hnone, Folded.assignments, hrules, List.filter_filter, Bool.and_self]

end Sheet

end TypedStyle
