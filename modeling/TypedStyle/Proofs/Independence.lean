import Mathlib.Data.List.Flatten
import TypedStyle.Css
import TypedStyle.Proofs.CheckerExactness

/-!
# Rules do not see each other

Checking and folding hand one scope from member to member, but every block gives it back as it was
(`Checked.scope_block`, `Folded.scope_block`). So each member of a block, each branch of a
conditional and each rule of a sheet is visited in the scope of what is around it, as if it stood
there alone.
-/

namespace TypedStyle

/-! ## Sheets by their parts -/

namespace Sheet

/-- The sheet with the given assignments and the given rules behind them. -/
def ofParts (top : List Assignment) (rs : List Rule) : Sheet :=
  ⟨top.map .assign ++ rs.map .rule⟩

@[simp]
theorem assignments_ofParts (top : List Assignment) (rs : List Rule) :
    (ofParts top rs).assignments = top := by
  have htop : top.filterMap (Item.assignment? ∘ Item.assign) = top := List.filterMap_some
  have hrules : rs.filterMap (Item.assignment? ∘ Item.rule) = [] := by
    simp [Item.assignment?]
  rw [assignments, ofParts, List.filterMap_append, List.filterMap_map, List.filterMap_map, htop,
    hrules, List.append_nil]

@[simp]
theorem rules_ofParts (top : List Assignment) (rs : List Rule) : (ofParts top rs).rules = rs := by
  have htop : top.filterMap (Item.rule? ∘ Item.assign) = [] := by
    simp [Item.rule?]
  have hrules : rs.filterMap (Item.rule? ∘ Item.rule) = rs := List.filterMap_some
  rw [rules, ofParts, List.filterMap_append, List.filterMap_map, List.filterMap_map, htop, hrules,
    List.nil_append]

theorem DistinctIds.of_sublist {sheet part : Sheet} (h : sheet.DistinctIds)
    (hsub : part.items.Sublist sheet.items) : part.DistinctIds :=
  h.sublist (((hsub.flatMap Item.nodes).map Prod.fst).filter _)

end Sheet

/-! ## Checking -/

namespace Checked

def rule (scope : Scope Ty) (r : Rule) : Checked :=
  block scope r.body fun inner => statements inner r.body

/-- What is wrong in a block is what is wrong in its members, each in the scope of the block. -/
theorem diagnostics_statements (scope : Scope Ty) (body : List Statement) :
    (statements scope body).diagnostics =
      body.flatMap fun s => (statement scope s).diagnostics := by
  induction body with
  | nil => rfl
  | cons s rest ih =>
    -- A member leaves the scope as it was, so the next one is checked in the same.
    simp only [statements, scope_statement, ih, List.flatMap_cons]

/-- The branches of a conditional are checked in the same scope. -/
theorem diagnostics_ifElse (scope : Scope Ty) (id : NodeId) (value : Expr)
    (body alternative : List Statement) (elseSpan span : Span) :
    (statement scope (.ifElse id value body alternative elseSpan span)).diagnostics =
      (statement scope (.ifThen id value body span)).diagnostics ++
        (block scope alternative fun inner => statements inner alternative).diagnostics := by
  simp only [statement, scope_block, List.append_assoc]

theorem diagnostics_rules (scope : Scope Ty) (rs : List Rule) :
    (rules scope rs).diagnostics = rs.flatMap fun r => (rule scope r).diagnostics := by
  induction rs with
  | nil => rfl
  | cons r rest ih =>
    simp only [rules, scope_block, ih, List.flatMap_cons]
    rfl

end Checked

/-- What is wrong in a sheet, by its assignments and its rules. -/
theorem Sheet.violations_eq (sheet : Sheet) :
    sheet.violations =
      (Checked.assignments .empty sheet.assignments).diagnostics ++
        sheet.rules.flatMap fun r =>
          (Checked.rule (Checked.assignments .empty sheet.assignments).scope r).diagnostics := by
  rw [violations, Checked.diagnostics_rules]

/-! ## Folding -/

namespace Folded

variable {scope : Scope Literal}

def rule (scope : Scope Literal) (r : Rule) : Folded (List Statement) :=
  block scope r.body fun inner => statements inner r.body

/-- Folding a block stops where its first member stops that cannot be folded on its own. -/
theorem error_statements (scope : Scope Literal) (body : List Statement) :
    (statements scope body).error = body.findSome? fun s => (statement scope s).error := by
  induction body with
  | nil => rfl
  | cons s rest ih =>
    simp only [statements, scope_statement, List.findSome?_cons]
    split
    · next e herror => rw [herror]
    · next herror => rw [herror, ← ih]

/-- The members of a block that is folded are folded each on its own. -/
theorem tree_statements {body : List Statement} (h : (statements scope body).error = none) :
    (statements scope body).tree = body.map fun s => (statement scope s).tree := by
  induction body with
  | nil => rfl
  | cons s rest ih =>
    simp only [statements, scope_statement] at h ⊢
    split at h
    · next e herror => simp [herror] at h
    · exact congrArg _ (ih h)

/-- A block is folded if its assignments can be bound and the others visited. -/
theorem error_block (scope : Scope Literal) (body : List Statement)
    (rest : Scope Literal → Folded (List Statement)) :
    (block scope body rest).error =
      (assignments scope.push (Statement.assignments body)).2.or
        (rest (assignments scope.push (Statement.assignments body)).1).error := by
  unfold block
  split
  · next inner e hbound => rw [hbound, Option.some_or]
  · next inner hbound =>
    rw [hbound, Option.none_or]
    dsimp only
    split
    · next e herror => rw [herror]
    · next herror => rw [herror]

theorem error_ifThen (scope : Scope Literal) (id : NodeId) (condition : Expr)
    (body : List Statement) (span : Span) :
    (statement scope (.ifThen id condition body span)).error =
      match condition.fold scope with
      | .error e => some e
      | .ok _ => (block scope body fun inner => statements inner body).error := by
  simp only [statement]
  cases condition.fold scope with
  | error e => rfl
  | ok value => rfl

/-- A conditional stops where that of its first branch stops or else that of the other one, both in
the same scope. -/
theorem error_ifElse (scope : Scope Literal) (id : NodeId) (condition : Expr)
    (body alternative : List Statement) (elseSpan span : Span) :
    (statement scope (.ifElse id condition body alternative elseSpan span)).error =
      (statement scope (.ifThen id condition body span)).error.or
        (statement scope (.ifThen id condition alternative span)).error := by
  rw [error_ifThen, error_ifThen]
  -- The first branch gives the scope back, so that the other one is folded in the same.
  simp only [statement, scope_block]
  cases condition.fold scope with
  | error e => rfl
  | ok value =>
    dsimp only
    split
    · next e herror => rw [herror, Option.some_or]
    · next herror => rw [herror, Option.none_or]

/-- The branches of a conditional that is folded are folded each in a conditional of its own. -/
theorem tree_ifElse {id : NodeId} {condition : Expr} {body alternative : List Statement}
    {elseSpan span : Span}
    (h : (statement scope (.ifElse id condition body alternative elseSpan span)).error = none) :
    ∃ value body' alternative',
      (statement scope (.ifElse id condition body alternative elseSpan span)).tree =
          .ifElse id value body' alternative' elseSpan span ∧
        (statement scope (.ifThen id condition body span)).tree = .ifThen id value body' span ∧
        (statement scope (.ifThen id condition alternative span)).tree =
          .ifThen id value alternative' span := by
  simp only [statement, scope_block] at h ⊢
  cases hfold : condition.fold scope with
  | error e => simp [hfold] at h
  | ok value =>
    simp only [hfold] at h ⊢
    split at h
    · next e herror => simp [herror] at h
    · exact ⟨value, _, _, rfl, rfl, rfl⟩

/-- Folding the members of a sheet stops where the first rule stops that cannot be folded on its
own. -/
theorem error_items (scope : Scope Literal) (members : List Item) :
    (items scope members).error =
      (members.filterMap Item.rule?).findSome? fun r => (rule scope r).error := by
  induction members with
  | nil => rfl
  | cons item rest ih =>
    cases item with
    | assign a => exact ih
    | rule r =>
      simp only [items, scope_block]
      rw [List.filterMap_cons_some (show (Item.rule r).rule? = some r from rfl),
        List.findSome?_cons, rule]
      split
      · next e herror => rw [herror]
      · next herror => rw [herror, ← ih]

/-- The rules of a sheet that is folded are folded each on its own. -/
theorem tree_items {members : List Item} (h : (items scope members).error = none) :
    ((items scope members).tree.filter fun i => i.rule?.isSome) =
      (members.filterMap Item.rule?).map fun r =>
        .rule { r with body := (rule scope r).tree } := by
  induction members with
  | nil => rfl
  | cons item rest ih =>
    cases item with
    | assign a => exact ih h
    | rule r =>
      -- The rule is folded, as all is, and the ones behind it start from the same scope.
      simp only [items, scope_block] at h ⊢
      split at h
      · next e herror => simp [herror] at h
      · exact congrArg _ (ih h)

end Folded

namespace Sheet

/-- Why a sheet cannot be folded, by its assignments and its rules. -/
theorem error_fold (sheet : Sheet) :
    sheet.fold.error =
      (Folded.assignments .empty sheet.assignments).2.or
        (sheet.rules.findSome? fun r =>
          (Folded.rule (Folded.assignments .empty sheet.assignments).1 r).error) := by
  unfold fold
  split
  · next scope e hbound => rw [hbound, Option.some_or]
  · next scope hbound =>
    have hitems := Folded.error_items scope sheet.items
    rw [hbound, Option.none_or, rules, ← hitems]
    dsimp only
    split
    · next e herror => rw [herror]
    · next herror => rw [herror]

/-- What a sheet is folded to, by its rules. -/
theorem sheet_fold {sheet : Sheet} (h : sheet.fold.error = none) :
    let scope := (Folded.assignments .empty sheet.assignments).1
    sheet.fold.sheet =
      ofParts [] (sheet.rules.map fun r => { r with body := (Folded.rule scope r).tree }) := by
  unfold fold at h ⊢
  split at h
  · simp at h
  · next scope hbound =>
    dsimp only at h
    split at h
    · simp at h
    · next herror =>
      simp only [hbound, herror, Folded.tree_items herror, ofParts, List.map_map, rules]
      rfl

/-! ## Rules alone -/

/-- A sheet of rules stops where the first of them stops when it stands alone. -/
theorem error_fold_ofParts (top : List Assignment) {rs : List Rule} (hne : rs ≠ []) :
    (ofParts top rs).fold.error = rs.findSome? fun r => (ofParts top [r]).fold.error := by
  have halone : ∀ r, (ofParts top [r]).fold.error =
      (Folded.assignments .empty top).2.or
        (Folded.rule (Folded.assignments .empty top).1 r).error := by
    intro r
    rw [error_fold, assignments_ofParts, rules_ofParts, List.findSome?_singleton]
  simp only [error_fold (ofParts top rs), assignments_ofParts, rules_ofParts, halone]
  cases (Folded.assignments .empty top).2 with
  | none => simp only [Option.none_or]
  | some e =>
    -- The assignments fail with every rule, so already with the first one.
    obtain ⟨r, rest, rfl⟩ := List.exists_cons_of_ne_nil hne
    simp only [Option.some_or, List.findSome?_cons]

theorem sheet_fold_ofParts {top : List Assignment} {rs : List Rule}
    (h : (ofParts top rs).fold.error = none)
    (halone : ∀ r ∈ rs, (ofParts top [r]).fold.error = none) :
    (ofParts top rs).fold.sheet =
      ofParts [] (rs.flatMap fun r => (ofParts top [r]).fold.sheet.rules) := by
  rw [sheet_fold h, assignments_ofParts, rules_ofParts]
  congr 1
  rw [← List.flatMap_singleton' (rs.map _), List.flatMap_map]
  apply List.flatMap_congr
  intro r hr
  rw [sheet_fold (halone r hr), rules_ofParts, assignments_ofParts, rules_ofParts]
  rfl

theorem items_fold {sheet : Sheet} (h : sheet.fold.error = none) :
    sheet.fold.sheet.items = sheet.fold.sheet.rules.map .rule := by
  rw [sheet_fold h, rules_ofParts]
  rfl

theorem css_flatMap_rules (sheets : List Sheet) :
    (ofParts [] (sheets.flatMap rules)).css = String.join (sheets.map css) := by
  induction sheets with
  | nil => rfl
  | cons sheet rest ih =>
    rw [css, rules_ofParts] at ih ⊢
    rw [List.flatMap_cons, List.map_append, String.join_append, ih, List.map_cons,
      String.join_cons]
    rfl

/-- What is wrong in a sheet of rules: what is wrong in the assignments, and then what is wrong in
each rule. -/
theorem violations_ofParts (top : List Assignment) (rs : List Rule) :
    (ofParts top rs).violations =
      (ofParts top []).violations ++
        rs.flatMap fun r =>
          (Checked.rule (Checked.assignments .empty top).scope r).diagnostics := by
  simp [violations_eq]

/-- Rules are independent of each other. Behind the same assignments, a sheet of rules is folded
exactly if each of its rules alone is, to what they are folded to and written as, one after the
other; otherwise it fails as the first rule that fails alone. If its nodes can be told apart, what
is wrong in it is what is wrong in the assignments, followed by what each rule alone adds to that.

In a rule it is the same with the members of a block and with the branches of a conditional: each is
folded and checked in the scope of what is around it, whatever the others bind. -/
theorem rules_independent (top : List Assignment) (rs : List Rule) (hne : rs ≠ []) :
    ((ofParts top rs).fold.error = rs.findSome? fun r => (ofParts top [r]).fold.error) ∧
      ((ofParts top rs).fold.error = none →
        (ofParts top rs).fold.sheet.items =
            rs.flatMap (fun r => (ofParts top [r]).fold.sheet.items) ∧
          (ofParts top rs).fold.sheet.css =
            String.join (rs.map fun r => (ofParts top [r]).fold.sheet.css)) ∧
      ((ofParts top rs).DistinctIds → ∃ found : Rule → List Diagnostic,
        (∀ r ∈ rs, (ofParts top [r]).analyze = (ofParts top []).analyze ++ found r) ∧
          (ofParts top rs).analyze = (ofParts top []).analyze ++ rs.flatMap found) ∧
      (∀ scope body,
        ((Folded.statements scope body).error =
            body.findSome? fun s => (Folded.statement scope s).error) ∧
          ((Folded.statements scope body).error = none →
            (Folded.statements scope body).tree =
              body.map fun s => (Folded.statement scope s).tree)) ∧
      (∀ scope id condition body alternative elseSpan span,
        let both := Folded.statement scope (.ifElse id condition body alternative elseSpan span)
        let first := Folded.statement scope (.ifThen id condition body span)
        let other := Folded.statement scope (.ifThen id condition alternative span)
        both.error = first.error.or other.error ∧
          (both.error = none → ∃ value body' alternative',
            both.tree = .ifElse id value body' alternative' elseSpan span ∧
              first.tree = .ifThen id value body' span ∧
              other.tree = .ifThen id value alternative' span)) ∧
      (∀ scope body, (Checked.statements scope body).diagnostics =
        body.flatMap fun s => (Checked.statement scope s).diagnostics) ∧
      ∀ scope id condition body alternative elseSpan span,
        (Checked.statement scope
            (.ifElse id condition body alternative elseSpan span)).diagnostics =
          (Checked.statement scope (.ifThen id condition body span)).diagnostics ++
            (Checked.block scope alternative fun inner =>
              Checked.statements inner alternative).diagnostics := by
  have herror := error_fold_ofParts top hne
  refine ⟨herror, ?_, ?_, fun scope body => ⟨Folded.error_statements scope body,
    Folded.tree_statements⟩, fun scope id condition body alternative elseSpan span =>
      ⟨Folded.error_ifElse .., Folded.tree_ifElse⟩, Checked.diagnostics_statements,
    Checked.diagnostics_ifElse⟩
  · intro hnone
    -- If no rule stops the sheet, none stops when it stands alone.
    have halone : ∀ r ∈ rs, (ofParts top [r]).fold.error = none :=
      List.findSome?_eq_none_iff.1 (herror.symm.trans hnone)
    rw [sheet_fold_ofParts hnone halone]
    constructor
    · rw [ofParts, List.map_nil, List.nil_append, List.map_flatMap]
      apply List.flatMap_congr
      intro r hr
      exact (items_fold (halone r hr)).symm
    · rw [← List.flatMap_map (fun r => (ofParts top [r]).fold.sheet) rules, css_flatMap_rules,
        List.map_map]
      rfl
  · intro hids
    -- Each rule alone, and the assignments alone, make a part of the sheet.
    have hpart : ∀ part : List Rule, part.Sublist rs → (ofParts top part).DistinctIds := by
      intro part hsub
      apply hids.of_sublist
      exact (List.Sublist.refl _).append (hsub.map _)
    refine ⟨fun r => (Checked.rule (Checked.assignments .empty top).scope r).diagnostics, ?_, ?_⟩
    · intro r hr
      rw [analyze_eq_violations (hpart [r] (List.singleton_sublist.2 hr)),
        analyze_eq_violations (hpart [] (List.nil_sublist rs)), violations_ofParts top [r],
        List.flatMap_singleton]
    · rw [analyze_eq_violations hids, analyze_eq_violations (hpart [] (List.nil_sublist rs)),
        violations_ofParts top rs]

/-- A rule that binds a variable and uses it. -/
def lender : Rule :=
  ⟨.tag "a",
    [.assign ⟨⟨"X", .zero⟩, .literal ⟨0⟩ .zero (.pixel 1), .zero⟩,
      .declare ⟨"width", .zero⟩ (.reference ⟨1⟩ .zero "X") .zero], .zero⟩

/-- A rule that uses a variable which nothing around it binds. -/
def borrower : Rule :=
  ⟨.tag "b", [.declare ⟨"height", .zero⟩ (.reference ⟨2⟩ .zero "X") .zero], .zero⟩

/-- Two lenders are folded and written one after the other; behind a lender, a borrower finds no
variable, and nothing else is wrong. -/
theorem rules_independent_borrower :
    [lender, borrower] ≠ [] ∧ (ofParts [] [lender, borrower]).DistinctIds ∧
      (ofParts [] [lender, lender]).fold.sheet.css =
        "a \x7b\n\twidth: 1px;\n\x7d\n" ++ "a \x7b\n\twidth: 1px;\n\x7d\n" ∧
      (ofParts [] [lender, borrower]).fold.error = some (.unresolved "X" .zero) ∧
      (ofParts [] [lender, borrower]).analyze =
        [.ofNode ⟨2⟩ .zero (.unboundVariable "X")] := by
  have hids : (ofParts [] [lender, borrower]).DistinctIds := by decide
  obtain ⟨herror, htexts, -⟩ := rules_independent [] [lender, lender] (by simp)
  obtain ⟨herror', -, hfound, -⟩ := rules_independent [] [lender, borrower] (by simp)
  obtain ⟨found, halone, hboth⟩ := hfound hids
  refine ⟨by simp, hids, ?_, ?_, ?_⟩
  · exact (htexts (herror.trans (by rfl))).2.trans (by decide)
  · exact herror'.trans (by rfl)
  · have hlender : [] = found lender := halone lender (by simp)
    have hborrower : [_] = found borrower := halone borrower (by simp)
    rw [hboth, List.flatMap_cons, List.flatMap_singleton, ← hlender, ← hborrower]
    rfl

end Sheet

end TypedStyle
