import TypedStyle.Proofs.Independence

/-!
# Where assignments stand

In a sheet and in every block the assignments are visited first, wherever they stand. `Sheet.hoist`
moves them to the front, at every depth and in their order. A sheet is checked and folded like its
hoisted form, so two sheets with one hoisted form cannot be told apart by checking or folding
(`Sheet.hoist_determines`).

The walks agree member by member: a member is hoisted in itself, and its place among the assignments
does not count, because it is visited in the scope behind all of them.
-/

namespace TypedStyle

namespace Statement

/-! ## Assignments first -/

/-- A block with its assignments in front of its other members. Both keep their order. -/
def assignmentsFirst (body : List Statement) : List Statement :=
  body.filter isAssignment ++ others body

mutual

/-- A statement with the assignments first in all of its blocks. -/
def hoist : Statement → Statement
  | declare property value span => declare property value span
  | assign a => assign a
  | ifThen id condition body span =>
    ifThen id condition (assignmentsFirst (hoistAll body)) span
  | ifElse id condition body alternative elseSpan span =>
    ifElse id condition (assignmentsFirst (hoistAll body))
      (assignmentsFirst (hoistAll alternative)) elseSpan span

/-- Statements with the assignments first in all of their blocks. -/
def hoistAll : List Statement → List Statement
  | [] => []
  | s :: rest => s.hoist :: hoistAll rest

end

/-- A block with the assignments first, in itself and in all blocks inside it. -/
def hoistBlock (body : List Statement) : List Statement :=
  assignmentsFirst (hoistAll body)

theorem hoistAll_eq_map (body : List Statement) : hoistAll body = body.map hoist := by
  induction body with
  | nil => rfl
  | cons s rest ih => rw [hoistAll, ih, List.map_cons]

theorem assignment?_hoist (s : Statement) : s.hoist.assignment? = s.assignment? := by
  cases s <;> rfl

theorem isAssignment_hoist (s : Statement) : s.hoist.isAssignment = s.isAssignment := by
  rw [isAssignment, assignment?_hoist, isAssignment]

theorem others_assignmentsFirst (body : List Statement) :
    others (assignmentsFirst body) = others body := by
  simp [others, assignmentsFirst, List.filter_filter]

theorem others_hoistBlock (body : List Statement) :
    others (hoistBlock body) = (others body).map hoist := by
  have hkeep : ((fun s : Statement => !s.isAssignment) ∘ hoist) = fun s => !s.isAssignment := by
    funext s
    rw [Function.comp_apply, isAssignment_hoist]
  rw [hoistBlock, others_assignmentsFirst, hoistAll_eq_map, others, List.filter_map, hkeep, others]

theorem assignments_hoistBlock (body : List Statement) :
    assignments (hoistBlock body) = assignments body := by
  -- In front there are the assignments, and behind them there is none.
  have hfront : ∀ block : List Statement, assignments (block.filter isAssignment) =
      assignments block := by
    intro block
    rw [assignments, assignments, List.filterMap_filter]
    congr 1
    funext s
    cases s <;> rfl
  have hback : ∀ block : List Statement, assignments (others block) = [] := by
    intro block
    rw [assignments, List.filterMap_eq_nil_iff]
    intro s hs
    have hother := (List.mem_filter.1 hs).2
    cases hassign : s.assignment? with
    | none => rfl
    | some a => simp [isAssignment, hassign] at hother
  have hsame : assignment? ∘ hoist = assignment? := funext assignment?_hoist
  calc
    assignments (hoistBlock body) = assignments (hoistAll body) := by
      rw [hoistBlock, assignmentsFirst, assignments, List.filterMap_append, ← assignments,
        ← assignments, hfront, hback, List.append_nil]
    _ = assignments body := by
      rw [hoistAll_eq_map, assignments, List.filterMap_map, hsame, assignments]

end Statement

/-- A rule with the assignments first in all of its blocks. -/
def Rule.hoist (r : Rule) : Rule :=
  { r with body := Statement.hoistBlock r.body }

/-- A sheet with the assignments first, in itself and in all of its blocks. -/
def Sheet.hoist (sheet : Sheet) : Sheet :=
  ofParts sheet.assignments (sheet.rules.map Rule.hoist)

/-! ## Checking -/

namespace Checked

theorem flatMap_others (scope : Scope Ty) (body : List Statement) :
    (Statement.others body).flatMap (fun s => (statement scope s).diagnostics) =
      body.flatMap fun s => (statement scope s).diagnostics := by
  induction body with
  | nil => rfl
  | cons s rest ih =>
    cases s with
    | assign a => exact ih
    | _ =>
      rw [Statement.others, List.filter_cons_of_pos rfl, List.flatMap_cons, List.flatMap_cons,
        ← Statement.others, ih]

theorem diagnostics_block (scope : Scope Ty) (body : List Statement) :
    let bound := assignments scope.push (Statement.assignments body)
    (block scope body fun inner => statements inner body).diagnostics =
      bound.diagnostics ++
        (Statement.others body).flatMap fun s => (statement bound.scope s).diagnostics := by
  intro bound
  rw [flatMap_others, ← diagnostics_statements]
  rfl

theorem diagnostics_hoistBlock {body : List Statement}
    (h : ∀ s ∈ body, ∀ scope, (statement scope s.hoist).diagnostics =
      (statement scope s).diagnostics) (scope : Scope Ty) :
    (block scope (Statement.hoistBlock body) fun inner =>
        statements inner (Statement.hoistBlock body)).diagnostics =
      (block scope body fun inner => statements inner body).diagnostics := by
  rw [diagnostics_block, diagnostics_block, Statement.assignments_hoistBlock,
    Statement.others_hoistBlock, List.flatMap_map]
  congr 1
  apply List.flatMap_congr
  intro s hs
  exact h s (List.mem_filter.1 hs).1 _

-- A block is checked in a scope of its own, so the scope stands behind the statement here.
mutual

theorem diagnostics_hoist :
    ∀ s scope, (statement scope (Statement.hoist s)).diagnostics = (statement scope s).diagnostics
  | .assign _, _ => rfl
  | .declare .., _ => rfl
  | .ifThen id value body span, scope => by
    have hbody := diagnostics_hoistBlock (diagnostics_hoistAll body) scope
    exact congrArg (condition scope id value ++ ·) hbody
  | .ifElse id value body alternative elseSpan span, scope => by
    have hbody := diagnostics_hoistBlock (diagnostics_hoistAll body) scope
    have halternative := diagnostics_hoistBlock (diagnostics_hoistAll alternative) scope
    -- The condition is checked with the first branch.
    have hfirst := congrArg (condition scope id value ++ ·) hbody
    rw [Statement.hoist, diagnostics_ifElse, diagnostics_ifElse]
    exact congrArg₂ (· ++ ·) hfirst halternative

theorem diagnostics_hoistAll :
    ∀ body : List Statement, ∀ s ∈ body, ∀ scope,
      (statement scope (Statement.hoist s)).diagnostics = (statement scope s).diagnostics
  | [], _, hs, _ => by simp at hs
  | first :: rest, s, hs, scope => by
    rcases List.mem_cons.1 hs with hfirst | hrest
    · rw [hfirst]
      exact diagnostics_hoist first scope
    · exact diagnostics_hoistAll rest s hrest scope

end

end Checked

theorem Sheet.analyze_hoist (sheet : Sheet) : sheet.hoist.analyze = sheet.analyze := by
  have hrule : ∀ scope r, (Checked.rule scope (Rule.hoist r)).diagnostics =
      (Checked.rule scope r).diagnostics := by
    intro scope r
    exact Checked.diagnostics_hoistBlock (Checked.diagnostics_hoistAll r.body) scope
  rw [analyze, analyze, violations_eq, violations_eq, hoist, assignments_ofParts, rules_ofParts,
    List.flatMap_map]
  simp only [hrule]

/-! ## Folding -/

namespace Folded

variable {scope : Scope Literal} {body : List Statement}

/-- Two foldings end alike: they stop for the same reason, or leave the same tree. -/
structure Alike {α : Type} (f g : Folded α) : Prop where
  error : f.error = g.error
  tree : g.error = none → f.tree = g.tree

theorem assignment?_tree (scope : Scope Literal) (s : Statement) :
    (statement scope s).tree.assignment? = s.assignment? := by
  cases s with
  | assign a => rfl
  | declare property value span =>
    simp only [statement]
    split <;> rfl
  | ifThen id condition body span =>
    simp only [statement]
    split <;> rfl
  | ifElse id condition body alternative elseSpan span =>
    simp only [statement]
    split
    · rfl
    · split <;> rfl

theorem isAssignment_tree (scope : Scope Literal) (s : Statement) :
    (statement scope s).tree.isAssignment = s.isAssignment := by
  rw [Statement.isAssignment, assignment?_tree, ← Statement.isAssignment]

theorem findSome?_others (scope : Scope Literal) (body : List Statement) :
    (Statement.others body).findSome? (fun s => (statement scope s).error) =
      body.findSome? fun s => (statement scope s).error := by
  induction body with
  | nil => rfl
  | cons s rest ih =>
    cases s with
    | assign a => exact ih
    | _ =>
      rw [Statement.others, List.filter_cons_of_pos rfl, List.findSome?_cons, List.findSome?_cons,
        ← Statement.others, ih]

theorem error_wholeBlock (scope : Scope Literal) (body : List Statement) :
    (block scope body fun inner => statements inner body).error =
      (assignments scope.push (Statement.assignments body)).2.or
        ((Statement.others body).findSome? fun s =>
          (statement (assignments scope.push (Statement.assignments body)).1 s).error) := by
  rw [error_block, findSome?_others, error_statements]

theorem tree_wholeBlock (h : (block scope body fun inner => statements inner body).error = none) :
    (block scope body fun inner => statements inner body).tree =
      (Statement.others body).map fun s =>
        (statement (assignments scope.push (Statement.assignments body)).1 s).tree := by
  obtain ⟨inner, hinner, herror, htree⟩ := block_of_error_eq_none h
  have hkeep : ((fun s : Statement => !s.isAssignment) ∘ fun s => (statement inner s).tree) =
      fun s => !s.isAssignment := by
    funext s
    rw [Function.comp_apply, isAssignment_tree]
  rw [htree, tree_statements herror, List.filter_map, hkeep, hinner, Statement.others]

theorem alike_hoistBlock
    (h : ∀ s ∈ body, ∀ scope, Alike (statement scope s.hoist) (statement scope s))
    (scope : Scope Literal) :
    Alike (block scope (Statement.hoistBlock body) fun inner =>
        statements inner (Statement.hoistBlock body))
      (block scope body fun inner => statements inner body) := by
  -- The scope behind the assignments is the same, and so are the members that are visited in it.
  have herror : (block scope (Statement.hoistBlock body) fun inner =>
        statements inner (Statement.hoistBlock body)).error =
      (block scope body fun inner => statements inner body).error := by
    have hfirst : ∀ inner,
        (Statement.others body).findSome? (fun s => (statement inner s.hoist).error) =
          (Statement.others body).findSome? fun s => (statement inner s).error := by
      intro inner
      have hvisits : (Statement.others body).map (fun s => (statement inner s.hoist).error) =
          (Statement.others body).map fun s => (statement inner s).error := by
        apply List.map_congr_left
        intro s hs
        exact (h s (List.mem_filter.1 hs).1 inner).error
      simpa only [List.findSome?_map, Function.id_comp] using congrArg (List.findSome? id) hvisits
    rw [error_wholeBlock, error_wholeBlock, Statement.assignments_hoistBlock,
      Statement.others_hoistBlock, List.findSome?_map]
    exact congrArg _ (hfirst _)
  refine ⟨herror, fun hnone => ?_⟩
  -- In a block that is folded each member is, so that the trees of the members agree.
  have hmembers := (error_wholeBlock scope body).symm.trans hnone
  rw [Option.or_eq_none_iff, List.findSome?_eq_none_iff] at hmembers
  rw [tree_wholeBlock hnone, tree_wholeBlock (herror.trans hnone),
    Statement.assignments_hoistBlock, Statement.others_hoistBlock, List.map_map]
  apply List.map_congr_left
  intro s hs
  exact (h s (List.mem_filter.1 hs).1 _).tree (hmembers.2 s hs)

theorem Alike.ifThen {body' : List Statement}
    (h : Alike (block scope body' fun inner => statements inner body')
      (block scope body fun inner => statements inner body)) (id : NodeId) (condition : Expr)
    (span : Span) :
    Alike (statement scope (.ifThen id condition body' span))
      (statement scope (.ifThen id condition body span)) := by
  simp only [statement]
  cases condition.fold scope with
  | error e => exact ⟨rfl, by simp⟩
  | ok value => exact ⟨h.error, fun hnone => by simp only [h.tree hnone]⟩

theorem Alike.ifElse {body' alternative alternative' : List Statement}
    (h : Alike (block scope body' fun inner => statements inner body')
      (block scope body fun inner => statements inner body))
    (hother : Alike (block scope alternative' fun inner => statements inner alternative')
      (block scope alternative fun inner => statements inner alternative)) (id : NodeId)
    (condition : Expr) (elseSpan span : Span) :
    Alike (statement scope (.ifElse id condition body' alternative' elseSpan span))
      (statement scope (.ifElse id condition body alternative elseSpan span)) := by
  simp only [statement, scope_block, h.error]
  cases condition.fold scope with
  | error e => exact ⟨rfl, by simp⟩
  | ok value =>
    -- The other branch is visited only if the first one is folded.
    cases hbody : (block scope body fun inner => statements inner body).error with
    | some e => exact ⟨rfl, by simp⟩
    | none => exact ⟨hother.error, fun hnone => by simp only [h.tree hbody, hother.tree hnone]⟩

mutual

theorem alike_hoist :
    ∀ s scope, Alike (statement scope (Statement.hoist s)) (statement scope s)
  | .assign _, _ => ⟨rfl, fun _ => rfl⟩
  | .declare .., _ => ⟨rfl, fun _ => rfl⟩
  | .ifThen id condition body span, scope =>
    (alike_hoistBlock (alike_hoistAll body) scope).ifThen id condition span
  | .ifElse id condition body alternative elseSpan span, scope =>
    (alike_hoistBlock (alike_hoistAll body) scope).ifElse
      (alike_hoistBlock (alike_hoistAll alternative) scope) id condition elseSpan span

theorem alike_hoistAll :
    ∀ body : List Statement, ∀ s ∈ body, ∀ scope,
      Alike (statement scope (Statement.hoist s)) (statement scope s)
  | [], _, hs, _ => by simp at hs
  | first :: rest, s, hs, scope => by
    rcases List.mem_cons.1 hs with hfirst | hrest
    · rw [hfirst]
      exact alike_hoist first scope
    · exact alike_hoistAll rest s hrest scope

end

theorem alike_hoistRule (scope : Scope Literal) (r : Rule) :
    Alike (rule scope r.hoist) (rule scope r) :=
  alike_hoistBlock (alike_hoistAll r.body) scope

end Folded

namespace Sheet

theorem error_fold_hoist (sheet : Sheet) : sheet.hoist.fold.error = sheet.fold.error := by
  rw [error_fold, error_fold, hoist, assignments_ofParts, rules_ofParts, List.findSome?_map]
  congr 2
  funext r
  exact (Folded.alike_hoistRule _ r).error

theorem sheet_fold_hoist {sheet : Sheet} (h : sheet.fold.error = none) :
    sheet.hoist.fold.sheet = sheet.fold.sheet := by
  have hrules := (error_fold sheet).symm.trans h
  rw [Option.or_eq_none_iff, List.findSome?_eq_none_iff] at hrules
  rw [sheet_fold h, sheet_fold ((error_fold_hoist sheet).trans h), hoist, assignments_ofParts,
    rules_ofParts, List.map_map]
  congr 1
  apply List.map_congr_left
  intro r hr
  have htree := (Folded.alike_hoistRule _ r).tree (hrules.2 r hr)
  rw [Function.comp_apply, htree]
  rfl

/-- The position of assignments does not matter except among assignments. Two sheets that become
equal when the assignments are moved in front of the other members, in the sheets and in every block
of theirs, have the same diagnostics in the same order; folding fails for the same reason in both or
in neither, and if it succeeds it makes the same sheet of both. -/
theorem hoist_determines (sheet sheet' : Sheet) (h : sheet.hoist = sheet'.hoist) :
    sheet.analyze = sheet'.analyze ∧ sheet.fold.error = sheet'.fold.error ∧
      (sheet.fold.error = none → sheet.fold.sheet = sheet'.fold.sheet) := by
  have herror : sheet.fold.error = sheet'.fold.error := by
    rw [← error_fold_hoist sheet, h, error_fold_hoist sheet']
  refine ⟨?_, herror, fun hnone => ?_⟩
  · rw [← analyze_hoist sheet, h, analyze_hoist sheet']
  · rw [← sheet_fold_hoist hnone, h, sheet_fold_hoist (herror.symm.trans hnone)]

/-- A sheet with a variable `Y`, and a rule that binds `X` twice and once more in a conditional. How
the assignments stand among the other members of a block is left to `mix`. -/
def mixed (mix : ∀ {α : Type}, List α → List α → List α) : Sheet :=
  let number (n : Nat) (value : Literal) : Expr := .literal ⟨n⟩ .zero value
  let name (n : Nat) (text : String) : Expr := .reference ⟨n⟩ .zero text
  let assign (text : String) (value : Expr) : Assignment := ⟨⟨text, .zero⟩, value, .zero⟩
  let width (value : Expr) : Statement := .declare ⟨"width", .zero⟩ value .zero
  let grown : Expr := .operation ⟨7⟩ .zero .add (name 5 "X") (number 6 (.pixel 1))
  let doubled : Expr := .operation ⟨10⟩ .zero .multiply (number 8 (.scalar 2)) (name 9 "X")
  let inner : List Statement := mix [.assign (assign "X" grown)] [width (name 4 "X")]
  let body : List Statement :=
    mix [.assign (assign "X" (name 1 "Y")), .assign (assign "X" doubled)]
      [width (name 0 "X"), .ifThen ⟨2⟩ (number 3 (.bool true)) inner .zero]
  ⟨mix [.assign (assign "Y" (number 11 (.pixel 3)))] [.rule ⟨.tag "a", body, .zero⟩]⟩

/-- The sheet with its assignments last everywhere. -/
def trailing : Sheet :=
  mixed fun assignments others => others ++ assignments

/-- The sheet with its assignments first everywhere. -/
def leading : Sheet :=
  mixed fun assignments others => assignments ++ others

/-- With its assignments last, the sheet uses every variable in front of its assignment. It is
folded all the same, and the operation on a variable that was assigned another one is reported. -/
theorem hoist_determines_trailing :
    trailing.hoist = leading.hoist ∧
      trailing.analyze = [.ofNode ⟨10⟩ .zero .badOperands] ∧ trailing.fold.error = none ∧
      trailing.fold.sheet = leading.fold.sheet ∧
      leading.fold.sheet.css = "a \x7b\n\twidth: 6px;\n\t\twidth: 7px;\n\x7d\n" := by
  have hhoist : trailing.hoist = leading.hoist := by rfl
  obtain ⟨hanalyze, herror, hsheet⟩ := hoist_determines trailing leading hhoist
  have hnone : trailing.fold.error = none := herror.trans (by decide)
  exact ⟨hhoist, hanalyze.trans (by decide), hnone, hsheet hnone, by decide⟩

end Sheet

end TypedStyle
