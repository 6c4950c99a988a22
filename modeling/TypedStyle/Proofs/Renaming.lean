import Mathlib.Data.Set.Function
import TypedStyle.Proofs.Denotation
import TypedStyle.Proofs.Independence

/-!
# The names of variables

Variables are told apart by their names, and nothing else is done with a name but to show it. So a
sheet can have its variables renamed, as long as different variables keep different names. The same
sheet is folded from it, or folding fails for the same reason, and the same is wrong with it.

Both walks over the tree look names up in a scope. `Scope.Renames` compares the scopes of the two
sheets at the same point of the walk: a name means in the one what its new name means in the other.
-/

namespace TypedStyle

/-! ## Variables of a tree -/

namespace Expr

/-- The names of the variables of an expression. -/
def names : Expr → List String
  | literal .. => []
  | reference _ _ name => [name]
  | operation _ _ _ lhs rhs => lhs.names ++ rhs.names

def rename (f : String → String) : Expr → Expr
  | literal id span value => literal id span value
  | reference id span name => reference id span (f name)
  | operation id span op lhs rhs => operation id span op (lhs.rename f) (rhs.rename f)

end Expr

namespace Assignment

/-- The names of the variables of an assignment: the one it binds and those in its value. -/
def names (a : Assignment) : List String :=
  a.name.name :: a.value.names

def rename (f : String → String) (a : Assignment) : Assignment :=
  { a with name := { a.name with name := f a.name.name }, value := a.value.rename f }

end Assignment

namespace Statement

mutual

/-- The names of the variables of a statement, those of nested blocks included. -/
def names : Statement → List String
  | declare _ value _ => value.names
  | assign a => a.names
  | ifThen _ condition body _ => condition.names ++ namesAll body
  | ifElse _ condition body alternative _ _ =>
    condition.names ++ (namesAll body ++ namesAll alternative)

def namesAll : List Statement → List String
  | [] => []
  | s :: rest => s.names ++ namesAll rest

end

mutual

/-- A statement with other variables. Properties are no variables. -/
def rename (f : String → String) : Statement → Statement
  | declare property value span => declare property (value.rename f) span
  | assign a => assign (a.rename f)
  | ifThen id condition body span => ifThen id (condition.rename f) (renameAll f body) span
  | ifElse id condition body alternative elseSpan span =>
    ifElse id (condition.rename f) (renameAll f body) (renameAll f alternative) elseSpan span

def renameAll (f : String → String) : List Statement → List Statement
  | [] => []
  | s :: rest => s.rename f :: renameAll f rest

end

end Statement

namespace Item

/-- The names of the variables of a member of a sheet. -/
def names : Item → List String
  | assign a => a.names
  | rule r => Statement.namesAll r.body

/-- A member of a sheet with other variables. -/
def rename (f : String → String) : Item → Item
  | assign a => assign (a.rename f)
  | rule r => rule { r with body := Statement.renameAll f r.body }

end Item

namespace Sheet

/-- The names of the variables of a sheet. -/
def names (sheet : Sheet) : List String :=
  sheet.items.flatMap Item.names

def rename (f : String → String) (sheet : Sheet) : Sheet :=
  ⟨sheet.items.map (Item.rename f)⟩

end Sheet

def FoldError.rename (f : String → String) : FoldError → FoldError
  | unresolved name span => unresolved (f name) span
  | error => error

def Problem.rename (f : String → String) : Problem → Problem
  | unboundVariable name => unboundVariable (f name)
  | problem => problem

/-- A diagnostic with the variable that it names renamed. -/
def Diagnostic.rename (f : String → String) (d : Diagnostic) : Diagnostic :=
  { d with problem := d.problem.rename f }

/-- A sheet after a step that may have failed, with other variables. -/
def Attempt.rename (f : String → String) (x : Attempt) : Attempt :=
  { sheet := x.sheet.rename f, error := x.error.map (FoldError.rename f) }

/-! ## Scopes side by side -/

/-- The known names mean in `s` what their new names mean in `s'`. -/
def Scope.Renames {α : Type} (f : String → String) (known : List String) (s s' : Scope α) : Prop :=
  ∀ name ∈ known, s'.resolve (f name) = s.resolve name

namespace Scope.Renames

variable {α : Type} {f : String → String} {known : List String} {s s' : Scope α}

theorem empty : Renames f known (.empty : Scope α) .empty := fun _ _ => rfl

theorem push (h : Renames f known s s') : Renames f known s.push s'.push := h

theorem declare (h : Renames f known s s') (hf : Set.InjOn f {x | x ∈ known}) {name : String}
    (hname : name ∈ known) (value : α) :
    Renames f known (s.declare name value) (s'.declare (f name) value) := by
  intro other hother
  rw [resolve_declare, resolve_declare, h other hother]
  simp only [hf.eq_iff hother hname]

end Scope.Renames

/-! ## Members of renamed trees -/

namespace Statement

theorem namesAll_eq_flatMap (body : List Statement) : namesAll body = body.flatMap names := by
  induction body with
  | nil => rfl
  | cons s rest ih => rw [namesAll, ih, List.flatMap_cons]

theorem renameAll_eq_map (f : String → String) (body : List Statement) :
    renameAll f body = body.map (rename f) := by
  induction body with
  | nil => rfl
  | cons s rest ih => rw [renameAll, ih, List.map_cons]

theorem assignment?_rename (f : String → String) (s : Statement) :
    (s.rename f).assignment? = s.assignment?.map (Assignment.rename f) := by
  cases s <;> rfl

theorem assignments_renameAll (f : String → String) (body : List Statement) :
    assignments (renameAll f body) = (assignments body).map (Assignment.rename f) := by
  rw [renameAll_eq_map, assignments, List.filterMap_map, assignments, List.map_filterMap]
  exact List.filterMap_congr fun s _ => assignment?_rename f s

theorem names_assignments_subset {body : List Statement} {a : Assignment}
    (ha : a ∈ assignments body) : a.names ⊆ namesAll body := by
  rw [namesAll_eq_flatMap]
  exact fun name hname => List.mem_flatMap.2 ⟨_, mem_of_mem_assignments ha, hname⟩

end Statement

namespace Sheet

theorem assignments_rename (f : String → String) (sheet : Sheet) :
    (sheet.rename f).assignments = sheet.assignments.map (Assignment.rename f) := by
  rw [rename, assignments, List.filterMap_map, assignments, List.map_filterMap]
  refine List.filterMap_congr fun i _ => ?_
  cases i <;> rfl

theorem rules_rename (f : String → String) (sheet : Sheet) :
    (sheet.rename f).rules =
      sheet.rules.map fun r => { r with body := Statement.renameAll f r.body } := by
  rw [rename, rules, List.filterMap_map, rules, List.map_filterMap]
  refine List.filterMap_congr fun i _ => ?_
  cases i <;> rfl

theorem names_subset {sheet : Sheet} {i : Item} (hi : i ∈ sheet.items) : i.names ⊆ sheet.names :=
  fun _ hname => List.mem_flatMap.2 ⟨i, hi, hname⟩

end Sheet

@[simp]
theorem Expr.id_rename (f : String → String) (e : Expr) : (e.rename f).id = e.id := by
  cases e <;> rfl

@[simp]
theorem Expr.span_rename (f : String → String) (e : Expr) : (e.rename f).span = e.span := by
  cases e <;> rfl

section Walks

variable {f : String → String} {known : List String} {e : Expr} {s : Scope Literal}

/-! ## Checking -/

theorem Expr.check_rename {s s' : Scope Ty} (h : s.Renames f known s') (he : e.names ⊆ known) :
    (e.rename f).check s' = ((e.check s).1, (e.check s).2.map (Diagnostic.rename f)) := by
  induction e with
  | literal id span value => rfl
  | reference id span name =>
    simp only [rename, check, h name (he List.mem_cons_self)]
    cases s.resolve name with
    | some ty => rfl
    | none => rfl
  | operation id span op lhs rhs ihl ihr =>
    obtain ⟨hlhs, hrhs⟩ := List.append_subset.1 he
    simp only [rename, check, ihl hlhs, ihr hrhs]
    -- The operands have the types that they had, so the operation is judged alike.
    split
    · simp
    · cases op.result? (lhs.check s).1 (rhs.check s).1 with
      | some ty => simp
      | none => simp [Diagnostic.rename, Problem.rename, Diagnostic.ofNode]

namespace Checked

variable {s s' : Scope Ty}

/-- Both checks found the same and left scopes in which names mean the same. -/
structure Renames (f : String → String) (known : List String) (c c' : Checked) : Prop where
  scope : c.scope.Renames f known c'.scope
  diagnostics : c'.diagnostics = c.diagnostics.map (Diagnostic.rename f)

theorem assignment_rename (hf : Set.InjOn f {x | x ∈ known}) (h : s.Renames f known s')
    {a : Assignment} (ha : a.names ⊆ known) :
    (assignment s a).Renames f known (assignment s' (a.rename f)) := by
  obtain ⟨hname, hvalue⟩ := List.cons_subset.1 ha
  obtain ⟨name, value, span⟩ := a
  have hcheck := Expr.check_rename h hvalue
  refine ⟨?_, by simp [assignment, Assignment.rename, hcheck]⟩
  simp only [assignment, Assignment.rename, hcheck]
  cases value <;> exact h.declare hf hname _

theorem assignments_rename (hf : Set.InjOn f {x | x ∈ known}) (h : s.Renames f known s')
    {as : List Assignment} (has : ∀ a ∈ as, a.names ⊆ known) :
    (assignments s as).Renames f known (assignments s' (as.map (Assignment.rename f))) := by
  induction as generalizing s s' with
  | nil => exact ⟨h, rfl⟩
  | cons a rest ih =>
    obtain ⟨ha, hrest⟩ := List.forall_mem_cons.1 has
    have hfirst := assignment_rename hf h ha
    have hmore := ih hfirst.scope hrest
    refine ⟨hmore.scope, ?_⟩
    simp only [List.map_cons, assignments, hfirst.diagnostics, hmore.diagnostics, List.map_append]

theorem declaration_rename (h : s.Renames f known s') (property : Ident) {value : Expr}
    (hvalue : value.names ⊆ known) :
    declaration s' property (value.rename f) =
      (declaration s property value).map (Diagnostic.rename f) := by
  simp only [declaration, Expr.check_rename h hvalue, Expr.id_rename, Expr.span_rename]
  split
  · rfl
  · split
    · split
      · rfl
      · simp [Diagnostic.rename, Problem.rename, Diagnostic.ofNode]
    · rfl

theorem condition_rename (h : s.Renames f known s') (node : NodeId) {value : Expr}
    (hvalue : value.names ⊆ known) :
    condition s' node (value.rename f) =
      (condition s node value).map (Diagnostic.rename f) := by
  simp only [condition, Expr.check_rename h hvalue, Expr.span_rename]
  split
  · rfl
  · simp [Diagnostic.rename, Problem.rename, Diagnostic.ofNode]

theorem block_rename (hf : Set.InjOn f {x | x ∈ known}) (h : s.Renames f known s')
    {body : List Statement} (hbody : Statement.namesAll body ⊆ known)
    {rest rest' : Scope Ty → Checked}
    (hrest : ∀ {inner inner'}, inner.Renames f known inner' →
      (rest' inner').diagnostics = (rest inner).diagnostics.map (Diagnostic.rename f)) :
    (block s' (Statement.renameAll f body) rest').diagnostics =
      (block s body rest).diagnostics.map (Diagnostic.rename f) := by
  have hbound := assignments_rename hf h.push fun a ha =>
    List.Subset.trans (Statement.names_assignments_subset ha) hbody
  simp only [block, Statement.assignments_renameAll, hbound.diagnostics, hrest hbound.scope,
    List.map_append]

mutual

theorem statement_rename (hf : Set.InjOn f {x | x ∈ known}) {s s' : Scope Ty}
    (h : s.Renames f known s') : ∀ x : Statement, x.names ⊆ known →
      (statement s' (x.rename f)).diagnostics =
        (statement s x).diagnostics.map (Diagnostic.rename f)
  | .assign a, _ => rfl
  | .declare property value span, hx => declaration_rename h property hx
  | .ifThen node value body span, hx => by
    obtain ⟨hvalue, hbody⟩ := List.append_subset.1 hx
    have htaken := block_rename hf h hbody fun hinner => statements_rename hf hinner body hbody
    simp only [Statement.rename, statement, condition_rename h node hvalue, htaken,
      List.map_append]
  | .ifElse node value body alternative elseSpan span, hx => by
    obtain ⟨hvalue, hblocks⟩ := List.append_subset.1 hx
    obtain ⟨hbody, halternative⟩ := List.append_subset.1 hblocks
    have htaken := block_rename hf h hbody fun hinner => statements_rename hf hinner body hbody
    have hother := block_rename hf h halternative fun hinner =>
      statements_rename hf hinner alternative halternative
    -- The first branch leaves both scopes as they were.
    simp only [Statement.rename, statement, scope_block, condition_rename h node hvalue, htaken,
      hother, List.map_append]

theorem statements_rename (hf : Set.InjOn f {x | x ∈ known}) {s s' : Scope Ty}
    (h : s.Renames f known s') : ∀ body : List Statement, Statement.namesAll body ⊆ known →
      (statements s' (Statement.renameAll f body)).diagnostics =
        (statements s body).diagnostics.map (Diagnostic.rename f)
  | [], _ => rfl
  | x :: rest, hbody => by
    obtain ⟨hx, hrest⟩ := List.append_subset.1 hbody
    simp only [Statement.renameAll, statements, scope_statement, statement_rename hf h x hx,
      statements_rename hf h rest hrest, List.map_append]

end

end Checked

/-- Checking a renamed sheet finds the same, with new names. -/
theorem Sheet.analyze_rename {sheet : Sheet} (hf : Set.InjOn f {x | x ∈ sheet.names}) :
    (sheet.rename f).analyze = sheet.analyze.map (Diagnostic.rename f) := by
  have hbound := Checked.assignments_rename hf (s := .empty) .empty fun a ha =>
    names_subset (mem_items_of_mem_assignments ha)
  have hrule : ∀ r ∈ sheet.rules, _ := fun r hr =>
    Checked.block_rename hf hbound.scope (names_subset (mem_items_of_mem_rules hr)) fun hinner =>
      Checked.statements_rename hf hinner r.body (names_subset (mem_items_of_mem_rules hr))
  have hviolations : (sheet.rename f).violations = sheet.violations.map (Diagnostic.rename f) := by
    rw [violations_eq, violations_eq, assignments_rename, rules_rename, hbound.diagnostics,
      List.map_append, List.flatMap_map, List.map_flatMap]
    exact congrArg _ (List.flatMap_congr hrule)
  rw [analyze, hviolations, Diagnostic.oncePerNode_map (.rename f) fun _ => rfl, analyze]

/-! ## Folding -/

theorem Operator.mapError_apply (op : Operator) (node : NodeId) (span : Span) (a b : Literal) :
    (op.apply node span a b).mapError (FoldError.rename f) = op.apply node span a b := by
  unfold apply
  split
  · split
    · rfl
    · rfl
  · rfl

theorem Expr.eval_rename {s' : Scope Literal} (h : s.Renames f known s') (he : e.names ⊆ known) :
    (e.rename f).eval s' = (e.eval s).mapError (FoldError.rename f) := by
  induction e with
  | literal id span value => rfl
  | reference id span name =>
    simp only [rename, eval, h name (he List.mem_cons_self)]
    cases s.resolve name with
    | some value => rfl
    | none => rfl
  | operation id span op lhs rhs ihl ihr =>
    obtain ⟨hlhs, hrhs⟩ := List.append_subset.1 he
    simp only [rename, eval, ihl hlhs, ihr hrhs]
    cases lhs.eval s with
    | error e => rfl
    | ok a =>
      cases rhs.eval s with
      | error e => rfl
      | ok b => exact (op.mapError_apply id span a b).symm

theorem Expr.fold_rename {s' : Scope Literal} (h : s.Renames f known s') (he : e.names ⊆ known) :
    (e.rename f).fold s' = (e.fold s).mapError (FoldError.rename f) := by
  simp only [fold, eval_rename h he, id_rename, span_rename]
  cases e.eval s with
  | ok value => rfl
  | error x => rfl

theorem Expr.rename_of_fold {folded : Expr} (h : e.fold s = .ok folded) :
    folded.rename f = folded := by
  unfold fold at h
  split at h
  · obtain rfl := Except.ok.inj h
    rfl
  · cases h

namespace Folded

variable {s s' : Scope Literal}

/-- Both foldings stopped for the same reason, if they did, and left trees that differ by `g`. -/
structure Renames {α : Type} (f : String → String) (g : α → α) (x x' : Folded α) : Prop where
  tree : x'.tree = g x.tree
  error : x'.error = x.error.map (FoldError.rename f)

theorem assignments_rename (hf : Set.InjOn f {x | x ∈ known}) (h : s.Renames f known s')
    {as : List Assignment} (has : ∀ a ∈ as, a.names ⊆ known) :
    (assignments s as).1.Renames f known (assignments s' (as.map (Assignment.rename f))).1 ∧
      (assignments s' (as.map (Assignment.rename f))).2 =
        (assignments s as).2.map (FoldError.rename f) := by
  induction as generalizing s s' with
  | nil => exact ⟨h, rfl⟩
  | cons a rest ih =>
    obtain ⟨ha, hrest⟩ := List.forall_mem_cons.1 has
    obtain ⟨hname, hvalue⟩ := List.cons_subset.1 ha
    simp only [List.map_cons, assignments, Assignment.rename, Expr.eval_rename h hvalue]
    cases a.value.eval s with
    | ok value => exact ih (h.declare hf hname value) hrest
    | error e => exact ⟨h, rfl⟩

theorem filter_renameAll (body : List Statement) :
    (Statement.renameAll f body).filter (fun s => !s.isAssignment) =
      Statement.renameAll f (body.filter fun s => !s.isAssignment) := by
  rw [Statement.renameAll_eq_map, Statement.renameAll_eq_map, List.filter_map]
  refine congrArg _ (List.filter_congr fun s _ => ?_)
  cases s <;> rfl

theorem block_rename (hf : Set.InjOn f {x | x ∈ known}) (h : s.Renames f known s')
    {body : List Statement} (hbody : Statement.namesAll body ⊆ known)
    {rest rest' : Scope Literal → Folded (List Statement)}
    (hrest : ∀ {inner inner'}, inner.Renames f known inner' →
      (rest inner).Renames f (Statement.renameAll f) (rest' inner')) :
    (block s body rest).Renames f (Statement.renameAll f)
      (block s' (Statement.renameAll f body) rest') := by
  obtain ⟨hscope, herror⟩ := assignments_rename hf h.push fun a ha =>
    List.Subset.trans (Statement.names_assignments_subset ha) hbody
  rw [← Statement.assignments_renameAll] at hscope herror
  simp only [block]
  cases hbound : assignments s.push (Statement.assignments body) with
  | mk inner failed =>
    cases hbound' : assignments s'.push (Statement.assignments (Statement.renameAll f body)) with
    | mk inner' failed' =>
      rw [hbound, hbound'] at hscope herror
      obtain rfl : failed' = failed.map (FoldError.rename f) := herror
      -- Either both blocks stop at the same assignment, or both are folded under the same values.
      cases failed with
      | some e => exact ⟨rfl, rfl⟩
      | none =>
        obtain ⟨htree, herror⟩ := hrest hscope
        simp only [Option.map_none, herror]
        cases (rest inner).error with
        | some e => exact ⟨htree, rfl⟩
        | none => exact ⟨by simp only [Option.map_none, htree, filter_renameAll], rfl⟩

mutual

theorem statement_rename (hf : Set.InjOn f {x | x ∈ known}) {s s' : Scope Literal}
    (h : s.Renames f known s') : ∀ x : Statement, x.names ⊆ known →
      (statement s x).Renames f (Statement.rename f) (statement s' (x.rename f))
  | .assign a, _ => ⟨rfl, rfl⟩
  | .declare property value span, hx => by
    simp only [Statement.rename, statement, Expr.fold_rename h hx]
    cases hfold : value.fold s with
    | error e => exact ⟨rfl, rfl⟩
    | ok folded =>
      refine ⟨?_, rfl⟩
      simp only [Except.mapError, Statement.rename, Expr.rename_of_fold hfold]
  | .ifThen node condition body span, hx => by
    obtain ⟨hcondition, hbody⟩ := List.append_subset.1 hx
    have htaken := block_rename hf h hbody fun hinner => statements_rename hf hinner body hbody
    simp only [Statement.rename, statement, Expr.fold_rename h hcondition]
    cases hfold : condition.fold s with
    | error e => exact ⟨rfl, rfl⟩
    | ok folded =>
      refine ⟨?_, htaken.error⟩
      simp only [Except.mapError, Statement.rename, Expr.rename_of_fold hfold, htaken.tree]
  | .ifElse node condition body alternative elseSpan span, hx => by
    obtain ⟨hcondition, hblocks⟩ := List.append_subset.1 hx
    obtain ⟨hbody, halternative⟩ := List.append_subset.1 hblocks
    have htaken := block_rename hf h hbody fun hinner => statements_rename hf hinner body hbody
    have hother := block_rename hf h halternative fun hinner =>
      statements_rename hf hinner alternative halternative
    simp only [Statement.rename, statement, scope_block, Expr.fold_rename h hcondition]
    cases hfold : condition.fold s with
    | error e => exact ⟨rfl, rfl⟩
    | ok folded =>
      -- The second branch is folded only if the first one is, and in the scopes from before it.
      simp only [Except.mapError, htaken.error]
      cases (block s body fun inner => statements inner body).error with
      | some e =>
        refine ⟨?_, rfl⟩
        simp only [Option.map_some, Statement.rename, Expr.rename_of_fold hfold, htaken.tree]
      | none =>
        refine ⟨?_, hother.error⟩
        simp only [Option.map_none, Statement.rename, Expr.rename_of_fold hfold, htaken.tree,
          hother.tree]

theorem statements_rename (hf : Set.InjOn f {x | x ∈ known}) {s s' : Scope Literal}
    (h : s.Renames f known s') : ∀ body : List Statement, Statement.namesAll body ⊆ known →
      (statements s body).Renames f (Statement.renameAll f)
        (statements s' (Statement.renameAll f body))
  | [], _ => ⟨rfl, rfl⟩
  | x :: rest, hbody => by
    obtain ⟨hx, hrest⟩ := List.append_subset.1 hbody
    have hfirst := statement_rename hf h x hx
    have hmore := statements_rename hf h rest hrest
    simp only [Statement.renameAll, statements, scope_statement, hfirst.error]
    cases (statement s x).error with
    | some e => exact ⟨congrArg (· :: _) hfirst.tree, rfl⟩
    | none =>
      refine ⟨?_, hmore.error⟩
      simp only [Option.map_none, Statement.renameAll, hfirst.tree, hmore.tree]

end

theorem items_rename (hf : Set.InjOn f {x | x ∈ known}) (h : s.Renames f known s')
    {is : List Item} (his : ∀ i ∈ is, i.names ⊆ known) :
    (items s is).Renames f (List.map (Item.rename f)) (items s' (is.map (Item.rename f))) := by
  induction is with
  | nil => exact ⟨rfl, rfl⟩
  | cons i rest ih =>
    obtain ⟨hi, hrest⟩ := List.forall_mem_cons.1 his
    have hmore := ih hrest
    cases i with
    | assign a => exact ⟨congrArg (_ :: ·) hmore.tree, hmore.error⟩
    | rule r =>
      have hfirst := block_rename hf h hi fun hinner => statements_rename hf hinner r.body hi
      simp only [List.map_cons, Item.rename, items, scope_block, hfirst.error]
      cases (block s r.body fun inner => statements inner r.body).error with
      | some e =>
        refine ⟨?_, rfl⟩
        simp only [Option.map_some, List.map_cons, Item.rename, hfirst.tree]
      | none =>
        refine ⟨?_, hmore.error⟩
        simp only [Option.map_none, List.map_cons, Item.rename, hfirst.tree, hmore.tree]

end Folded

/-- Folding a renamed sheet goes as far as folding the sheet, and leaves the same with new names. -/
theorem Sheet.fold_rename {sheet : Sheet} (hf : Set.InjOn f {x | x ∈ sheet.names}) :
    (sheet.rename f).fold = sheet.fold.rename f := by
  obtain ⟨hscope, herror⟩ := Folded.assignments_rename hf (s := .empty) .empty fun a ha =>
    names_subset (mem_items_of_mem_assignments ha)
  rw [← assignments_rename] at hscope herror
  simp only [fold]
  cases hbound : Folded.assignments .empty sheet.assignments with
  | mk scope failed =>
    cases hbound' : Folded.assignments .empty (sheet.rename f).assignments with
    | mk scope' failed' =>
      rw [hbound, hbound'] at hscope herror
      obtain rfl : failed' = failed.map (FoldError.rename f) := herror
      cases failed with
      | some e => rfl
      | none =>
        obtain ⟨htree, herror⟩ := Folded.items_rename hf hscope fun i hi => names_subset hi
        simp only [Option.map_none, rename, htree, herror]
        cases (Folded.items scope sheet.items).error with
        | some e => rfl
        | none =>
          -- Assignments are dropped in the end, and a member keeps being one or being a rule.
          have hrules : ((fun i => i.rule?.isSome) ∘ Item.rename f) = fun i => i.rule?.isSome := by
            funext i
            cases i <;> rfl
          simp only [Option.map_none, Attempt.rename, rename, List.filter_map, hrules]

end Walks

/-! ## Folded sheets have no variables -/

namespace Statement

mutual

theorem FoldsTo.rename_eq (f : String → String) {around : List (List Assignment)}
    {s t : Statement} : FoldsTo around s t → t.rename f = t
  | .declare _ _ _ => rfl
  | .ifThen _ _ _ hbody => by rw [rename, FoldAll.renameAll_eq f hbody, Expr.rename]
  | .ifElse _ _ _ _ hbody halternative => by
    rw [rename, FoldAll.renameAll_eq f hbody, FoldAll.renameAll_eq f halternative, Expr.rename]

theorem FoldAll.renameAll_eq (f : String → String) {around : List (List Assignment)}
    {body t : List Statement} : FoldAll around body t → renameAll f t = t
  | .nil => rfl
  | .assign _ hrest => FoldAll.renameAll_eq f hrest
  | .cons hfirst hrest => by
    rw [renameAll, FoldsTo.rename_eq f hfirst, FoldAll.renameAll_eq f hrest]

end

end Statement

theorem Item.FoldAll.map_rename (f : String → String) {top : List Assignment} {items t : List Item}
    (h : FoldAll top items t) : t.map (Item.rename f) = t := by
  induction h with
  | nil => rfl
  | assign a hrest ih => exact ih
  | rule hbody hrest ih => rw [List.map_cons, ih, Item.rename, hbody.renameAll_eq]

/-- The names of variables do not matter. If different variables of a sheet keep different names,
then folding it fails for the same reason or gives the very same sheet, and the same is wrong with
it; names are only shown, in the error about a variable that is not bound. -/
theorem Sheet.names_irrelevant (f : String → String) (sheet : Sheet)
    (hf : Set.InjOn f {x | x ∈ sheet.names}) :
    (sheet.rename f).fold.error = sheet.fold.error.map (FoldError.rename f) ∧
      (sheet.rename f).fold.sheet = sheet.fold.sheet.rename f ∧
      (sheet.fold.error = none → (sheet.rename f).fold = sheet.fold) ∧
      (sheet.rename f).analyze = sheet.analyze.map (Diagnostic.rename f) := by
  have hfold := fold_rename hf
  refine ⟨congrArg Attempt.error hfold, congrArg Attempt.sheet hfold, fun h => ?_,
    analyze_rename hf⟩
  have hsame : sheet.fold.sheet.rename f = sheet.fold.sheet :=
    congrArg Sheet.mk ((foldsTo_fold h).map_rename f)
  have herror : sheet.fold.error.map (FoldError.rename f) = sheet.fold.error := by rw [h]; rfl
  rw [hfold, Attempt.rename, hsame, herror]

/-- A sheet that binds `A` twice, uses it for `B`, and hides both in a rule. -/
def Sheet.rebound : Sheet :=
  let node (n : Nat) (value : Literal) : Expr := .literal ⟨n⟩ .zero value
  let name (n : Nat) (text : String) : Expr := .reference ⟨n⟩ .zero text
  let binding (text : String) (value : Expr) : Assignment := ⟨⟨text, .zero⟩, value, .zero⟩
  ⟨[.assign (binding "A" (node 0 (.pixel 1))),
    .assign (binding "B" (.operation ⟨3⟩ .zero .add (name 1 "A") (node 2 (.pixel 1)))),
    .assign (binding "A" (name 4 "B")),
    .rule ⟨.tag "a",
      [.assign (binding "B" (name 5 "A")),
        .assign (binding "A" (node 6 (.color "#00ff00"))),
        .declare ⟨"width", .zero⟩ (name 7 "B") .zero,
        .declare ⟨"color", .zero⟩ (name 8 "A") .zero], .zero⟩]⟩

/-- The same with a variable that is not bound. -/
def Sheet.dangling : Sheet :=
  ⟨rebound.items ++
    [.rule ⟨.tag "b", [.declare ⟨"width", .zero⟩ (.reference ⟨9⟩ .zero "C") .zero], .zero⟩]⟩

/-- Two variables may trade their names, and a third may get one that is not used. -/
def tradeNames (name : String) : String :=
  if name = "A" then "B" else if name = "B" then "A" else "D"

theorem Sheet.names_irrelevant_rebound :
    Set.InjOn tradeNames {x | x ∈ rebound.names} ∧
      Set.InjOn tradeNames {x | x ∈ dangling.names} ∧
      rebound.rename tradeNames ≠ rebound ∧
      rebound.fold.error = none ∧
      (rebound.rename tradeNames).fold = rebound.fold ∧
      dangling.fold.error = some (.unresolved "C" .zero) ∧
      (dangling.rename tradeNames).fold.error = some (.unresolved "D" .zero) ∧
      (dangling.rename tradeNames).analyze.map Diagnostic.problem =
        [.badProperty "width", .unboundVariable "D"] := by
  have hdangling : Set.InjOn tradeNames {x | x ∈ dangling.names} := by
    have hnames : ∀ x ∈ dangling.names, ∀ y ∈ dangling.names,
        tradeNames x = tradeNames y → x = y := by decide
    exact fun x hx y hy => hnames x hx y hy
  have hrebound : Set.InjOn tradeNames {x | x ∈ rebound.names} :=
    hdangling.mono fun x hx => (by decide : rebound.names ⊆ dangling.names) hx
  obtain ⟨-, -, hsame, -⟩ := names_irrelevant tradeNames rebound hrebound
  obtain ⟨herror, -, -, hanalyze⟩ := names_irrelevant tradeNames dangling hdangling
  have hfold : rebound.fold.error = none := by decide
  have hfails : dangling.fold.error = some (.unresolved "C" .zero) := by decide
  refine ⟨hrebound, hdangling, ?_, hfold, hsame hfold, hfails, ?_, ?_⟩
  · intro h
    exact absurd (congrArg Sheet.names h) (by decide)
  · rw [herror, hfails]
    decide
  · rw [hanalyze]
    decide

end TypedStyle
