import TypedStyle.Proofs.Embedding
import TypedStyle.Proofs.Recompile

/-!
# Layout does not matter

Blanks, comments and the ways to write a number change the spans of tokens and nothing else. Reading
carries spans along without looking at them, and so do checking, folding and selecting branches: a
change of all spans commutes with each of these steps. Writing leaves them out.
-/

namespace TypedStyle

section Respan

variable (f : Span → Span)

/-! ## Other spans -/

/-- Every node keeps its identity. -/
def NodeId.keep (node : NodeId) : NodeId :=
  node

@[simp]
theorem NodeId.keep_eq (node : NodeId) : node.keep = node := rfl

/-- A rule with other labels. -/
def Rule.relabel (ids : NodeId → NodeId) (spans : Span → Span) (r : Rule) : Rule :=
  { selector := r.selector, body := Statement.relabelAll ids spans r.body, span := spans r.span }

/-- A diagnostic at another place. -/
def Diagnostic.respan (d : Diagnostic) : Diagnostic :=
  { d with span := f d.span }

/-- An error at another place. -/
def FoldError.respan : FoldError → FoldError
  | operands op lhs rhs span => operands op lhs rhs (f span)
  | unresolved name span => unresolved name (f span)
  | overflow op node span => overflow op node (f span)
  | condition span => condition (f span)

/-- The reasons for having no text, at other places. -/
def CompileError.respan : CompileError → CompileError
  | diagnostics found => diagnostics (found.map (Diagnostic.respan f))
  | fold error => fold (error.respan f)

/-- What was read, at another place. -/
def Parsed.respan (p : Parsed) : Parsed :=
  { sheet := p.sheet.relabel .keep f, diagnostics := p.diagnostics.map (Diagnostic.respan f) }

/-- What was found in checking, at another place. -/
def Checked.respan (c : Checked) : Checked :=
  { c with diagnostics := c.diagnostics.map (Diagnostic.respan f) }

/-- What folding left, at another place. -/
def Folded.respan {α : Type} (g : α → α) (x : Folded α) : Folded α :=
  { x with tree := g x.tree, error := x.error.map (FoldError.respan f) }

/-- A sheet after a step, at another place. -/
def Attempt.respan (x : Attempt) : Attempt :=
  { sheet := x.sheet.relabel .keep f, error := x.error.map (FoldError.respan f) }

@[simp]
theorem Expr.id_relabel (e : Expr) : (e.relabel .keep f).id = e.id := by
  cases e <;> rfl

@[simp]
theorem Expr.span_relabel (e : Expr) : (e.relabel .keep f).span = f e.span := by
  cases e <;> rfl

@[simp]
theorem Expr.literal?_relabel (e : Expr) : (e.relabel .keep f).literal? = e.literal? := by
  cases e <;> rfl

theorem Statement.relabelAll_eq_map (body : List Statement) :
    relabelAll .keep f body = body.map (relabel .keep f) := by
  induction body with
  | nil => rfl
  | cons s rest ih => rw [relabelAll, ih, List.map_cons]

@[simp]
theorem Statement.assignment?_relabel (s : Statement) :
    (s.relabel .keep f).assignment? = s.assignment?.map (Assignment.relabel .keep f) := by
  cases s <;> rfl

@[simp]
theorem Statement.assignments_relabelAll (body : List Statement) :
    assignments (relabelAll .keep f body) = (assignments body).map (Assignment.relabel .keep f) := by
  rw [assignments, assignments, relabelAll_eq_map, List.filterMap_map, List.map_filterMap]
  exact List.filterMap_congr fun s _ => assignment?_relabel f s

theorem Sheet.assignments_relabel (sheet : Sheet) :
    (sheet.relabel .keep f).assignments = sheet.assignments.map (Assignment.relabel .keep f) := by
  rw [assignments, assignments, relabel, List.filterMap_map, List.map_filterMap]
  refine List.filterMap_congr fun i _ => ?_
  cases i <;> rfl

theorem Sheet.rules_relabel (sheet : Sheet) :
    (sheet.relabel .keep f).rules = sheet.rules.map (Rule.relabel .keep f) := by
  rw [rules, rules, relabel, List.filterMap_map, List.map_filterMap]
  refine List.filterMap_congr fun i _ => ?_
  cases i <;> rfl

/-! ## Checking -/

theorem Expr.check_relabel (scope : Scope Ty) (e : Expr) :
    (e.relabel .keep f).check scope =
      ((e.check scope).1, (e.check scope).2.map (Diagnostic.respan f)) := by
  induction e with
  | literal id span value => rfl
  | reference id span name =>
    simp only [relabel, check]
    cases scope.resolve name with
    | none => rfl
    | some ty => rfl
  | operation id span op lhs rhs ihl ihr =>
    simp only [relabel, check, ihl, ihr]
    split
    · simp
    · cases op.result? (lhs.check scope).1 (rhs.check scope).1 with
      | some ty => simp
      | none => simp [Diagnostic.respan, Diagnostic.ofNode]

namespace Checked

theorem assignment_relabel (scope : Scope Ty) (a : Assignment) :
    assignment scope (a.relabel .keep f) = (assignment scope a).respan f := by
  obtain ⟨name, value, span⟩ := a
  simp only [assignment, Assignment.relabel, Ident.relabel, Expr.check_relabel, respan]
  cases value <;> rfl

theorem assignments_map_relabel (scope : Scope Ty) (as : List Assignment) :
    assignments scope (as.map (Assignment.relabel .keep f)) = (assignments scope as).respan f := by
  induction as generalizing scope with
  | nil => rfl
  | cons a rest ih =>
    simp only [List.map_cons, assignments, assignment_relabel, ih]
    simp [respan]

theorem declaration_relabel (scope : Scope Ty) (property : Ident) (value : Expr) :
    declaration scope (property.relabel f) (value.relabel .keep f) =
      (declaration scope property value).map (Diagnostic.respan f) := by
  simp only [declaration, Expr.check_relabel, Ident.relabel]
  split
  · rfl
  · split
    · split
      · rfl
      · simp [Diagnostic.respan, Diagnostic.ofNode]
    · rfl

theorem condition_relabel (scope : Scope Ty) (node : NodeId) (value : Expr) :
    condition scope node (value.relabel .keep f) =
      (condition scope node value).map (Diagnostic.respan f) := by
  simp only [condition, Expr.check_relabel]
  split
  · rfl
  · simp [Diagnostic.respan, Diagnostic.ofNode]

theorem block_relabelAll (scope : Scope Ty) (body : List Statement)
    {rest rest' : Scope Ty → Checked} (h : ∀ inner, rest' inner = (rest inner).respan f) :
    block scope (Statement.relabelAll .keep f body) rest' = (block scope body rest).respan f := by
  simp only [block, Statement.assignments_relabelAll, assignments_map_relabel, h]
  simp [respan]

mutual

theorem statement_relabel (scope : Scope Ty) :
    ∀ s : Statement, statement scope (s.relabel .keep f) = (statement scope s).respan f
  | .assign a => rfl
  | .declare property value span => by
    simp only [Statement.relabel, statement, declaration_relabel]
    rfl
  | .ifThen node value body span => by
    have hbody := block_relabelAll f scope body fun inner => statements_relabelAll inner body
    simp only [Statement.relabel, statement, condition_relabel, hbody]
    simp [respan]
  | .ifElse node value body alternative elseSpan span => by
    have hbody := block_relabelAll f scope body fun inner => statements_relabelAll inner body
    have halternative (outer : Scope Ty) := block_relabelAll f outer alternative fun inner =>
      statements_relabelAll inner alternative
    simp only [Statement.relabel, statement, condition_relabel, hbody, halternative]
    simp [respan]

theorem statements_relabelAll (scope : Scope Ty) :
    ∀ body : List Statement,
      statements scope (Statement.relabelAll .keep f body) = (statements scope body).respan f
  | [] => rfl
  | s :: rest => by
    have hrest (outer : Scope Ty) := statements_relabelAll outer rest
    simp only [Statement.relabelAll, statements, statement_relabel scope s, hrest]
    simp [respan]

end

theorem rules_map_relabel (scope : Scope Ty) (rs : List Rule) :
    rules scope (rs.map (Rule.relabel .keep f)) = (rules scope rs).respan f := by
  induction rs generalizing scope with
  | nil => rfl
  | cons r rest ih =>
    have hfirst := block_relabelAll f scope r.body fun inner => statements_relabelAll f inner r.body
    simp only [List.map_cons, rules, Rule.relabel, hfirst, ih]
    simp [respan]

end Checked

theorem Sheet.analyze_relabel (sheet : Sheet) :
    (sheet.relabel .keep f).analyze = sheet.analyze.map (Diagnostic.respan f) := by
  have hviolations :
      (sheet.relabel .keep f).violations = sheet.violations.map (Diagnostic.respan f) := by
    simp only [violations, assignments_relabel, rules_relabel, Checked.assignments_map_relabel,
      Checked.rules_map_relabel]
    simp [Checked.respan]
  rw [analyze, hviolations, Diagnostic.oncePerNode_map (.respan f) fun _ => rfl, analyze]

/-! ## Folding -/

theorem Operator.apply_respan (op : Operator) (node : NodeId) (span : Span) (a b : Literal) :
    op.apply node (f span) a b = (op.apply node span a b).mapError (FoldError.respan f) := by
  unfold apply
  split
  · split
    · rfl
    · rfl
  · rfl

theorem Expr.eval_relabel (scope : Scope Literal) (e : Expr) :
    (e.relabel .keep f).eval scope = (e.eval scope).mapError (FoldError.respan f) := by
  induction e with
  | literal id span value => rfl
  | reference id span name =>
    simp only [relabel, eval]
    cases scope.resolve name with
    | none => rfl
    | some value => rfl
  | operation id span op lhs rhs ihl ihr =>
    simp only [relabel, eval, ihl, ihr]
    cases lhs.eval scope with
    | error e => rfl
    | ok a =>
      cases rhs.eval scope with
      | error e => rfl
      | ok b => exact op.apply_respan f id span a b

theorem Expr.fold_relabel (scope : Scope Literal) (e : Expr) :
    (e.relabel .keep f).fold scope =
      ((e.fold scope).map (relabel .keep f)).mapError (FoldError.respan f) := by
  simp only [fold, eval_relabel, id_relabel, span_relabel]
  cases e.eval scope with
  | ok value => rfl
  | error x => rfl

namespace Folded

theorem assignments_map_relabel (scope : Scope Literal) (as : List Assignment) :
    assignments scope (as.map (Assignment.relabel .keep f)) =
      ((assignments scope as).1, (assignments scope as).2.map (FoldError.respan f)) := by
  induction as generalizing scope with
  | nil => rfl
  | cons a rest ih =>
    simp only [List.map_cons, assignments, Assignment.relabel, Ident.relabel, Expr.eval_relabel]
    cases a.value.eval scope with
    | ok value => exact ih _
    | error e => rfl

theorem filter_relabelAll (body : List Statement) :
    (Statement.relabelAll .keep f body).filter (fun s => !s.isAssignment) =
      Statement.relabelAll .keep f (body.filter fun s => !s.isAssignment) := by
  simp only [Statement.relabelAll_eq_map, List.filter_map]
  congr 1
  refine List.filter_congr fun s _ => ?_
  simp [Statement.isAssignment]

theorem block_relabelAll (scope : Scope Literal) (body : List Statement)
    {rest rest' : Scope Literal → Folded (List Statement)}
    (h : ∀ inner, rest' inner = (rest inner).respan f (Statement.relabelAll .keep f)) :
    block scope (Statement.relabelAll .keep f body) rest' =
      (block scope body rest).respan f (Statement.relabelAll .keep f) := by
  simp only [block, Statement.assignments_relabelAll, assignments_map_relabel, h]
  cases assignments scope.push (Statement.assignments body) with
  | mk inner failed =>
    cases failed with
    | some e => rfl
    | none =>
      simp only [Option.map_none, respan]
      cases (rest inner).error with
      | some e => rfl
      | none => simp only [Option.map_none, filter_relabelAll]

mutual

theorem statement_relabel (scope : Scope Literal) :
    ∀ s : Statement,
      statement scope (s.relabel .keep f) = (statement scope s).respan f (.relabel .keep f)
  | .assign a => rfl
  | .declare property value span => by
    simp only [Statement.relabel, statement, Expr.fold_relabel]
    cases value.fold scope with
    | ok folded => rfl
    | error e => rfl
  | .ifThen node condition body span => by
    have hbody := block_relabelAll f scope body fun inner => statements_relabelAll inner body
    simp only [Statement.relabel, statement, Expr.fold_relabel, hbody]
    cases condition.fold scope with
    | ok folded => rfl
    | error e => rfl
  | .ifElse node condition body alternative elseSpan span => by
    have hbody := block_relabelAll f scope body fun inner => statements_relabelAll inner body
    have halternative (outer : Scope Literal) := block_relabelAll f outer alternative fun inner =>
      statements_relabelAll inner alternative
    simp only [Statement.relabel, statement, Expr.fold_relabel, hbody, halternative]
    cases condition.fold scope with
    | error e => rfl
    | ok folded =>
      simp only [Except.map, Except.mapError, respan]
      cases (block scope body fun inner => statements inner body).error with
      | some e => rfl
      | none => rfl

theorem statements_relabelAll (scope : Scope Literal) :
    ∀ body : List Statement, statements scope (Statement.relabelAll .keep f body) =
      (statements scope body).respan f (Statement.relabelAll .keep f)
  | [] => rfl
  | s :: rest => by
    have hrest (outer : Scope Literal) := statements_relabelAll outer rest
    simp only [Statement.relabelAll, statements, statement_relabel scope s, hrest, respan]
    cases (statement scope s).error with
    | some e => rfl
    | none => rfl

end

theorem items_map_relabel (scope : Scope Literal) (is : List Item) :
    items scope (is.map (Item.relabel .keep f)) =
      (items scope is).respan f (List.map (Item.relabel .keep f)) := by
  induction is generalizing scope with
  | nil => rfl
  | cons i rest ih =>
    cases i with
    | assign a =>
      simp only [List.map_cons, Item.relabel, items, ih]
      rfl
    | rule r =>
      have hbody := block_relabelAll f scope r.body fun inner =>
        statements_relabelAll f inner r.body
      simp only [List.map_cons, Item.relabel, items, hbody, ih, respan]
      cases (block scope r.body fun inner => statements inner r.body).error with
      | some e => rfl
      | none => rfl

end Folded

theorem Sheet.fold_relabel (sheet : Sheet) :
    (sheet.relabel .keep f).fold = sheet.fold.respan f := by
  simp only [fold, assignments_relabel, Folded.assignments_map_relabel]
  cases Folded.assignments .empty sheet.assignments with
  | mk scope failed =>
    cases failed with
    | some e => rfl
    | none =>
      simp only [Option.map_none, relabel, Folded.items_map_relabel, Folded.respan]
      cases (Folded.items scope sheet.items).error with
      | some e => rfl
      | none =>
        simp only [Option.map_none, Attempt.respan, relabel, List.filter_map]
        congr 2
        refine congrArg _ (List.filter_congr fun i _ => ?_)
        cases i <;> rfl

/-! ## Selecting branches -/

namespace Branch

theorem condition_relabel (value : Expr) :
    condition (value.relabel .keep f) = (condition value).mapError (FoldError.respan f) := by
  simp only [condition, Expr.literal?_relabel, Expr.span_relabel]
  split
  · rfl
  · rfl

mutual

theorem statement_relabel : ∀ s : Statement,
    statement (s.relabel .keep f) =
      ((statement s).map (Statement.relabelAll .keep f)).mapError (FoldError.respan f)
  | .assign a => rfl
  | .declare property value span => rfl
  | .ifThen node value body span => by
    simp only [Statement.relabel, statement, condition_relabel, statements_relabelAll body]
    cases condition value with
    | error e => rfl
    | ok b => cases b <;> rfl
  | .ifElse node value body alternative elseSpan span => by
    simp only [Statement.relabel, statement, condition_relabel, statements_relabelAll body,
      statements_relabelAll alternative]
    cases condition value with
    | error e => rfl
    | ok b => cases b <;> rfl

theorem statements_relabelAll : ∀ body : List Statement,
    statements (Statement.relabelAll .keep f body) =
      ((statements body).map (Statement.relabelAll .keep f)).mapError (FoldError.respan f)
  | [] => rfl
  | s :: rest => by
    simp only [Statement.relabelAll, statements, statement_relabel s, statements_relabelAll rest]
    cases statement s with
    | error e => rfl
    | ok first =>
      cases statements rest with
      | error e => rfl
      | ok more => simp [Except.map, Except.mapError, Statement.relabelAll_eq_map]

end

theorem items_map_relabel (is : List Item) :
    items (is.map (Item.relabel .keep f)) =
      ((items is).1.map (Item.relabel .keep f), (items is).2.map (FoldError.respan f)) := by
  induction is with
  | nil => rfl
  | cons i rest ih =>
    cases i with
    | assign a =>
      simp only [List.map_cons, Item.relabel, items, ih]
    | rule r =>
      simp only [List.map_cons, Item.relabel, items, statements_relabelAll, ih]
      cases statements r.body with
      | error e => rfl
      | ok body => rfl

end Branch

theorem Sheet.selectBranches_relabel (sheet : Sheet) :
    (sheet.relabel .keep f).selectBranches = sheet.selectBranches.respan f := by
  simp only [selectBranches, relabel, Branch.items_map_relabel]
  rfl

/-! ## Compilation -/

theorem CompileError.ofFold_respan (e : FoldError) :
    ofFold (e.respan f) = (ofFold e).respan f := by
  cases e <;> rfl

theorem Sheet.finish_relabel (options : Options) (sheet : Sheet) :
    ((sheet.relabel .keep f).finish options).error =
        (sheet.finish options).error.map (CompileError.respan f) ∧
      ((sheet.relabel .keep f).finish options).sheet =
        (sheet.finish options).sheet.relabel .keep f := by
  simp only [finish, fold_relabel, Attempt.respan]
  cases sheet.fold.error with
  | some e => exact ⟨congrArg some (CompileError.ofFold_respan f e), rfl⟩
  | none =>
    simp only [Option.map_none, selectBranches_relabel, Attempt.respan]
    split
    · refine ⟨?_, rfl⟩
      cases sheet.fold.sheet.selectBranches.error with
      | none => rfl
      | some e => rfl
    · exact ⟨rfl, rfl⟩

/-- What becomes of a source that has been read. -/
def Parsed.compiled (options : Options) (p : Parsed) : Except CompileError String :=
  if p.diagnostics.isEmpty then
    if p.sheet.analyze.isEmpty then
      match (p.sheet.finish options).error with
      | some e => .error e
      | none => .ok (p.sheet.finish options).sheet.css
    else .error (.diagnostics p.sheet.analyze)
  else .error (.diagnostics p.diagnostics)

theorem compile_eq_compiled (options : Options) (source : String) :
    compile options source = (Sheet.parse source).compiled options := by
  rw [compile_eq, Parsed.compiled]
  cases hdiagnostics : (Sheet.parse source).diagnostics.isEmpty with
  | true =>
    cases herror : (Sheet.finish options (Sheet.parse source).sheet).error with
    | none => simp [Sheet.checkSource, hdiagnostics, herror]
    | some e => simp [Sheet.checkSource, hdiagnostics, herror]
  | false => simp [Sheet.checkSource, hdiagnostics]

theorem Parsed.compiled_respan (options : Options) (p : Parsed) :
    (p.respan f).compiled options = (p.compiled options).mapError (CompileError.respan f) := by
  obtain ⟨herror, hsheet⟩ := p.sheet.finish_relabel f options
  simp only [compiled, respan, Sheet.analyze_relabel, List.isEmpty_map, herror, hsheet,
    Sheet.css_relabel]
  split
  · split
    · cases (p.sheet.finish options).error with
      | some e => rfl
      | none => rfl
    · rfl
  · rfl

end Respan

/-! ## Sources without spans -/

/-- A tree with its nodes but without its places. -/
def Sheet.unplaced (sheet : Sheet) : Sheet :=
  sheet.relabel .keep fun _ => .zero

/-- A diagnostic with its node but without its place. -/
def Diagnostic.unplaced (d : Diagnostic) : Diagnostic :=
  d.respan fun _ => .zero

/-- The reasons for having no text, without their places. -/
def CompileError.unplaced (e : CompileError) : CompileError :=
  e.respan fun _ => .zero

def Embedding.forget : Embedding where
  shift := 0
  spans := fun _ => .zero
  merge := fun _ _ => rfl
  before := []
  tail := []
  more := []

theorem Reader.sheet_forget {tokens : List Token} (hne : tokens ≠ []) :
    (start (tokens.map Embedding.forget.token) []).sheet.1 =
        (start tokens []).sheet.1.unplaced ∧
      (start (tokens.map Embedding.forget.token) []).sheet.2.diagnostics =
        (start tokens []).sheet.2.diagnostics.map Diagnostic.unplaced := by
  have hfaces : Faces .forget (start tokens []) (start (tokens.map Embedding.forget.token) []) :=
    ⟨⟨tokens, by simp [start, Embedding.forget], by simp [start, Embedding.forget]⟩, rfl, rfl⟩
  obtain ⟨hsheet, hdiagnostics⟩ := hfaces.sheet rfl ⟨rfl, rfl⟩ hne
  refine ⟨hsheet, hdiagnostics.trans ?_⟩
  refine List.map_congr_left fun d _ => ?_
  obtain ⟨problem, span, node⟩ := d
  cases node <;> rfl

theorem Token.map_forget {tokens tokens' : List Token}
    (h : tokens.map Token.kind = tokens'.map Token.kind) :
    tokens.map Embedding.forget.token = tokens'.map Embedding.forget.token := by
  have hkinds (ts : List Token) :
      ts.map Embedding.forget.token = (ts.map Token.kind).map fun kind => ⟨kind, .zero⟩ := by
    rw [List.map_map]
    rfl
  rw [hkinds, hkinds, h]

theorem Token.tokens_scan_ne_nil (text : List Char) : (scan text).tokens ≠ [] := by
  simp [scan]

theorem Sheet.parse_unplaced {source : String}
    (h : (Token.scan source.toList).diagnostics = []) :
    (parse source).respan (fun _ => .zero) =
      let read := (Reader.start
        ((Token.scan source.toList).tokens.map Embedding.forget.token) []).sheet
      { sheet := read.1, diagnostics := read.2.diagnostics } := by
  obtain ⟨hsheet, hdiagnostics⟩ := Reader.sheet_forget (Token.tokens_scan_ne_nil source.toList)
  dsimp only
  rw [hsheet, hdiagnostics]
  simp only [parse, h]
  rfl

/-- Layout does not matter. Two sources whose tokens have the same kinds, and in which nothing is
left that is no token, are read into the same tree, identities included, with the same problems, and
compiled to the same text or to diagnostics with the same messages and nodes, all up to spans. -/
theorem layout_independent (s s' : String) (hs : (Token.scan s.toList).diagnostics = [])
    (hs' : (Token.scan s'.toList).diagnostics = [])
    (hkinds : (Token.scan s.toList).tokens.map Token.kind =
      (Token.scan s'.toList).tokens.map Token.kind) :
    (Sheet.parse s).sheet.unplaced = (Sheet.parse s').sheet.unplaced ∧
    (Sheet.parse s).diagnostics.map Diagnostic.unplaced =
      (Sheet.parse s').diagnostics.map Diagnostic.unplaced ∧
    ∀ options, (compile options s).mapError CompileError.unplaced =
      (compile options s').mapError CompileError.unplaced := by
  have hparse : (Sheet.parse s).respan (fun _ => .zero) =
      (Sheet.parse s').respan fun _ => .zero := by
    rw [Sheet.parse_unplaced hs, Sheet.parse_unplaced hs', Token.map_forget hkinds]
  refine ⟨congrArg Parsed.sheet hparse, congrArg Parsed.diagnostics hparse, ?_⟩
  intro options
  have hcompiled := congrArg (Parsed.compiled options) hparse
  rw [Parsed.compiled_respan, Parsed.compiled_respan] at hcompiled
  rw [compile_eq_compiled, compile_eq_compiled]
  exact hcompiled

/-- A sum of lengths of different units, on one line. -/
def tightSum : String := "A:=7px;a\x7bwidth:A+1%;\x7d"

/-- The same with leading zeros, blanks and a comment. -/
def looseSum : String := "A := 007px; /* sum */\na \x7b\n  width: A + 01%;\n\x7d\n"

theorem layout_independent_sum :
    (Token.scan tightSum.toList).diagnostics = [] ∧ (Token.scan looseSum.toList).diagnostics = [] ∧
    (Token.scan tightSum.toList).tokens.map Token.kind =
      (Token.scan looseSum.toList).tokens.map Token.kind ∧
    (Sheet.parse tightSum).sheet.unplaced = (Sheet.parse looseSum).sheet.unplaced ∧
    (compile ⟨true⟩ tightSum).mapError CompileError.unplaced =
      (compile ⟨true⟩ looseSum).mapError CompileError.unplaced := by
  have htight : (Token.scan tightSum.toList).diagnostics = [] := by decide +kernel
  have hloose : (Token.scan looseSum.toList).diagnostics = [] := by decide +kernel
  have hkinds : (Token.scan tightSum.toList).tokens.map Token.kind =
      (Token.scan looseSum.toList).tokens.map Token.kind := by decide +kernel
  obtain ⟨hsheet, -, hcompile⟩ := layout_independent tightSum looseSum htight hloose hkinds
  exact ⟨htight, hloose, hkinds, hsheet, hcompile ⟨true⟩⟩

end TypedStyle
