import TypedStyle.Compile
import TypedStyle.Proofs.Scope

/-!
# Type soundness

What the checker accepts, folding can evaluate: only a number that does not fit can stop it, and
every condition it leaves is a boolean.

Checking keeps a scope of types and folding a scope of literals. `Covered types values` ties the
two together while both walk the same tree: whatever name has a type has a literal of that type.
A variable that was assigned another variable has the type `undefined`, which says nothing about
its literal; no operation, property or condition accepts that type.
-/

namespace TypedStyle

variable {ty left right : Ty} {value a b : Literal} {op : Operator} {types : Scope Ty}
  {values : Scope Literal}

/-! ## Types and literals -/

/-- A type says the truth about a literal: it is the literal's type, or it says nothing. -/
def Ty.Covers (ty : Ty) (value : Literal) : Prop :=
  ty = .undefined ∨ ty = .ofLiteral value

theorem Ty.ofLiteral_ne_unknown (value : Literal) : Ty.ofLiteral value ≠ .unknown := by
  cases value <;> simp [ofLiteral]

theorem Ty.Covers.ne_unknown (h : ty.Covers value) : ty ≠ .unknown := by
  rcases h with rfl | rfl
  · decide
  · exact ofLiteral_ne_unknown value

theorem Operator.result?_ne_unknown (h : op.result? left right = some ty) : ty ≠ .unknown := by
  rintro rfl
  cases op <;> cases left <;> cases right <;> simp [result?, Ty.isMeasurement] at h

theorem Operator.eq_ofLiteral_of_result? (hleft : left.Covers a) (hright : right.Covers b)
    (h : op.result? left right = some ty) :
    left = .ofLiteral a ∧ right = .ofLiteral b := by
  -- No operation has a result for the type that says nothing.
  refine ⟨hleft.resolve_left ?_, hright.resolve_left ?_⟩
  · rintro rfl
    cases op <;> cases right <;> simp [result?, Ty.isMeasurement] at h
  · rintro rfl
    cases op <;> cases left <;> simp [result?, Ty.isMeasurement] at h

theorem Operator.exactResult?_of_result? (h : op.result? (.ofLiteral a) (.ofLiteral b) = some ty) :
    ∃ unit n, op.exactResult? a b = some (unit, n) ∧ ty = .ofLiteral (unit.literal n) := by
  cases op <;> cases a <;> cases b <;> simp [result?, Ty.ofLiteral, Ty.isMeasurement] at h <;>
    exact ⟨_, _, rfl, h.symm⟩

/-! ## Expressions -/

def FoldError.IsOverflow (e : FoldError) : Prop :=
  ∃ op node span, e = .overflow op node span

/-- Evaluation ends well for a type: in a literal that the type covers, or because a result does
not fit. -/
def Lands (ty : Ty) : Except FoldError Literal → Prop
  | .ok value => ty.Covers value
  | .error e => e.IsOverflow

/-- Every name that has a type is bound to a literal that the type covers. -/
def Covered (types : Scope Ty) (values : Scope Literal) : Prop :=
  ∀ name ty, types.resolve name = some ty → ∃ value, values.resolve name = some value ∧
    ty.Covers value

theorem covered_empty : Covered .empty .empty := by
  intro name ty h
  simp at h

theorem Covered.push (h : Covered types values) : Covered types.push values.push :=
  h

theorem Covered.declare (h : Covered types values) (name : String) (hvalue : ty.Covers value) :
    Covered (types.declare name ty) (values.declare name value) := by
  intro other ty' hother
  rw [Scope.resolve_declare] at hother ⊢
  split at hother
  · next heq =>
    obtain rfl : ty = ty' := by simpa using hother
    exact ⟨value, by simp [heq], hvalue⟩
  · next hne =>
    simpa [hne] using h other ty' hother

theorem Operator.apply_lands (hleft : left.Covers a) (hright : right.Covers b)
    (h : op.result? left right = some ty) (node : NodeId) (span : Span) :
    Lands ty (op.apply node span a b) := by
  obtain ⟨rfl, rfl⟩ := eq_ofLiteral_of_result? hleft hright h
  obtain ⟨unit, n, hexact, rfl⟩ := exactResult?_of_result? h
  simp only [apply, hexact]
  split
  · exact .inr rfl
  · exact ⟨op, node, span, rfl⟩

/-- An expression without mistakes has a type, and evaluates to a literal of that type unless a
result does not fit. -/
theorem Expr.eval_lands (h : Covered types values) (e : Expr) (hclean : (e.check types).2 = []) :
    (e.check types).1 ≠ .unknown ∧ Lands (e.check types).1 (e.eval values) := by
  induction e with
  | literal id span value => exact ⟨Ty.ofLiteral_ne_unknown value, .inr rfl⟩
  | reference id span name =>
    cases hty : types.resolve name with
    | none => simp [check, hty] at hclean
    | some ty =>
      obtain ⟨value, hvalue, hcovers⟩ := h name ty hty
      simp only [check, hty, eval, hvalue]
      exact ⟨hcovers.ne_unknown, hcovers⟩
  | operation id span op lhs rhs ihl ihr =>
    -- A type that is not known would have left a diagnostic in one of the operands.
    have hparts : (lhs.check types).2 = [] ∧ (rhs.check types).2 = [] := by
      simp only [check] at hclean
      split at hclean
      · simpa using hclean
      · split at hclean <;> simp_all
    obtain ⟨hleft, hlhs⟩ := ihl hparts.1
    obtain ⟨hright, hrhs⟩ := ihr hparts.2
    have hknown : ((lhs.check types).1.isUnknown || (rhs.check types).1.isUnknown) = false := by
      simp [Ty.isUnknown, hleft, hright]
    cases hresult : op.result? (lhs.check types).1 (rhs.check types).1 with
    | none => simp [check, hknown, hresult] at hclean
    | some ty =>
      simp only [check, hknown, hresult, Bool.false_eq_true, ↓reduceIte, eval]
      refine ⟨Operator.result?_ne_unknown hresult, ?_⟩
      cases ha : lhs.eval values with
      | error e => simpa [ha, Lands] using hlhs
      | ok a =>
        cases hb : rhs.eval values with
        | error e => simpa [hb, Lands] using hrhs
        | ok b =>
          rw [ha] at hlhs
          rw [hb] at hrhs
          exact Operator.apply_lands hlhs hrhs hresult id span

/-! ## Assignments -/

theorem Checked.assignment_covers (h : Covered types values) (a : Assignment)
    (hvalue : (a.value.check types).1.Covers value) :
    Covered (Checked.assignment types a).scope (values.declare a.name.name value) := by
  -- A variable that is assigned another one gets the type that says nothing.
  refine h.declare _ ?_
  split
  · simp [Ty.isUnknown, hvalue.ne_unknown, Ty.Covers]
  · exact hvalue

/-- Assignments without mistakes are evaluated side by side with their types. -/
theorem Folded.assignments_covers (h : Covered types values) (as : List Assignment)
    (hclean : (Checked.assignments types as).diagnostics = []) :
    match assignments values as with
    | (after, none) => Covered (Checked.assignments types as).scope after
    | (_, some e) => e.IsOverflow := by
  induction as generalizing types values with
  | nil => exact h
  | cons a rest ih =>
    simp only [Checked.assignments, List.append_eq_nil_iff] at hclean
    obtain ⟨hfirst, hmore⟩ := hclean
    obtain ⟨-, hlands⟩ := Expr.eval_lands h a.value hfirst
    simp only [assignments, Checked.assignments]
    cases heval : a.value.eval values with
    | error e => simpa [heval, Lands] using hlands
    | ok value =>
      rw [heval] at hlands
      exact ih (Checked.assignment_covers h a hlands) hmore

/-! ## Statements -/

/-- A statement as folding leaves it: it is no assignment, a declaration holds a literal of a type
that its property accepts, and a condition is a boolean. -/
inductive Statement.Settled : Statement → Prop
  | declare {property : Ident} {value : Expr} {span : Span} {v : Literal}
      (hvalue : value.literal? = some v)
      (haccepts : ∀ types, Ty.allowed? property.name = some types → .ofLiteral v ∈ types) :
      Settled (.declare property value span)
  | ifThen {id : NodeId} {condition : Expr} {body : List Statement} {span : Span} {b : Bool}
      (hcondition : condition.literal? = some (.bool b)) (hbody : ∀ s ∈ body, s.Settled) :
      Settled (.ifThen id condition body span)
  | ifElse {id : NodeId} {condition : Expr} {body alternative : List Statement}
      {elseSpan span : Span} {b : Bool} (hcondition : condition.literal? = some (.bool b))
      (hbody : ∀ s ∈ body, s.Settled) (halternative : ∀ s ∈ alternative, s.Settled) :
      Settled (.ifElse id condition body alternative elseSpan span)

theorem Ty.undefined_not_mem_allowed {property : String} {types : List Ty}
    (h : allowed? property = some types) : .undefined ∉ types := by
  unfold allowed? at h
  split at h
  · simp_all [← Option.some.inj h]
  · split at h
    · simp_all [← Option.some.inj h]
    · simp at h

namespace Checked

theorem declaration_eq_nil {types : Scope Ty} {property : Ident} {value : Expr}
    (h : declaration types property value = []) :
    (value.check types).2 = [] ∧ ((value.check types).1 ≠ .unknown →
      ∀ allowed, Ty.allowed? property.name = some allowed → (value.check types).1 ∈ allowed) := by
  rcases hcheck : value.check types with ⟨ty, found⟩
  simp only [declaration, hcheck, Ty.isUnknown] at h ⊢
  split at h
  · simp_all
  · split at h
    · split at h <;> simp_all
    · simp_all

theorem condition_eq_nil {types : Scope Ty} {id : NodeId} {value : Expr}
    (h : condition types id value = []) :
    (value.check types).2 = [] ∧
      ((value.check types).1 ≠ .unknown → (value.check types).1 = .bool) := by
  rcases hcheck : value.check types with ⟨ty, found⟩
  simp only [condition, hcheck, Ty.isUnknown] at h ⊢
  split at h
  · next hty =>
    have : ty = .unknown ∨ ty = .bool := by simpa using hty
    exact ⟨h, this.resolve_left⟩
  · simp at h

end Checked

namespace Folded

variable {types : Scope Ty} {values : Scope Literal}

/-- Folding ends well: in a tree with the given property, or because a result does not fit. -/
def Ends {α : Type} (f : Folded α) (good : α → Prop) : Prop :=
  match f.error with
  | none => good f.tree
  | some e => e.IsOverflow

/-- A statement that needs no more folding: it is settled, or an assignment that goes away with
the end of its block. -/
def Done (s : Statement) : Prop :=
  s.isAssignment ∨ s.Settled

theorem settles_block_of (h : Covered types values) (body : List Statement)
    (hclean : (Checked.block types body fun inner => Checked.statements inner body).diagnostics =
      [])
    (hrest : ∀ types values, Covered types values →
      (Checked.statements types body).diagnostics = [] →
      (statements values body).Ends fun tree => ∀ s ∈ tree, Done s) :
    (block values body fun inner => statements inner body).Ends
      fun tree => ∀ s ∈ tree, s.Settled := by
  -- Both walks bind the assignments of the block first, and go through the statements afterwards.
  simp only [Checked.block, List.append_eq_nil_iff] at hclean
  have hbound := assignments_covers h.push (Statement.assignments body) hclean.1
  simp only [block]
  split at hbound
  · next after hafter =>
    have hinner := hrest _ _ hbound hclean.2
    simp only [Ends] at hinner ⊢
    cases herror : (statements after body).error with
    | some e => simpa [hafter, herror] using hinner
    | none =>
      simp only [herror] at hinner
      simp only [hafter, herror, List.mem_filter, Bool.not_eq_true', and_imp]
      intro s hs hassign
      exact (hinner s hs).resolve_left (by simp [hassign])
  · next after e hafter => simpa [Ends, hafter] using hbound

theorem fold_lands (h : Covered types values) (e : Expr) (hclean : (e.check types).2 = []) :
    (e.check types).1 ≠ .unknown ∧
      match e.fold values with
      | .ok folded => ∃ v, folded = .literal e.id e.span v ∧ (e.check types).1.Covers v
      | .error x => x.IsOverflow := by
  obtain ⟨hknown, hlands⟩ := e.eval_lands h hclean
  refine ⟨hknown, ?_⟩
  cases heval : e.eval values with
  | ok v =>
    rw [heval] at hlands
    simpa [Expr.fold, heval, Lands] using hlands
  | error x => simpa [Expr.fold, heval, Lands] using hlands

theorem condition_lands (h : Covered types values) {id : NodeId} {e : Expr}
    (hclean : Checked.condition types id e = []) :
    match e.fold values with
    | .ok folded => ∃ b, folded.literal? = some (.bool b)
    | .error x => x.IsOverflow := by
  obtain ⟨hvalue, hbool⟩ := Checked.condition_eq_nil hclean
  obtain ⟨hknown, hfold⟩ := fold_lands h e hvalue
  rw [hbool hknown] at hfold
  split at hfold
  · -- Of all literals, the type of booleans covers only booleans.
    obtain ⟨v, rfl, hcovers⟩ := hfold
    cases v <;> simp_all [Ty.Covers, Ty.ofLiteral, Expr.literal?]
  · exact hfold

theorem declaration_settles (h : Covered types values) (property : Ident) (value : Expr)
    (span : Span) (hclean : Checked.declaration types property value = []) :
    (statement values (.declare property value span)).Ends Done := by
  obtain ⟨hvalue, hallowed⟩ := Checked.declaration_eq_nil hclean
  obtain ⟨hknown, hfold⟩ := fold_lands h value hvalue
  simp only [statement]
  split at hfold
  · next folded hok =>
    obtain ⟨v, rfl, hcovers⟩ := hfold
    simp only [hok, Ends]
    refine .inr (.declare (v := v) rfl fun types htypes => ?_)
    -- The checker has looked at the type of the value, which may still be one that says nothing.
    have hmem := hallowed hknown types htypes
    rcases hcovers with hundefined | hliteral
    · exact absurd (hundefined ▸ hmem) (Ty.undefined_not_mem_allowed htypes)
    · exact hliteral ▸ hmem
  · next x herror => simpa [herror, Ends] using hfold

mutual

theorem settles_statement {types : Scope Ty} {values : Scope Literal} (h : Covered types values) :
    ∀ s, (Checked.statement types s).diagnostics = [] → (statement values s).Ends Done
  | .assign a, _ => .inl rfl
  | .declare property value span, hclean => declaration_settles h property value span hclean
  | .ifThen id condition body span, hclean => by
    simp only [Checked.statement, List.append_eq_nil_iff] at hclean
    have hcondition := condition_lands h hclean.1
    have htaken := settles_block_of h body hclean.2 fun _ _ hinner => settles_statements hinner body
    simp only [statement]
    split at hcondition
    · next folded hok =>
      obtain ⟨b, hb⟩ := hcondition
      simp only [hok, Ends] at htaken ⊢
      split at htaken
      · next herror => simpa [herror] using .inr (.ifThen hb htaken)
      · next e herror => simpa [herror] using htaken
    · next x herror => simpa [herror, Ends] using hcondition
  | .ifElse id condition body alternative elseSpan span, hclean => by
    -- Neither walk carries anything from one branch to the other.
    simp only [Checked.statement, Checked.scope_block, List.append_eq_nil_iff] at hclean
    have hcondition := condition_lands h hclean.1.1
    have htaken := settles_block_of h body hclean.1.2 fun _ _ hinner =>
      settles_statements hinner body
    have hother := settles_block_of h alternative hclean.2 fun _ _ hinner =>
      settles_statements hinner alternative
    simp only [statement, scope_block]
    split at hcondition
    · next folded hok =>
      obtain ⟨b, hb⟩ := hcondition
      simp only [hok, Ends] at htaken hother ⊢
      split at htaken
      · next herror =>
        split at hother
        · next herror' => simpa [herror, herror'] using .inr (.ifElse hb htaken hother)
        · next e herror' => simpa [herror, herror'] using hother
      · next e herror => simpa [herror] using htaken
    · next x herror => simpa [herror, Ends] using hcondition

theorem settles_statements {types : Scope Ty} {values : Scope Literal} (h : Covered types values) :
    ∀ body, (Checked.statements types body).diagnostics = [] →
      (statements values body).Ends fun tree => ∀ s ∈ tree, Done s
  | [], _ => by simp [statements, Ends]
  | s :: rest, hclean => by
    simp only [Checked.statements, Checked.scope_statement, List.append_eq_nil_iff] at hclean
    have hfirst := settles_statement h s hclean.1
    have hmore := settles_statements h rest hclean.2
    simp only [statements, scope_statement]
    simp only [Ends] at hfirst hmore ⊢
    split at hfirst
    · next herror =>
      split at hmore
      · next herror' => simpa [herror, herror'] using ⟨hfirst, hmore⟩
      · next e herror' => simpa [herror, herror'] using hmore
    · next e herror => simpa [herror] using hfirst

end

/-- A block without mistakes folds to settled statements, unless a result does not fit. -/
theorem settles_block (h : Covered types values) (body : List Statement)
    (hclean : (Checked.block types body fun inner => Checked.statements inner body).diagnostics =
      []) :
    (block values body fun inner => statements inner body).Ends
      fun tree => ∀ s ∈ tree, s.Settled :=
  settles_block_of h body hclean fun _ _ hinner => settles_statements hinner body

end Folded

/-! ## Branches -/

namespace Branch

theorem condition_of_bool {value : Expr} {b : Bool} (h : value.literal? = some (.bool b)) :
    condition value = .ok b := by
  simp [condition, h]

mutual

theorem statement_of_settled : ∀ s : Statement, s.Settled → ∃ taken, statement s = .ok taken
  | .assign a, h => nomatch h
  | .declare property value span, _ => ⟨_, rfl⟩
  | .ifThen id value body span, .ifThen (b := b) hcondition hbody => by
    obtain ⟨taken, htaken⟩ := statements_of_settled body hbody
    cases b <;> simp [statement, condition_of_bool hcondition, htaken]
  | .ifElse id value body alternative elseSpan span, .ifElse (b := b) hcondition hbody hother => by
    obtain ⟨taken, htaken⟩ := statements_of_settled body hbody
    obtain ⟨other, hother⟩ := statements_of_settled alternative hother
    cases b <;> simp [statement, condition_of_bool hcondition, htaken, hother]

theorem statements_of_settled :
    ∀ body : List Statement, (∀ s ∈ body, s.Settled) → ∃ taken, statements body = .ok taken
  | [], _ => ⟨[], rfl⟩
  | s :: rest, h => by
    obtain ⟨first, hfirst⟩ := statement_of_settled s (h s List.mem_cons_self)
    obtain ⟨more, hmore⟩ := statements_of_settled rest fun s hs => h s (List.mem_cons_of_mem _ hs)
    simp [statements, hfirst, hmore]

end

end Branch

/-! ## Sheets -/

/-- A member of a sheet as folding leaves it: a rule with settled statements. -/
def Item.Settled : Item → Prop
  | .assign _ => False
  | .rule r => ∀ s ∈ r.body, s.Settled

theorem Branch.items_of_settled (items : List Item) (h : ∀ item ∈ items, item.Settled) :
    (Branch.items items).2 = none := by
  induction items with
  | nil => rfl
  | cons item rest ih =>
    have hrest := ih fun item hitem => h item (List.mem_cons_of_mem _ hitem)
    cases item with
    | assign a => exact (h _ List.mem_cons_self).elim
    | rule r =>
      obtain ⟨taken, htaken⟩ := statements_of_settled r.body (h (.rule r) List.mem_cons_self)
      simp [items, htaken, hrest]

theorem Folded.settles_items (h : Covered types values) (items : List Item)
    (hclean : (Checked.rules types (items.filterMap Item.rule?)).diagnostics = []) :
    (Folded.items values items).Ends
      fun tree => ∀ item ∈ tree, item.rule?.isSome → item.Settled := by
  induction items with
  | nil => simp [Folded.items, Ends]
  | cons item rest ih =>
    cases item with
    | assign a =>
      -- The checker skips assignments here, and folding keeps them up to the end of the sheet.
      have hmore := ih hclean
      simp only [Folded.items, Ends] at hmore ⊢
      split at hmore
      · simpa [Item.rule?] using hmore
      · exact hmore
    | rule r =>
      simp only [Item.rule?, List.filterMap_cons, Checked.rules, Checked.scope_block,
        List.append_eq_nil_iff] at hclean
      have hfirst := settles_block h r.body hclean.1
      have hmore := ih hclean.2
      simp only [Folded.items, scope_block]
      simp only [Ends] at hfirst hmore ⊢
      split at hfirst
      · next herror =>
        split at hmore
        · next herror' => simpa [herror, herror', Item.Settled] using ⟨fun _ => hfirst, hmore⟩
        · next e herror' => simpa [herror, herror'] using hmore
      · next e herror => simpa [herror] using hfirst

theorem Diagnostic.oncePerNode_eq_nil {found : List Diagnostic} (h : oncePerNode [] found = []) :
    found = [] := by
  cases found with
  | nil => rfl
  | cons d rest =>
    simp only [oncePerNode, List.not_mem_nil, ↓reduceIte] at h
    split at h
    · simp at h
    · split at h <;> simp at h

/-- A sheet without mistakes folds to settled members, unless a result does not fit. -/
theorem Sheet.fold_settles {sheet : Sheet} (h : sheet.analyze = []) :
    match sheet.fold.error with
    | none => ∀ item ∈ sheet.fold.sheet.items, item.Settled
    | some e => e.IsOverflow := by
  have hclean := Diagnostic.oncePerNode_eq_nil h
  simp only [violations, List.append_eq_nil_iff] at hclean
  have hbound := Folded.assignments_covers covered_empty sheet.assignments hclean.1
  simp only [fold]
  split at hbound
  · next after hafter =>
    have hitems := Folded.settles_items hbound sheet.items hclean.2
    simp only [Folded.Ends] at hitems
    split at hitems
    · next herror =>
      simp only [hafter, herror, List.mem_filter, and_imp]
      exact hitems
    · next e herror => simpa [hafter, herror] using hitems
  · next after e hafter => simpa [hafter] using hbound

theorem Sheet.finish_error_ne_fold {sheet : Sheet} (h : sheet.analyze = []) (options : Options)
    (e : FoldError) : (sheet.finish options).error ≠ some (.fold e) := by
  have hsettles := sheet.fold_settles h
  simp only [finish]
  split at hsettles
  · next herror =>
    have hselect : sheet.fold.sheet.selectBranches.error = none :=
      Branch.items_of_settled _ hsettles
    cases hoption : options.selectBranches <;> simp [herror, hselect]
  · next x herror =>
    obtain ⟨op, node, span, rfl⟩ := hsettles
    simp [herror, CompileError.ofFold]

theorem Sheet.checkSource_sheet (source : String) :
    (checkSource source).1.sheet = (parse source).sheet := by
  simp only [checkSource]
  split <;> rfl

theorem Sheet.checkSource_clean {source : String}
    (h : (checkSource source).1.diagnostics = []) :
    (checkSource source).1.sheet.analyze = [] := by
  simp only [checkSource] at h ⊢
  split
  · next hparsed => simpa [hparsed] using h
  · next hparsed => simp_all

theorem compile_eq (options : Options) (source : String) :
    compile options source =
      if (Sheet.checkSource source).1.diagnostics.isEmpty then
        match ((Sheet.checkSource source).1.sheet.finish options).error with
        | some e => .error e
        | none => .ok ((Sheet.checkSource source).1.sheet.finish options).sheet.css
      else .error (.diagnostics (Sheet.checkSource source).1.diagnostics) := by
  simp only [compile, compileWithEvents]
  split
  · split <;> simp_all
  · rfl

/-- Type soundness. A sheet in which the checker finds nothing folds, unless a result does not
fit, and then every conditional has its branch. So compilation never ends in an error of this
program. -/
theorem Sheet.type_soundness :
    (∀ sheet : Sheet, sheet.analyze = [] →
      (sheet.fold.error = none ∨
        ∃ op node span, sheet.fold.error = some (.overflow op node span)) ∧
      (sheet.fold.error = none → sheet.fold.sheet.selectBranches.error = none)) ∧
    ∀ (options : Options) (source : String) (e : FoldError),
      compile options source ≠ .error (.fold e) := by
  refine ⟨fun sheet h => ?_, fun options source e => ?_⟩
  · have hsettles := sheet.fold_settles h
    split at hsettles
    · next herror => exact ⟨.inl herror, fun _ => Branch.items_of_settled _ hsettles⟩
    · next x herror =>
      obtain ⟨op, node, span, rfl⟩ := hsettles
      exact ⟨.inr ⟨op, node, span, herror⟩, fun hnone => by simp [herror] at hnone⟩
  · rw [compile_eq]
    split
    · next hclean =>
      have hanalyze := checkSource_clean (by simpa using hclean)
      cases herror : ((checkSource source).1.sheet.finish options).error with
      | none => simp
      | some x =>
        rintro ⟨⟩
        exact finish_error_ne_fold hanalyze options e herror
    · simp

/-- A rule that shadows a variable in one branch and uses another before its assignment. -/
def Sheet.shadowing : Sheet :=
  let node (n : Nat) (value : Literal) : Expr := .literal ⟨n⟩ .zero value
  let name (n : Nat) (text : String) : Expr := .reference ⟨n⟩ .zero text
  let assign (text : String) (value : Expr) : Assignment := ⟨⟨text, .zero⟩, value, .zero⟩
  let width (value : Expr) : Statement := .declare ⟨"width", .zero⟩ value .zero
  ⟨[.assign (assign "Size" (node 0 (.pixel 10))),
    .rule ⟨.tag "a",
      [.ifElse ⟨1⟩ (name 2 "On")
        [.assign (assign "Size" (.operation ⟨5⟩ .zero .multiply (node 3 (.scalar 2))
            (name 4 "Size"))),
          width (.operation ⟨8⟩ .zero .add (name 6 "Size") (node 7 (.pixel 5)))]
        [width (name 9 "Size")] .zero .zero], .zero⟩,
    .assign (assign "On" (node 10 (.bool true)))]⟩

theorem Sheet.type_soundness_shadowing :
    shadowing.analyze = [] ∧ shadowing.fold.error = none ∧
      shadowing.fold.sheet.selectBranches.error = none :=
  have hclean : shadowing.analyze = [] := by decide
  have hfold : shadowing.fold.error = none := by decide
  ⟨hclean, hfold, (type_soundness.1 shadowing hclean).2 hfold⟩

end TypedStyle
