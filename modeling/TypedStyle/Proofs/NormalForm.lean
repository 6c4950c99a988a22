import TypedStyle.Proofs.TypeSoundness

/-!
# The normal form of sheets

Folding a sheet without mistakes leaves a normal form: rules whose declarations hold literals of
accepted types and whose conditions are booleans (`Statement.Settled`). Selecting branches leaves a
simpler one: rules that hold such declarations and nothing else (`Statement.Plain`).

Both forms are typed again. A literal has its type in every scope, so that it does not matter that
folding has taken the assignments away and that selecting has moved declarations out of their
blocks.
-/

namespace TypedStyle

variable {sheet : Sheet}

/-! ## Settled sheets are typed -/

theorem Expr.check_of_literal? {e : Expr} {v : Literal} (h : e.literal? = some v)
    (scope : Scope Ty) : e.check scope = (.ofLiteral v, []) := by
  cases e with
  | literal id span value =>
    obtain rfl := Option.some.inj h
    rfl
  | _ => cases h

theorem Statement.assignments_of_settled {body : List Statement} (h : ∀ s ∈ body, s.Settled) :
    assignments body = [] := by
  refine List.filterMap_eq_nil_iff.2 fun s hs => ?_
  cases h s hs <;> rfl

theorem Sheet.assignments_of_settled (h : ∀ i ∈ sheet.items, i.Settled) :
    sheet.assignments = [] := by
  refine List.filterMap_eq_nil_iff.2 fun i hi => ?_
  cases i with
  | assign a => exact (h _ hi).elim
  | rule r => rfl

namespace Checked

theorem declaration_of_literal {property : Ident} {value : Expr} {v : Literal}
    (hvalue : value.literal? = some v)
    (haccepts : ∀ types, Ty.allowed? property.name = some types → .ofLiteral v ∈ types)
    (scope : Scope Ty) : declaration scope property value = [] := by
  -- A literal always has a known type, so only the property can object.
  have hknown : (Ty.ofLiteral v).isUnknown = false := by
    simp [Ty.isUnknown, Ty.ofLiteral_ne_unknown]
  rw [declaration, Expr.check_of_literal? hvalue]
  simp only [hknown, Bool.false_eq_true, ↓reduceIte]
  split
  · next types htypes => exact if_pos (haccepts types htypes)
  · rfl

theorem condition_of_bool {value : Expr} {b : Bool} (h : value.literal? = some (.bool b))
    (scope : Scope Ty) (id : NodeId) : condition scope id value = [] := by
  rw [condition, Expr.check_of_literal? h]
  rfl

theorem block_of_settled {body : List Statement} (hbody : ∀ s ∈ body, s.Settled)
    (scope : Scope Ty) {rest : Scope Ty → Checked} (hrest : ∀ inner, (rest inner).diagnostics = []) :
    (block scope body rest).diagnostics = [] := by
  rw [block, Statement.assignments_of_settled hbody]
  exact hrest _

mutual

theorem statement_of_settled (scope : Scope Ty) :
    ∀ s : Statement, s.Settled → (statement scope s).diagnostics = []
  | .assign a, h => nomatch h
  | .declare property value span, .declare hvalue haccepts =>
    declaration_of_literal hvalue haccepts scope
  | .ifThen id value body span, .ifThen hcondition hbody => by
    have htaken := block_of_settled hbody scope fun inner => statements_of_settled inner body hbody
    simp only [statement, condition_of_bool hcondition, htaken, List.append_nil]
  | .ifElse id value body alternative elseSpan span,
    .ifElse hcondition hbody halternative => by
    have htaken := block_of_settled hbody scope fun inner => statements_of_settled inner body hbody
    have hother := block_of_settled halternative scope fun inner =>
      statements_of_settled inner alternative halternative
    simp only [statement, scope_block, condition_of_bool hcondition, htaken, hother,
      List.append_nil]

theorem statements_of_settled (scope : Scope Ty) :
    ∀ body : List Statement, (∀ s ∈ body, s.Settled) → (statements scope body).diagnostics = []
  | [], _ => rfl
  | s :: rest, h => by
    obtain ⟨hfirst, hrest⟩ := List.forall_mem_cons.1 h
    simp only [statements, statement_of_settled scope s hfirst, scope_statement,
      statements_of_settled scope rest hrest, List.append_nil]

end

theorem rules_of_settled {rs : List Rule} (h : ∀ r ∈ rs, ∀ s ∈ r.body, s.Settled)
    (scope : Scope Ty) : (rules scope rs).diagnostics = [] := by
  induction rs with
  | nil => rfl
  | cons r rest ih =>
    obtain ⟨hbody, hrest⟩ := List.forall_mem_cons.1 h
    have hblock := block_of_settled hbody scope fun inner =>
      statements_of_settled inner r.body hbody
    simp only [rules, hblock, scope_block, ih hrest, List.append_nil]

end Checked

/-- There is nothing wrong in a settled sheet. -/
theorem Sheet.analyze_of_settled (h : ∀ i ∈ sheet.items, i.Settled) : sheet.analyze = [] := by
  have hrules : ∀ r ∈ sheet.rules, ∀ s ∈ r.body, s.Settled := fun r hr =>
    h _ (mem_items_of_mem_rules hr)
  rw [analyze, violations, assignments_of_settled h, Checked.rules_of_settled hrules]
  rfl

/-! ## Plain sheets -/

/-- A declaration of a literal that its property accepts. -/
inductive Statement.Plain : Statement → Prop
  | declare {property : Ident} {id : NodeId} {place span : Span} {value : Literal}
      (haccepts : ∀ types, Ty.allowed? property.name = some types → .ofLiteral value ∈ types) :
      Plain (.declare property (.literal id place value) span)

/-- A rule of plain declarations. -/
def Item.Plain : Item → Prop
  | assign _ => False
  | rule r => ∀ s ∈ r.body, s.Plain

/-- All members are rules of plain declarations. -/
def Sheet.Plain (sheet : Sheet) : Prop :=
  ∀ i ∈ sheet.items, i.Plain

theorem Statement.Plain.settled {s : Statement} (h : s.Plain) : s.Settled := by
  cases h with
  | declare haccepts => exact .declare rfl haccepts

theorem Sheet.Plain.settled (h : sheet.Plain) : ∀ i ∈ sheet.items, i.Settled := by
  intro i hi
  have hplain := h i hi
  cases i with
  | assign a => exact hplain
  | rule r => exact fun s hs => (hplain s hs).settled

/-! ## Selected branches are plain -/

namespace Branch

mutual

theorem plain_statement :
    ∀ (s : Statement) {taken : List Statement}, s.Settled → statement s = .ok taken →
      ∀ t ∈ taken, t.Plain
  | .declare property value span, taken, .declare hvalue haccepts, h => by
    -- A declaration takes its own place.
    obtain rfl := Except.ok.inj h
    cases value with
    | literal id place v =>
      obtain rfl := Option.some.inj hvalue
      exact List.forall_mem_singleton.2 (.declare haccepts)
    | _ => cases hvalue
  | .ifThen _ value body _, taken, .ifThen _ hbody, h => by
    rcases statement_ifThen_eq_ok h with h | rfl
    · exact plain_statements body hbody h
    · simp
  | .ifElse _ value body alternative _ _, taken, .ifElse _ hbody halternative, h => by
    rcases statement_ifElse_eq_ok h with h | h
    · exact plain_statements body hbody h
    · exact plain_statements alternative halternative h

theorem plain_statements :
    ∀ (body : List Statement) {taken : List Statement}, (∀ s ∈ body, s.Settled) →
      statements body = .ok taken → ∀ t ∈ taken, t.Plain
  | [], _, _, h => by
    obtain rfl := Except.ok.inj h
    simp
  | s :: rest, taken, hsettled, h => by
    obtain ⟨hs, hrest⟩ := List.forall_mem_cons.1 hsettled
    obtain ⟨first, more, hfirst, hmore, rfl⟩ := statements_cons_eq_ok h
    exact List.forall_mem_append.2
      ⟨plain_statement s hs hfirst, plain_statements rest hrest hmore⟩

end

theorem plain_items {is : List Item} (h : ∀ i ∈ is, i.Settled) : ∀ i ∈ (items is).1, i.Plain := by
  induction is with
  | nil => simp [items]
  | cons item rest ih =>
    obtain ⟨hitem, hrest⟩ := List.forall_mem_cons.1 h
    cases item with
    | assign a => exact hitem.elim
    | rule r =>
      -- Every condition is a boolean, so no rule loses its body.
      obtain ⟨taken, htaken⟩ := statements_of_settled r.body hitem
      simp only [items, htaken]
      exact List.forall_mem_cons.2 ⟨plain_statements r.body hitem htaken, ih hrest⟩

end Branch

/-! ## Both normal forms -/

/-- A sheet without mistakes that can be folded becomes a sheet of rules without assignments, whose
declarations are of literals of accepted types and whose conditions are booleans, and in which the
checker finds nothing. Its branches can be selected. This leaves rules of declarations only, and
again the checker finds nothing. -/
theorem Sheet.fold_normal_form {sheet : Sheet} (hclean : sheet.analyze = [])
    (hfold : sheet.fold.error = none) :
    (∀ i ∈ sheet.fold.sheet.items, i.Settled) ∧ sheet.fold.sheet.analyze = [] ∧
      sheet.fold.sheet.selectBranches.error = none ∧
      sheet.fold.sheet.selectBranches.sheet.Plain ∧
      sheet.fold.sheet.selectBranches.sheet.analyze = [] := by
  have hsettled := fold_settles hclean
  rw [hfold] at hsettled
  have hplain : sheet.fold.sheet.selectBranches.sheet.Plain := Branch.plain_items hsettled
  exact ⟨hsettled, analyze_of_settled hsettled, Branch.items_of_settled _ hsettled, hplain,
    analyze_of_settled hplain.settled⟩

/-- A rule in which a variable is assigned another one, so that its type says nothing, and is
declared in one branch and hidden in the other. -/
def Sheet.aliased : Sheet :=
  let node (n : Nat) (value : Literal) : Expr := .literal ⟨n⟩ .zero value
  let name (n : Nat) (text : String) : Expr := .reference ⟨n⟩ .zero text
  let assign (text : String) (value : Expr) : Assignment := ⟨⟨text, .zero⟩, value, .zero⟩
  let declare (property : String) (value : Expr) : Statement :=
    .declare ⟨property, .zero⟩ value .zero
  ⟨[.assign (assign "Size" (node 0 (.pixel 3))), .assign (assign "Copy" (name 1 "Size")),
    .rule ⟨.tag "a",
      [.ifElse ⟨2⟩ (node 3 (.bool false)) [declare "zoom" (name 4 "Copy")]
        [.assign (assign "Copy" (.operation ⟨5⟩ .zero .multiply (node 6 (.scalar 2))
            (name 7 "Size"))),
          .ifThen ⟨8⟩ (node 9 (.bool true)) [declare "width" (name 10 "Copy")] .zero]
        .zero .zero], .zero⟩]⟩

theorem Sheet.fold_normal_form_aliased :
    aliased.analyze = [] ∧ aliased.fold.error = none ∧
      (∀ i ∈ aliased.fold.sheet.items, i.Settled) ∧ aliased.fold.sheet.analyze = [] ∧
      aliased.fold.sheet.selectBranches.sheet.Plain ∧
      aliased.fold.sheet.selectBranches.sheet.analyze = [] :=
  have hclean : aliased.analyze = [] := by decide
  have hfold : aliased.fold.error = none := by decide
  have hform := fold_normal_form hclean hfold
  ⟨hclean, hfold, hform.1, hform.2.1, hform.2.2.2⟩

end TypedStyle
