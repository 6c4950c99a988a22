import TypedStyle.Proofs.Selection

/-!
# What selecting branches does

A conditional takes a branch if its condition is a boolean literal, and then its statements stand in
the place of the conditional. Whether this works out for a sheet, and what it gives, is said here
without going through it.
-/

namespace TypedStyle

/-! ## Branches that are taken -/

def Expr.isBool (e : Expr) : Bool :=
  match e.literal? with
  | some (.bool _) => true
  | _ => false

theorem Expr.isBool_of_literal? {e : Expr} {b : Bool} (h : e.literal? = some (.bool b)) :
    e.isBool = true := by
  rw [isBool, h]

theorem Expr.exists_bool {e : Expr} (h : e.isBool = true) : ∃ b, e.literal? = some (.bool b) := by
  unfold isBool at h
  split at h
  · next b hliteral => exact ⟨b, hliteral⟩
  · cases h

namespace Statement

variable {s : Statement} {branch : List Statement}

/-- The branch that a conditional takes. A false condition without an `else` takes an empty one. -/
inductive Takes : Statement → List Statement → Prop
  | ifTrue {id : NodeId} {condition : Expr} {body : List Statement} {span : Span}
      (h : condition.literal? = some (.bool true)) : Takes (.ifThen id condition body span) body
  | ifFalse {id : NodeId} {condition : Expr} {body : List Statement} {span : Span}
      (h : condition.literal? = some (.bool false)) : Takes (.ifThen id condition body span) []
  | elseTrue {id : NodeId} {condition : Expr} {body alternative : List Statement}
      {elseSpan span : Span} (h : condition.literal? = some (.bool true)) :
      Takes (.ifElse id condition body alternative elseSpan span) body
  | elseFalse {id : NodeId} {condition : Expr} {body alternative : List Statement}
      {elseSpan span : Span} (h : condition.literal? = some (.bool false)) :
      Takes (.ifElse id condition body alternative elseSpan span) alternative

def condition? : Statement → Option Expr
  | ifThen _ condition _ _ | ifElse _ condition _ _ _ _ => some condition
  | _ => none

/-- `Flattens body flat`: every conditional of the block is replaced, where it stands, by what the
branch that it takes is flattened to. -/
inductive Flattens : List Statement → List Statement → Prop
  | nil : Flattens [] []
  | keep {s : Statement} {rest flat : List Statement} (h : s.isConditional = false)
      (hrest : Flattens rest flat) : Flattens (s :: rest) (s :: flat)
  | take {s : Statement} {branch rest flat flat' : List Statement} (h : Takes s branch)
      (hbranch : Flattens branch flat) (hrest : Flattens rest flat') :
      Flattens (s :: rest) (flat ++ flat')

mutual

/-- The conditions that are met in a statement when only taken branches are followed, a conditional
before those in its branch. -/
def conditions : Statement → List Expr
  | declare .. | assign _ => []
  | ifThen _ condition body _ =>
    condition :: match condition.literal? with
      | some (.bool true) => conditionsAll body
      | _ => []
  | ifElse _ condition body alternative _ _ =>
    condition :: match condition.literal? with
      | some (.bool true) => conditionsAll body
      | some (.bool false) => conditionsAll alternative
      | _ => []

/-- The conditions that are met in a block when only taken branches are followed, in depth-first
order. -/
def conditionsAll : List Statement → List Expr
  | [] => []
  | s :: rest => s.conditions ++ conditionsAll rest

end

/-- The first condition that is met in a block and is no boolean literal. -/
def offence? (body : List Statement) : Option Expr :=
  (conditionsAll body).find? fun condition => !condition.isBool

theorem takes_cases (s : Statement) :
    s.isConditional = false ∨ (∃ branch, s.Takes branch) ∨
      ∃ condition, s.condition? = some condition ∧ condition.isBool = false := by
  cases s with
  | declare property value span => exact .inl rfl
  | assign a => exact .inl rfl
  | ifThen id condition body span =>
    cases hbool : condition.isBool with
    | false => exact .inr (.inr ⟨condition, rfl, hbool⟩)
    | true =>
      obtain ⟨b, hb⟩ := Expr.exists_bool hbool
      cases b with
      | false => exact .inr (.inl ⟨_, .ifFalse hb⟩)
      | true => exact .inr (.inl ⟨_, .ifTrue hb⟩)
  | ifElse id condition body alternative elseSpan span =>
    cases hbool : condition.isBool with
    | false => exact .inr (.inr ⟨condition, rfl, hbool⟩)
    | true =>
      obtain ⟨b, hb⟩ := Expr.exists_bool hbool
      cases b with
      | false => exact .inr (.inl ⟨_, .elseFalse hb⟩)
      | true => exact .inr (.inl ⟨_, .elseTrue hb⟩)

theorem Takes.sizeOf_lt (h : s.Takes branch) : sizeOf branch < sizeOf s := by
  cases h with
  | @ifFalse id condition body span h =>
    -- The empty branch counts as well, and so does the one that is not taken.
    have hpos : 0 < sizeOf body := by
      cases body with
      | nil => exact Nat.one_pos
      | cons s rest =>
        rw [List.cons.sizeOf_spec]
        omega
    rw [ifThen.sizeOf_spec, List.nil.sizeOf_spec]
    omega
  | _ =>
    simp only [ifThen.sizeOf_spec, ifElse.sizeOf_spec]
    omega

theorem branch_induction {motive : List Statement → Prop} (nil : motive [])
    (keep : ∀ s rest, s.isConditional = false → motive rest → motive (s :: rest))
    (take : ∀ s branch rest, s.Takes branch → motive branch → motive rest → motive (s :: rest))
    (stuck : ∀ s condition rest, s.condition? = some condition → condition.isBool = false →
      motive (s :: rest)) (body : List Statement) : motive body := by
  -- A branch is no part of the list that it is taken in, but it is smaller.
  induction hsize : sizeOf body using Nat.strongRecOn generalizing body with
  | ind size ih =>
    subst hsize
    cases body with
    | nil => exact nil
    | cons s rest =>
      have hcons : sizeOf (s :: rest) = 1 + sizeOf s + sizeOf rest := List.cons.sizeOf_spec s rest
      have hrest := ih (sizeOf rest) (by omega) rest rfl
      rcases s.takes_cases with hkeep | ⟨branch, htakes⟩ | ⟨condition, hcondition, hbool⟩
      · exact keep s rest hkeep hrest
      · have hlt := htakes.sizeOf_lt
        exact take s branch rest htakes (ih (sizeOf branch) (by omega) branch rfl) hrest
      · exact stuck s condition rest hcondition hbool

/-! ## Conditions that are met -/

theorem conditionsAll_of_keep (h : s.isConditional = false) (rest : List Statement) :
    conditionsAll (s :: rest) = conditionsAll rest := by
  cases s with
  | declare property value span => rfl
  | assign a => rfl
  | _ => cases h

theorem Takes.exists_conditionsAll (h : s.Takes branch) (rest : List Statement) :
    ∃ condition, condition.isBool = true ∧
      conditionsAll (s :: rest) = condition :: (conditionsAll branch ++ conditionsAll rest) := by
  cases h with
  | ifTrue h | ifFalse h | elseTrue h | elseFalse h =>
    exact ⟨_, Expr.isBool_of_literal? h, by simp [conditionsAll, conditions, h]⟩

theorem offence?_of_keep (h : s.isConditional = false) (rest : List Statement) :
    offence? (s :: rest) = offence? rest := by
  rw [offence?, conditionsAll_of_keep h, offence?]

theorem Takes.offence? (h : s.Takes branch) (rest : List Statement) :
    Statement.offence? (s :: rest) = (Statement.offence? branch).or (Statement.offence? rest) := by
  obtain ⟨condition, hbool, hconditions⟩ := h.exists_conditionsAll rest
  rw [Statement.offence?, hconditions, List.find?_cons_of_neg (by simp [hbool]), List.find?_append]
  rfl

theorem offence?_of_stuck {condition : Expr} (h : s.condition? = some condition)
    (hbool : condition.isBool = false) (rest : List Statement) :
    offence? (s :: rest) = some condition := by
  cases s with
  | ifThen id value body span | ifElse id value body alternative elseSpan span =>
    obtain rfl := Option.some.inj h
    exact List.find?_cons_of_pos (by simp [hbool])
  | _ => cases h

end Statement

open Statement

/-! ## Blocks -/

namespace Branch

variable {s : Statement}

theorem statement_of_keep (h : s.isConditional = false) : statement s = .ok [s] := by
  cases s with
  | declare property value span => rfl
  | assign a => rfl
  | _ => cases h

theorem statement_of_takes {branch : List Statement} (h : s.Takes branch) :
    statement s = statements branch := by
  cases h with
  | ifTrue h | ifFalse h | elseTrue h | elseFalse h => simp [statement, condition, h, statements]

theorem statement_of_stuck {value : Expr} (h : s.condition? = some value)
    (hbool : value.isBool = false) : statement s = .error (.condition value.span) := by
  have hcondition : condition value = .error (.condition value.span) := by
    unfold condition
    split
    · next b hliteral => exact absurd (Expr.isBool_of_literal? hliteral) (by simp [hbool])
    · rfl
  cases s with
  | ifThen id value' body span | ifElse id value' body alternative elseSpan span =>
    obtain rfl := Option.some.inj h
    simp [statement, hcondition]
  | _ => cases h

/-- A block is flattened if all conditions that are met in it are booleans, and fails with the first
one that is not. -/
theorem statements_cases (body : List Statement) :
    (∃ flat, offence? body = none ∧ Flattens body flat ∧ statements body = .ok flat) ∨
      ∃ value, offence? body = some value ∧ statements body = .error (.condition value.span) := by
  induction body using branch_induction with
  | nil => exact .inl ⟨[], rfl, .nil, rfl⟩
  | keep s rest hkeep ih =>
    rw [offence?_of_keep hkeep, statements, statement_of_keep hkeep]
    rcases ih with ⟨flat, hnone, hflattens, hok⟩ | ⟨value, hsome, herror⟩
    · exact .inl ⟨s :: flat, hnone, .keep hkeep hflattens, by simp [hok]⟩
    · exact .inr ⟨value, hsome, by simp [herror]⟩
  | take s branch rest htakes ihbranch ihrest =>
    rw [htakes.offence?, statements, statement_of_takes htakes]
    rcases ihbranch with ⟨flat, hnone, hflattens, hok⟩ | ⟨value, hsome, herror⟩
    · rcases ihrest with ⟨flat', hnone', hflattens', hok'⟩ | ⟨value, hsome, herror⟩
      · exact .inl ⟨flat ++ flat', by simp [hnone, hnone'], .take htakes hflattens hflattens',
          by simp [hok, hok']⟩
      · exact .inr ⟨value, by simp [hnone, hsome], by simp [hok, herror]⟩
    · -- The branch fails, and what comes behind the conditional is not looked at.
      exact .inr ⟨value, by simp [hsome], by simp [herror]⟩
  | stuck s value rest hvalue hbool =>
    rw [offence?_of_stuck hvalue hbool, statements, statement_of_stuck hvalue hbool]
    exact .inr ⟨value, rfl, rfl⟩

end Branch

namespace Statement.Flattens

variable {body flat : List Statement}

theorem statements (h : Flattens body flat) : Branch.statements body = .ok flat := by
  induction h with
  | nil => rfl
  | keep hkeep hrest ih => simp [Branch.statements, Branch.statement_of_keep hkeep, ih]
  | take htakes hbranch hrest ihbranch ihrest =>
    simp [Branch.statements, Branch.statement_of_takes htakes, ihbranch, ihrest]

theorem offence? (h : Flattens body flat) : Statement.offence? body = none := by
  induction h with
  | nil => rfl
  | keep hkeep hrest ih => rw [offence?_of_keep hkeep, ih]
  | take htakes hbranch hrest ihbranch ihrest => simp [htakes.offence?, ihbranch, ihrest]

theorem isConditional (h : Flattens body flat) : ∀ s ∈ flat, s.isConditional = false := by
  induction h with
  | nil => simp
  | keep hkeep hrest ih => exact List.forall_mem_cons.2 ⟨hkeep, ih⟩
  | take htakes hbranch hrest ihbranch ihrest => exact List.forall_mem_append.2 ⟨ihbranch, ihrest⟩

theorem refl (h : ∀ s ∈ body, s.isConditional = false) : Flattens body body := by
  induction body with
  | nil => exact .nil
  | cons s rest ih =>
    obtain ⟨hfirst, hrest⟩ := List.forall_mem_cons.1 h
    exact .keep hfirst (ih hrest)

end Statement.Flattens

/-! ## Sheets -/

/-- A rule with its block flattened. Assignments stay as they are. -/
inductive Item.Flattens : Item → Item → Prop
  | assign (a : Assignment) : Flattens (.assign a) (.assign a)
  | rule {r : Rule} {flat : List Statement} (h : Statement.Flattens r.body flat) :
      Flattens (.rule r) (.rule { r with body := flat })

/-- The members of a sheet are selected one after the other, up to the first rule that fails. -/
theorem Branch.items_cases (is : List Item) :
    (∃ selected, List.Forall₂ Item.Flattens is selected ∧ items is = (selected, none)) ∨
      ∃ before selected r after value, is = before ++ .rule r :: after ∧
        List.Forall₂ Item.Flattens before selected ∧ offence? r.body = some value ∧
        items is =
          (selected ++ .rule { r with body := [] } :: after, some (.condition value.span)) := by
  induction is with
  | nil => exact .inl ⟨[], .nil, rfl⟩
  | cons i rest ih =>
    cases i with
    | assign a =>
      rcases ih with ⟨selected, hselected, hitems⟩ |
        ⟨before, selected, r, after, value, rfl, hselected, hvalue, hitems⟩
      · exact .inl ⟨.assign a :: selected, .cons (.assign a) hselected, by simp [items, hitems]⟩
      · exact .inr ⟨.assign a :: before, .assign a :: selected, r, after, value, rfl,
          .cons (.assign a) hselected, hvalue, by simp [items, hitems]⟩
    | rule r =>
      rcases statements_cases r.body with ⟨flat, -, hflat, hok⟩ | ⟨value, hvalue, herror⟩
      · rcases ih with ⟨selected, hselected, hitems⟩ |
          ⟨before, selected, r', after, value, rfl, hselected, hvalue, hitems⟩
        · exact .inl ⟨_, .cons (.rule hflat) hselected, by simp [items, hok, hitems]⟩
        · exact .inr ⟨.rule r :: before, _, r', after, value, rfl,
            .cons (.rule hflat) hselected, hvalue, by simp [items, hok, hitems]⟩
      · exact .inr ⟨[], [], r, rest, value, rfl, .nil, hvalue, by simp [items, herror]⟩

section Flattened

variable {is selected : List Item}

theorem Branch.items_of_flattens (h : List.Forall₂ Item.Flattens is selected) :
    items is = (selected, none) := by
  induction h with
  | nil => rfl
  | cons hfirst hrest ih =>
    cases hfirst with
    | assign a => simp [items, ih]
    | rule hflat => simp [items, hflat.statements, ih]

theorem Sheet.offence?_of_flattens (h : List.Forall₂ Item.Flattens is selected) :
    ∀ r ∈ (Sheet.mk is).rules, offence? r.body = none := by
  induction h with
  | nil => simp [rules]
  | cons hfirst hrest ih =>
    cases hfirst with
    | assign a => exact ih
    | rule hflat => exact List.forall_mem_cons.2 ⟨hflat.offence?, ih⟩

theorem Sheet.unconditional_of_flattens (h : List.Forall₂ Item.Flattens is selected) :
    (Sheet.mk selected).Unconditional ∧ List.Forall₂ Item.Flattens selected selected := by
  induction h with
  | nil => exact ⟨by simp [Unconditional, rules], .nil⟩
  | cons hfirst hrest ih =>
    cases hfirst with
    | assign a => exact ⟨ih.1, .cons (.assign a) ih.2⟩
    | rule hflat =>
      exact ⟨List.forall_mem_cons.2 ⟨hflat.isConditional, ih.1⟩,
        .cons (.rule (.refl hflat.isConditional)) ih.2⟩

end Flattened

theorem Statement.offence?_eq_none_iff {body : List Statement} :
    offence? body = none ↔ ∀ condition ∈ conditionsAll body, condition.isBool = true := by
  simp [offence?]

namespace Sheet

theorem selectBranches_of_flattens {sheet selected : Sheet}
    (h : List.Forall₂ Item.Flattens sheet.items selected.items) :
    sheet.selectBranches = ⟨selected, none⟩ := by
  rw [selectBranches, Branch.items_of_flattens h]

theorem flattens_of_selectBranches {sheet selected : Sheet}
    (h : sheet.selectBranches = ⟨selected, none⟩) :
    List.Forall₂ Item.Flattens sheet.items selected.items := by
  rw [selectBranches, Attempt.mk.injEq] at h
  obtain ⟨rfl, herror⟩ := h
  rcases Branch.items_cases sheet.items with ⟨flat, hflat, hitems⟩ |
    ⟨before, flat, r, after, condition, -, -, -, hitems⟩
  · rw [hitems]
    exact hflat
  · rw [hitems] at herror
    cases herror

/-- Selecting branches succeeds exactly if all conditions that are met in the rules, when only taken
branches are followed, are boolean literals. Then it flattens the blocks of the rules, changes
nothing else and leaves no conditional, so that selecting again changes nothing. Otherwise it stops
at the first rule in which another condition is met, and reports where the first one stands: the
members before are selected, the rule has lost its block, and the members behind it are as they
were. -/
theorem selectBranches_exact (sheet : Sheet) :
    (sheet.selectBranches.error = none ↔
      ∀ r ∈ sheet.rules, ∀ condition ∈ conditionsAll r.body, condition.isBool = true) ∧
    (∀ selected : Sheet, sheet.selectBranches = ⟨selected, none⟩ ↔
      List.Forall₂ Item.Flattens sheet.items selected.items) ∧
    (∀ selected : Sheet, sheet.selectBranches = ⟨selected, none⟩ →
      selected.Unconditional ∧ selected.selectBranches = ⟨selected, none⟩) ∧
    ∀ e, sheet.selectBranches.error = some e →
      ∃ before selected r after condition, sheet.items = before ++ .rule r :: after ∧
        List.Forall₂ Item.Flattens before selected ∧
        offence? r.body = some condition ∧
        e = .condition condition.span ∧
        sheet.selectBranches.sheet.items = selected ++ .rule { r with body := [] } :: after := by
  refine ⟨?_, fun selected => ⟨flattens_of_selectBranches, selectBranches_of_flattens⟩,
    fun selected h => ?_, fun e he => ?_⟩
  · simp only [← offence?_eq_none_iff, selectBranches]
    rcases Branch.items_cases sheet.items with ⟨selected, hselected, hitems⟩ |
      ⟨before, selected, r, after, condition, hbefore, -, hcondition, hitems⟩
    · rw [hitems]
      exact iff_of_true rfl (offence?_of_flattens hselected)
    · rw [hitems]
      refine iff_of_false (by simp) fun hnone => ?_
      have hr : r ∈ sheet.rules := List.mem_filterMap.2 ⟨.rule r, by simp [hbefore], rfl⟩
      rw [hnone r hr] at hcondition
      cases hcondition
  · obtain ⟨hunconditional, hagain⟩ := unconditional_of_flattens (flattens_of_selectBranches h)
    exact ⟨hunconditional, selectBranches_of_flattens hagain⟩
  · rw [selectBranches] at he ⊢
    rcases Branch.items_cases sheet.items with ⟨selected, -, hitems⟩ |
      ⟨before, selected, r, after, condition, hbefore, hselected, hcondition, hitems⟩
    · rw [hitems] at he
      cases he
    · rw [hitems] at he ⊢
      exact ⟨before, selected, r, after, condition, hbefore, hselected, hcondition,
        (Option.some.inj he).symm, rfl⟩

/-- The conditional `if [condition] { inner }`. -/
def guarded (condition : Expr) (inner : List Statement) : Statement :=
  .ifThen .dummy condition inner .zero

/-- The declaration `zoom: n;`. -/
def zoomed (n : Int) : Statement :=
  .declare ⟨"zoom", .zero⟩ (Grammar.literal (.scalar n)) .zero

/-- A rule that takes branches in branches; what it does not take could not be selected. -/
def branched : Rule where
  selector := .tag "a"
  body :=
    [.ifElse .dummy (Grammar.literal (.bool true))
      [zoomed 1,
        guarded (Grammar.literal (.bool false)) [guarded (.reference .dummy .zero "A") []],
        guarded (Grammar.literal (.bool true)) [zoomed 2]]
      [guarded (.reference .dummy .zero "B") [zoomed 3]] .zero .zero,
      zoomed 4]
  span := .zero

/-- A rule in which a number is met as a condition before a variable is. -/
def misled : Rule where
  selector := .className "b"
  body :=
    [zoomed 5,
      guarded (Grammar.literal (.bool true))
        [guarded (.literal .dummy ⟨7, 8⟩ (.scalar 1)) [guarded (.reference .dummy ⟨9, 10⟩ "A") []]],
      guarded (.reference .dummy ⟨11, 12⟩ "B") []]
  span := .zero

theorem selectBranches_exact_branched :
    let flat : Rule := { branched with body := [zoomed 1, zoomed 2, zoomed 4] }
    let sheet : Sheet := ⟨[.rule branched, .rule misled, .rule misled]⟩
    ((Sheet.mk [.rule branched]).selectBranches = ⟨⟨[.rule flat]⟩, none⟩ ∧
        (∀ condition ∈ conditionsAll branched.body, condition.isBool = true) ∧
        List.Forall₂ Item.Flattens [.rule branched] [.rule flat] ∧
        (Sheet.mk [.rule flat]).Unconditional ∧
        (Sheet.mk [.rule flat]).selectBranches = ⟨⟨[.rule flat]⟩, none⟩) ∧
      sheet.selectBranches =
        ⟨⟨[.rule flat, .rule { misled with body := [] }, .rule misled]⟩,
          some (.condition ⟨7, 8⟩)⟩ ∧
      ∃ before selected r after condition, sheet.items = before ++ .rule r :: after ∧
        List.Forall₂ Item.Flattens before selected ∧
        offence? r.body = some condition ∧
        FoldError.condition ⟨7, 8⟩ = .condition condition.span ∧
        sheet.selectBranches.sheet.items = selected ++ .rule { r with body := [] } :: after := by
  intro flat sheet
  have hok : (Sheet.mk [.rule branched]).selectBranches = ⟨⟨[.rule flat]⟩, none⟩ := rfl
  have herror : sheet.selectBranches = ⟨⟨[.rule flat, .rule { misled with body := [] },
      .rule misled]⟩, some (.condition ⟨7, 8⟩)⟩ := rfl
  obtain ⟨hiff, hflattens, hagain, -⟩ := selectBranches_exact ⟨[.rule branched]⟩
  obtain ⟨-, -, -, hstuck⟩ := selectBranches_exact sheet
  have hconditions := hiff.1 (by rw [hok]) branched List.mem_cons_self
  obtain ⟨hunconditional, hsame⟩ := hagain _ hok
  exact ⟨⟨hok, hconditions, (hflattens _).1 hok, hunconditional, hsame⟩, herror,
    hstuck _ (by rw [herror])⟩

end Sheet

end TypedStyle
