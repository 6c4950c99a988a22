import TypedStyle.Proofs.Scope

/-!
# What a sheet denotes

The meaning of variables by the places where things stand, without a scope that changes along the
way, and the proof that folding computes it.

A place is described by the blocks around it, the innermost first and the sheet last, and a block
by its assignments. A declaration or a condition sees all assignments of each block around it. The
right-hand side of an assignment sees, of its own block, only the assignments in front of it.
-/

namespace TypedStyle

variable {name : String} {earlier : List Assignment} {a : Assignment}
  {around outer : List (List Assignment)} {v : Literal} {e : Expr}

/-! ## Meaning -/

/-- Among the blocks `around` a place, the name means the assignment `a`: the last one to the name
in the innermost block that assigns it. The assignments `earlier` stand in front of it in its
block, and `outer` are the blocks around that block. -/
def Means (around : List (List Assignment)) (name : String) (earlier : List Assignment)
    (a : Assignment) (outer : List (List Assignment)) : Prop :=
  ∃ inner later, around = inner ++ (earlier ++ a :: later) :: outer ∧ a.name.name = name ∧
    (∀ b ∈ later, b.name.name ≠ name) ∧ ∀ block ∈ inner, ∀ b ∈ block, b.name.name ≠ name

/-- The exact result of an operation on two literals. -/
inductive Operator.Computes : Operator → Literal → Literal → Literal → Prop
  | addPixels (m n : Int) : Computes .add (.pixel m) (.pixel n) (.pixel (m + n))
  | addPercentages (m n : Int) :
      Computes .add (.percentage m) (.percentage n) (.percentage (m + n))
  | subtractPixels (m n : Int) : Computes .subtract (.pixel m) (.pixel n) (.pixel (m - n))
  | subtractPercentages (m n : Int) :
      Computes .subtract (.percentage m) (.percentage n) (.percentage (m - n))
  | scalePixels (m n : Int) : Computes .multiply (.scalar m) (.pixel n) (.pixel (m * n))
  | pixelsScaled (m n : Int) : Computes .multiply (.pixel m) (.scalar n) (.pixel (m * n))
  | scalePercentages (m n : Int) :
      Computes .multiply (.scalar m) (.percentage n) (.percentage (m * n))
  | percentagesScaled (m n : Int) :
      Computes .multiply (.percentage m) (.scalar n) (.percentage (m * n))

/-- The literal that an expression denotes among the blocks around it. A name denotes what the
right-hand side of its assignment denotes at the place of that assignment. -/
inductive Expr.Denotes : List (List Assignment) → Expr → Literal → Prop
  | literal {around : List (List Assignment)} (id : NodeId) (span : Span) (value : Literal) :
      Denotes around (.literal id span value) value
  | reference {around outer : List (List Assignment)} {name : String} {earlier : List Assignment}
      {a : Assignment} {value : Literal} (id : NodeId) (span : Span)
      (hmeans : Means around name earlier a outer)
      (hvalue : Denotes (earlier :: outer) a.value value) :
      Denotes around (.reference id span name) value
  | operation {around : List (List Assignment)} {op : Operator} {lhs rhs : Expr}
      {a b value : Literal} (id : NodeId) (span : Span) (hlhs : Denotes around lhs a)
      (hrhs : Denotes around rhs b) (hvalue : op.Computes a b value) :
      Denotes around (.operation id span op lhs rhs) value

namespace Statement

mutual

/-- What becomes of a statement other than an assignment: its expressions give way to the literals
they denote, under their identity and span. -/
inductive FoldsTo : List (List Assignment) → Statement → Statement → Prop
  | declare {around : List (List Assignment)} {value : Expr} {v : Literal} (property : Ident)
      (span : Span) (hvalue : value.Denotes around v) :
      FoldsTo around (.declare property value span)
        (.declare property (.literal value.id value.span v) span)
  | ifThen {around : List (List Assignment)} {condition : Expr} {v : Literal}
      {body body' : List Statement} (id : NodeId) (span : Span)
      (hcondition : condition.Denotes around v)
      (hbody : FoldAll (assignments body :: around) body body') :
      FoldsTo around (.ifThen id condition body span)
        (.ifThen id (.literal condition.id condition.span v) body' span)
  | ifElse {around : List (List Assignment)} {condition : Expr} {v : Literal}
      {body body' alternative alternative' : List Statement} (id : NodeId) (elseSpan span : Span)
      (hcondition : condition.Denotes around v)
      (hbody : FoldAll (assignments body :: around) body body')
      (halternative : FoldAll (assignments alternative :: around) alternative alternative') :
      FoldsTo around (.ifElse id condition body alternative elseSpan span)
        (.ifElse id (.literal condition.id condition.span v) body' alternative' elseSpan span)

/-- What becomes of the statements of a block: the assignments go, the others are folded. -/
inductive FoldAll : List (List Assignment) → List Statement → List Statement → Prop
  | nil {around : List (List Assignment)} : FoldAll around [] []
  | assign {around : List (List Assignment)} {rest rest' : List Statement} (a : Assignment)
      (hrest : FoldAll around rest rest') : FoldAll around (.assign a :: rest) rest'
  | cons {around : List (List Assignment)} {s s' : Statement} {rest rest' : List Statement}
      (hfirst : FoldsTo around s s') (hrest : FoldAll around rest rest') :
      FoldAll around (s :: rest) (s' :: rest')

end

end Statement

/-- What becomes of the members of a sheet with the assignments `top`: the assignments go, and the
bodies of the rules are folded. -/
inductive Item.FoldAll (top : List Assignment) : List Item → List Item → Prop
  | nil : FoldAll top [] []
  | assign {rest rest' : List Item} (a : Assignment) (hrest : FoldAll top rest rest') :
      FoldAll top (.assign a :: rest) rest'
  | rule {r : Rule} {body' : List Statement} {rest rest' : List Item}
      (hbody : Statement.FoldAll [Statement.assignments r.body, top] r.body body')
      (hrest : FoldAll top rest rest') :
      FoldAll top (.rule r :: rest) (.rule { r with body := body' } :: rest')

/-- What becomes of a sheet. -/
def Sheet.FoldsTo (sheet folded : Sheet) : Prop :=
  Item.FoldAll sheet.assignments sheet.items folded.items

/-! ## There is only one meaning -/

theorem eq_of_last {earlier' later later' : List Assignment} {a' : Assignment}
    (h : earlier ++ a :: later = earlier' ++ a' :: later') (ha : a.name.name = name)
    (ha' : a'.name.name = name) (hlater : ∀ b ∈ later, b.name.name ≠ name)
    (hlater' : ∀ b ∈ later', b.name.name ≠ name) :
    earlier = earlier' ∧ a = a' := by
  -- If one of the two stood in front of the other, the other would be a later one to the name.
  induction earlier generalizing earlier' with
  | nil =>
    cases earlier' with
    | nil => simp_all
    | cons b rest =>
      obtain ⟨-, rfl⟩ : a = b ∧ later = rest ++ a' :: later' := by simpa using h
      exact absurd ha' (hlater a' (by simp))
  | cons b rest ih =>
    cases earlier' with
    | nil =>
      obtain ⟨-, rfl⟩ : b = a' ∧ rest ++ a :: later = later' := by simpa using h
      exact absurd ha (hlater' a (by simp))
    | cons b' rest' =>
      obtain ⟨rfl, hrest⟩ : b = b' ∧ rest ++ a :: later = rest' ++ a' :: later' := by simpa using h
      obtain ⟨rfl, rfl⟩ := ih hrest
      exact ⟨rfl, rfl⟩

theorem Means.unique {outer' : List (List Assignment)} {earlier' : List Assignment}
    {a' : Assignment} (h : Means around name earlier a outer)
    (h' : Means around name earlier' a' outer') :
    earlier = earlier' ∧ a = a' ∧ outer = outer' := by
  obtain ⟨inner, later, rfl, ha, hlater, hinner⟩ := h
  obtain ⟨inner', later', heq, ha', hlater', hinner'⟩ := h'
  -- Both decompositions pass over the same blocks: those in front of the first that assigns.
  induction inner generalizing inner' with
  | nil =>
    cases inner' with
    | nil =>
      obtain ⟨hblock, rfl⟩ : earlier ++ a :: later = earlier' ++ a' :: later' ∧ outer = outer' := by
        simpa using heq
      obtain ⟨rfl, rfl⟩ := eq_of_last hblock ha ha' hlater hlater'
      exact ⟨rfl, rfl, rfl⟩
    | cons block rest =>
      obtain ⟨rfl, -⟩ : earlier ++ a :: later = block ∧ _ := by simpa using heq
      exact absurd ha (hinner' _ List.mem_cons_self a (by simp))
  | cons block rest ih =>
    cases inner' with
    | nil =>
      obtain ⟨rfl, -⟩ : block = earlier' ++ a' :: later' ∧ _ := by simpa using heq
      exact absurd ha' (hinner _ List.mem_cons_self a' (by simp))
    | cons block' rest' =>
      simp only [List.cons_append, List.cons.injEq] at heq
      exact ih (fun b hb => hinner b (List.mem_cons_of_mem _ hb)) rest' heq.2
        fun b hb => hinner' b (List.mem_cons_of_mem _ hb)

theorem Operator.Computes.unique {op : Operator} {a b w : Literal} (h : op.Computes a b v)
    (h' : op.Computes a b w) : v = w := by
  cases h <;> cases h' <;> rfl

theorem Expr.Denotes.unique {w : Literal} (h : e.Denotes around v) (h' : e.Denotes around w) :
    v = w := by
  induction h generalizing w with
  | literal id span value =>
    cases h'
    rfl
  | reference id span hmeans hvalue ih =>
    cases h' with
    | reference _ _ hmeans' hvalue' =>
      obtain ⟨rfl, rfl, rfl⟩ := hmeans.unique hmeans'
      exact ih hvalue'
  | operation id span hlhs hrhs hvalue ihl ihr =>
    cases h' with
    | operation _ _ hlhs' hrhs' hvalue' =>
      obtain rfl := ihl hlhs'
      obtain rfl := ihr hrhs'
      exact hvalue.unique hvalue'

namespace Statement

theorem FoldsTo.isAssignment {around : List (List Assignment)} {s t : Statement}
    (h : FoldsTo around s t) : t.isAssignment = false := by
  cases h <;> rfl

mutual

theorem FoldsTo.unique {around : List (List Assignment)} {s t t' : Statement} :
    FoldsTo around s t → FoldsTo around s t' → t = t'
  | .declare _ _ hvalue, .declare _ _ hvalue' => by rw [hvalue.unique hvalue']
  | .ifThen _ _ hcondition hbody, .ifThen _ _ hcondition' hbody' => by
    rw [hcondition.unique hcondition', FoldAll.unique hbody hbody']
  | .ifElse _ _ _ hcondition hbody halternative,
    .ifElse _ _ _ hcondition' hbody' halternative' => by
    rw [hcondition.unique hcondition', FoldAll.unique hbody hbody',
      FoldAll.unique halternative halternative']

theorem FoldAll.unique {around : List (List Assignment)} {body t t' : List Statement} :
    FoldAll around body t → FoldAll around body t' → t = t'
  | .nil, .nil => rfl
  | .assign _ hrest, .assign _ hrest' => FoldAll.unique hrest hrest'
  | .cons hfirst hrest, .cons hfirst' hrest' => by
    rw [FoldsTo.unique hfirst hfirst', FoldAll.unique hrest hrest']

end

end Statement

theorem Item.FoldAll.unique {top : List Assignment} {items t t' : List Item}
    (h : FoldAll top items t) (h' : FoldAll top items t') : t = t' := by
  induction h generalizing t' with
  | nil =>
    cases h'
    rfl
  | assign a hrest ih =>
    cases h' with
    | assign _ hrest' => exact ih hrest'
  | rule hbody hrest ih =>
    cases h' with
    | rule hbody' hrest' => rw [hbody.unique hbody', ih hrest']

theorem Sheet.FoldsTo.unique {sheet t t' : Sheet} (h : sheet.FoldsTo t) (h' : sheet.FoldsTo t') :
    t = t' := by
  obtain ⟨items⟩ := t
  obtain ⟨items'⟩ := t'
  rw [show items = items' from Item.FoldAll.unique h h']

/-! ## Scopes keep the meaning -/

/-- What a scope says about names is what they denote among the blocks `around`. -/
def Scope.Reflects (scope : Scope Literal) (around : List (List Assignment)) : Prop :=
  ∀ name value, scope.resolve name = some value →
    ∀ id span, (Expr.reference id span name).Denotes around value

theorem Means.push (h : Means around name earlier a outer) :
    Means ([] :: around) name earlier a outer := by
  obtain ⟨inner, later, rfl, ha, hlater, hinner⟩ := h
  refine ⟨[] :: inner, later, rfl, ha, hlater, ?_⟩
  simpa using hinner

theorem Means.snoc_of_ne {block : List Assignment} {b : Assignment}
    (h : Means (block :: around) name earlier a outer) (hb : b.name.name ≠ name) :
    Means ((block ++ [b]) :: around) name earlier a outer := by
  obtain ⟨inner, later, heq, ha, hlater, hinner⟩ := h
  cases inner with
  | nil =>
    -- The name is assigned in this very block, and `b` comes later there.
    obtain ⟨rfl, rfl⟩ : block = earlier ++ a :: later ∧ around = outer := by simpa using heq
    refine ⟨[], later ++ [b], by simp, ha, ?_, by simp⟩
    intro c hc
    rcases List.mem_append.1 hc with hc | hc
    · exact hlater c hc
    · rwa [List.mem_singleton.1 hc]
  | cons first rest =>
    -- The name is assigned further out, and not in this block either with `b`.
    obtain ⟨rfl, rfl⟩ : block = first ∧ around = rest ++ (earlier ++ a :: later) :: outer := by
      simpa using heq
    refine ⟨(block ++ [b]) :: rest, later, rfl, ha, hlater, ?_⟩
    intro c hc
    rcases List.mem_cons.1 hc with rfl | hc
    · intro d hd
      rcases List.mem_append.1 hd with hd | hd
      · exact hinner block List.mem_cons_self d hd
      · rwa [List.mem_singleton.1 hd]
    · exact hinner c (List.mem_cons_of_mem _ hc)

theorem Means.snoc_self (block : List Assignment) (around : List (List Assignment))
    (a : Assignment) : Means ((block ++ [a]) :: around) a.name.name block a around :=
  ⟨[], [], rfl, rfl, by simp, by simp⟩

namespace Scope.Reflects

variable {scope : Scope Literal} {around : List (List Assignment)}

theorem empty : (Scope.empty : Scope Literal).Reflects [[]] := by
  intro name value h
  simp at h

theorem push (h : scope.Reflects around) : scope.push.Reflects ([] :: around) := by
  intro name value hname id span
  cases h name value hname id span with
  | reference _ _ hmeans hvalue => exact .reference id span hmeans.push hvalue

theorem declare {block : List Assignment} (h : scope.Reflects (block :: around)) {a : Assignment}
    {value : Literal} (hvalue : a.value.Denotes (block :: around) value) :
    (scope.declare a.name.name value).Reflects ((block ++ [a]) :: around) := by
  intro name value' hname id span
  rw [resolve_declare] at hname
  split at hname
  · next heq =>
    -- The right-hand side was evaluated in front of the assignment, where `block` ended.
    obtain rfl : value = value' := by simpa using hname
    subst heq
    exact .reference id span (.snoc_self block around a) hvalue
  · next hne =>
    cases h name value' hname id span with
    | reference _ _ hmeans hvalue' =>
      exact .reference id span (hmeans.snoc_of_ne (Ne.symm hne)) hvalue'

end Scope.Reflects

/-! ## Folding computes the meaning -/

theorem Operator.computes_of_apply {op : Operator} {node : NodeId} {span : Span} {a b : Literal}
    (h : op.apply node span a b = .ok v) : op.Computes a b v := by
  unfold apply at h
  split at h
  · next unit n hexact =>
    split at h
    · obtain rfl : unit.literal n = v := by simpa using h
      -- Only the eight combinations of units that have a result are left.
      cases op <;> cases a <;> cases b <;> simp [exactResult?] at hexact <;>
        obtain ⟨rfl, rfl⟩ := hexact <;> constructor
    · simp at h
  · simp at h

theorem Expr.denotes_of_eval {scope : Scope Literal} (hscope : scope.Reflects around)
    (h : e.eval scope = .ok v) :
    e.Denotes around v := by
  induction e generalizing v with
  | literal id span value =>
    obtain rfl : value = v := by simpa [eval] using h
    exact .literal id span value
  | reference id span name =>
    cases hname : scope.resolve name with
    | none => simp [eval, hname] at h
    | some value =>
      obtain rfl : value = v := by simpa [eval, hname] using h
      exact hscope name value hname id span
  | operation id span op lhs rhs ihl ihr =>
    cases ha : lhs.eval scope with
    | error x => simp [eval, ha] at h
    | ok a =>
      cases hb : rhs.eval scope with
      | error x => simp [eval, ha, hb] at h
      | ok b =>
        simp only [eval, ha, hb] at h
        exact .operation id span (ihl ha) (ihr hb) (Operator.computes_of_apply h)

theorem Expr.denotes_of_fold {scope : Scope Literal} (hscope : scope.Reflects around)
    {folded : Expr} (h : e.fold scope = .ok folded) :
    ∃ v, folded = .literal e.id e.span v ∧ e.Denotes around v := by
  unfold fold at h
  split at h
  · next v heval => exact ⟨v, by simpa using h.symm, denotes_of_eval hscope heval⟩
  · simp at h

namespace Folded

variable {scope : Scope Literal} {around : List (List Assignment)} {body : List Statement}

/-- Binding assignments in order keeps to their places. -/
theorem reflects_assignments {after : Scope Literal} {block : List Assignment}
    (hscope : scope.Reflects (block :: around)) {as : List Assignment}
    (h : assignments scope as = (after, none)) :
    after.Reflects ((block ++ as) :: around) := by
  induction as generalizing scope block with
  | nil =>
    obtain rfl : scope = after := by simpa [assignments] using h
    simpa using hscope
  | cons a rest ih =>
    unfold assignments at h
    split at h
    · next value heval =>
      simpa using ih (hscope.declare (Expr.denotes_of_eval hscope heval)) h
    · simp at h

theorem block_of_error_eq_none {rest : Scope Literal → Folded (List Statement)}
    (h : (block scope body rest).error = none) :
    ∃ after, assignments scope.push (Statement.assignments body) = (after, none) ∧
      (rest after).error = none ∧
      (block scope body rest).tree = (rest after).tree.filter fun s => !s.isAssignment := by
  unfold block at h ⊢
  split at h
  · simp at h
  · next after hafter =>
    cases herror : (rest after).error with
    | some e => simp [herror] at h
    | none => exact ⟨after, hafter, herror, by simp [herror]⟩

theorem foldAll_block_of (hscope : scope.Reflects around)
    (h : (block scope body fun inner => statements inner body).error = none)
    (hrest : ∀ inner, Scope.Reflects inner (Statement.assignments body :: around) →
      (statements inner body).error = none →
      Statement.FoldAll (Statement.assignments body :: around) body
        ((statements inner body).tree.filter fun s => !s.isAssignment)) :
    Statement.FoldAll (Statement.assignments body :: around) body
      (block scope body fun inner => statements inner body).tree := by
  obtain ⟨after, hafter, herror, htree⟩ := block_of_error_eq_none h
  rw [htree]
  exact hrest after (reflects_assignments hscope.push hafter) herror

mutual

theorem foldsTo_statement {scope : Scope Literal} {around : List (List Assignment)}
    (hscope : scope.Reflects around) : ∀ s : Statement, s.isAssignment = false →
      (statement scope s).error = none → Statement.FoldsTo around s (statement scope s).tree
  | .assign a, hassign, _ => by simp [Statement.isAssignment, Statement.assignment?] at hassign
  | .declare property value span, _, h => by
    cases hfold : value.fold scope with
    | error e => simp [statement, hfold] at h
    | ok folded =>
      obtain ⟨v, rfl, hvalue⟩ := Expr.denotes_of_fold hscope hfold
      simpa [statement, hfold] using .declare property span hvalue
  | .ifThen id condition body span, _, h => by
    cases hfold : condition.fold scope with
    | error e => simp [statement, hfold] at h
    | ok folded =>
      obtain ⟨v, rfl, hcondition⟩ := Expr.denotes_of_fold hscope hfold
      simp only [statement, hfold] at h ⊢
      exact .ifThen id span hcondition
        (foldAll_block_of hscope h fun inner hinner => foldAll_statements hinner body)
  | .ifElse id condition body alternative elseSpan span, _, h => by
    cases hfold : condition.fold scope with
    | error e => simp [statement, hfold] at h
    | ok folded =>
      obtain ⟨v, rfl, hcondition⟩ := Expr.denotes_of_fold hscope hfold
      -- The other branch is folded in the scope that the first one leaves, which is the same.
      simp only [statement, hfold, scope_block] at h ⊢
      split at h
      · next e herror => simp [herror] at h
      · next herror =>
        exact .ifElse id elseSpan span hcondition
          (foldAll_block_of hscope herror fun inner hinner => foldAll_statements hinner body)
          (foldAll_block_of hscope h fun inner hinner => foldAll_statements hinner alternative)

theorem foldAll_statements {scope : Scope Literal} {around : List (List Assignment)}
    (hscope : scope.Reflects around) : ∀ body : List Statement,
      (statements scope body).error = none → Statement.FoldAll around body
        ((statements scope body).tree.filter fun s => !s.isAssignment)
  | [], _ => .nil
  | s :: rest, h => by
    simp only [statements, scope_statement] at h ⊢
    split at h
    · next e herror => simp [herror] at h
    · next herror =>
      have hrest := foldAll_statements hscope rest h
      -- Assignments are still there after the walk, and are filtered out when the block ends.
      cases hassign : s.isAssignment with
      | false =>
        have hfirst := foldsTo_statement hscope s hassign herror
        simpa [herror, hfirst.isAssignment] using .cons hfirst hrest
      | true =>
        cases s with
        | assign a => exact .assign a hrest
        | _ => simp [Statement.isAssignment, Statement.assignment?] at hassign

end

theorem foldAll_block (hscope : scope.Reflects around)
    (h : (block scope body fun inner => statements inner body).error = none) :
    Statement.FoldAll (Statement.assignments body :: around) body
      (block scope body fun inner => statements inner body).tree :=
  foldAll_block_of hscope h fun _ hinner => foldAll_statements hinner body

theorem foldAll_items {top : List Assignment} (hscope : scope.Reflects [top]) {items : List Item}
    (h : (Folded.items scope items).error = none) :
    Item.FoldAll top items ((Folded.items scope items).tree.filter fun i => i.rule?.isSome) := by
  induction items with
  | nil => exact .nil
  | cons item rest ih =>
    cases item with
    | assign a => exact .assign a (ih h)
    | rule r =>
      simp only [Folded.items, scope_block] at h ⊢
      split at h
      · next e herror => simp [herror] at h
      · next herror =>
        simpa [herror, Item.rule?] using .rule (foldAll_block hscope herror) (ih h)

end Folded

theorem Sheet.foldsTo_fold {sheet : Sheet} (h : sheet.fold.error = none) :
    sheet.FoldsTo sheet.fold.sheet := by
  simp only [fold] at h ⊢
  split at h
  · simp at h
  · next scope hscope =>
    have hreflects := Folded.reflects_assignments Scope.Reflects.empty hscope
    split at h
    · simp at h
    · next herror =>
      simpa [FoldsTo, hscope, herror] using Folded.foldAll_items hreflects herror

/-- Folding is lexical scoping with exact arithmetic: a sheet that can be folded becomes the sheet
without its assignments and with the literal that each expression denotes, and no other. -/
theorem Sheet.foldsTo_iff (sheet : Sheet) (h : sheet.fold.error = none) (folded : Sheet) :
    sheet.FoldsTo folded ↔ folded = sheet.fold.sheet := by
  constructor
  · intro hfolds
    exact hfolds.unique (foldsTo_fold h)
  · rintro rfl
    exact foldsTo_fold h

/-- A rule whose inner block adds to a variable of the block around it, with a later assignment to
the same variable there. -/
def Sheet.nested : Sheet :=
  let node (n : Nat) (value : Literal) : Expr := .literal ⟨n⟩ .zero value
  let name (n : Nat) (text : String) : Expr := .reference ⟨n⟩ .zero text
  let assign (text : String) (value : Expr) : Statement := .assign ⟨⟨text, .zero⟩, value, .zero⟩
  let width (value : Expr) : Statement := .declare ⟨"width", .zero⟩ value .zero
  ⟨[.rule ⟨.tag "a",
      [width (name 0 "X"),
        assign "X" (node 1 (.pixel 3)),
        .ifThen ⟨2⟩ (node 3 (.bool true))
          [width (name 4 "X"),
            assign "X" (.operation ⟨7⟩ .zero .add (name 5 "X") (node 6 (.pixel 1)))] .zero,
        assign "X" (.operation ⟨10⟩ .zero .multiply (node 8 (.scalar 2)) (name 9 "X"))],
      .zero⟩]⟩

theorem Sheet.foldsTo_nested :
    nested.fold.error = none ∧
      nested.FoldsTo ⟨[.rule ⟨.tag "a",
        [.declare ⟨"width", .zero⟩ (.literal ⟨0⟩ .zero (.pixel 6)) .zero,
          .ifThen ⟨2⟩ (.literal ⟨3⟩ .zero (.bool true))
            [.declare ⟨"width", .zero⟩ (.literal ⟨4⟩ .zero (.pixel 7)) .zero] .zero],
        .zero⟩]⟩ :=
  have hfold : nested.fold.error = none := by decide
  ⟨hfold, (foldsTo_iff nested hfold _).2 (by rfl)⟩

end TypedStyle
