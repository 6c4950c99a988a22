import TypedStyle.Proofs.Denotation
import TypedStyle.Proofs.TypeSoundness

/-!
# Typing rules

Which type an expression has at a place, said by rules and without a scope that changes along the
way. Places are described as for the meaning of variables: by the blocks around them.
-/

namespace TypedStyle

variable {around : List (List Assignment)}

/-- No block around a place assigns the name. -/
def Unbound (around : List (List Assignment)) (name : String) : Prop :=
  ∀ block ∈ around, ∀ a ∈ block, a.name.name ≠ name

/-- Whether an expression is nothing but the name of a variable. -/
def Expr.isReference : Expr → Bool
  | reference .. => true
  | _ => false

/-- The type that a variable gets from an assigned value of a known type. -/
def Expr.boundType (value : Expr) (ty : Ty) : Ty :=
  if value.isReference then .undefined else ty

/-- The known type of an expression among the blocks around it. A name has the type that the
right-hand side of its assignment has at the place of that assignment, unless this is again a
name. -/
inductive Expr.HasType : List (List Assignment) → Expr → Ty → Prop
  | literal {around : List (List Assignment)} (id : NodeId) (span : Span) (value : Literal) :
      HasType around (.literal id span value) (.ofLiteral value)
  | reference {around outer : List (List Assignment)} {name : String} {earlier : List Assignment}
      {a : Assignment} {ty : Ty} (id : NodeId) (span : Span)
      (hmeans : Means around name earlier a outer)
      (hvalue : HasType (earlier :: outer) a.value ty) :
      HasType around (.reference id span name) (a.value.boundType ty)
  | operation {around : List (List Assignment)} {op : Operator} {lhs rhs : Expr}
      {left right ty : Ty} (id : NodeId) (span : Span) (hlhs : HasType around lhs left)
      (hrhs : HasType around rhs right) (hresult : op.result? left right = some ty) :
      HasType around (.operation id span op lhs rhs) ty

/-- An expression without a known type: a name that nothing binds, operands that do not fit, an
operand without a known type, or a name that was assigned a value without a known type. -/
inductive Expr.Untyped : List (List Assignment) → Expr → Prop
  | unbound {around : List (List Assignment)} {name : String} (id : NodeId) (span : Span)
      (hname : Unbound around name) : Untyped around (.reference id span name)
  | assigned {around outer : List (List Assignment)} {name : String} {earlier : List Assignment}
      {a : Assignment} (id : NodeId) (span : Span) (hmeans : Means around name earlier a outer)
      (hvalue : Untyped (earlier :: outer) a.value) : Untyped around (.reference id span name)
  | misfit {around : List (List Assignment)} {op : Operator} {lhs rhs : Expr} {left right : Ty}
      (id : NodeId) (span : Span) (hlhs : lhs.HasType around left)
      (hrhs : rhs.HasType around right) (hresult : op.result? left right = none) :
      Untyped around (.operation id span op lhs rhs)
  | left {around : List (List Assignment)} {lhs : Expr} (id : NodeId) (span : Span)
      (op : Operator) (rhs : Expr) (hlhs : Untyped around lhs) :
      Untyped around (.operation id span op lhs rhs)
  | right {around : List (List Assignment)} {rhs : Expr} (id : NodeId) (span : Span)
      (op : Operator) (lhs : Expr) (hrhs : Untyped around rhs) :
      Untyped around (.operation id span op lhs rhs)

/-! ## The rules exclude each other -/

theorem Means.not_unbound {outer : List (List Assignment)} {name : String}
    {earlier : List Assignment} {a : Assignment} (h : Means around name earlier a outer) :
    ¬Unbound around name := by
  obtain ⟨inner, later, rfl, ha, -, -⟩ := h
  intro hunbound
  exact hunbound (earlier ++ a :: later) (by simp) a (by simp) ha

namespace Expr

variable {around : List (List Assignment)} {e : Expr} {ty : Ty}

theorem HasType.unique {ty' : Ty} (h : e.HasType around ty) (h' : e.HasType around ty') :
    ty = ty' := by
  induction h generalizing ty' with
  | literal id span value =>
    cases h'
    rfl
  | reference id span hmeans hvalue ih =>
    cases h' with
    | reference _ _ hmeans' hvalue' =>
      obtain ⟨rfl, rfl, rfl⟩ := hmeans.unique hmeans'
      rw [ih hvalue']
  | operation id span hlhs hrhs hresult ihl ihr =>
    cases h' with
    | operation _ _ hlhs' hrhs' hresult' =>
      obtain rfl := ihl hlhs'
      obtain rfl := ihr hrhs'
      exact Option.some.inj (hresult.symm.trans hresult')

theorem HasType.ne_unknown (h : e.HasType around ty) : ty ≠ .unknown := by
  induction h with
  | literal id span value => exact Ty.ofLiteral_ne_unknown value
  | reference id span hmeans hvalue ih =>
    unfold boundType
    split
    · decide
    · exact ih
  | operation id span hlhs hrhs hresult ihl ihr => exact Operator.result?_ne_unknown hresult

theorem HasType.not_untyped (h : e.HasType around ty) : ¬e.Untyped around := by
  intro huntyped
  induction h with
  | literal id span value => cases huntyped
  | reference id span hmeans hvalue ih =>
    cases huntyped with
    | unbound _ _ hname => exact hmeans.not_unbound hname
    | assigned _ _ hmeans' hvalue' =>
      obtain ⟨rfl, rfl, rfl⟩ := hmeans.unique hmeans'
      exact ih hvalue'
  | operation id span hlhs hrhs hresult ihl ihr =>
    cases huntyped with
    | misfit _ _ hlhs' hrhs' hnone =>
      obtain rfl := hlhs.unique hlhs'
      obtain rfl := hrhs.unique hrhs'
      simp [hnone] at hresult
    | left _ _ _ _ hlhs' => exact ihl hlhs'
    | right _ _ _ _ hrhs' => exact ihr hrhs'

/-- What the checker's type says about an expression at a place: the type that the rules give it,
or that they give it none. -/
def Judged (around : List (List Assignment)) (e : Expr) (ty : Ty) : Prop :=
  if ty = .unknown then e.Untyped around else e.HasType around ty

theorem HasType.judged (h : e.HasType around ty) : e.Judged around ty := by
  simpa [Judged, h.ne_unknown] using h

theorem judged_unknown : e.Judged around .unknown ↔ e.Untyped around := by
  simp [Judged]

theorem Judged.hasType (h : e.Judged around ty) (hty : ty ≠ .unknown) : e.HasType around ty := by
  simpa [Judged, hty] using h

theorem Judged.of_means {around' : List (List Assignment)} {id : NodeId} {span : Span}
    {name : String} (h : (Expr.reference id span name).Judged around ty)
    (hmeans : ∀ {earlier a outer}, Means around name earlier a outer →
      Means around' name earlier a outer) (hunbound : Unbound around name → Unbound around' name) :
    (Expr.reference id span name).Judged around' ty := by
  by_cases hty : ty = .unknown
  · subst hty
    rw [judged_unknown] at h ⊢
    cases h with
    | unbound _ _ hname => exact .unbound id span (hunbound hname)
    | assigned _ _ hvalue hvalue' => exact .assigned id span (hmeans hvalue) hvalue'
  · cases h.hasType hty with
    | reference _ _ hvalue hvalue' =>
      exact (HasType.reference id span (hmeans hvalue) hvalue').judged

end Expr

/-! ## Scopes keep the types -/

/-- What a scope of types says about names is what the rules say among the blocks `around`. -/
structure Scope.Judges (scope : Scope Ty) (around : List (List Assignment)) : Prop where
  bound : ∀ {name ty}, scope.resolve name = some ty →
    ∀ id span, (Expr.reference id span name).Judged around ty
  unbound : ∀ {name}, scope.resolve name = none ↔ Unbound around name

theorem Checked.scope_assignment (scope : Scope Ty) (a : Assignment) :
    (assignment scope a).scope =
      scope.declare a.name.name
        (if (a.value.check scope).1 = .unknown then .unknown
          else a.value.boundType (a.value.check scope).1) := by
  have hite (ty : Ty) : (if ty = .unknown then .unknown else ty) = ty := by
    split <;> simp_all
  cases hvalue : a.value <;>
    simp [assignment, hvalue, Expr.boundType, Expr.isReference, Ty.isUnknown, hite]

theorem unbound_snoc_iff {block : List Assignment} {name : String} {a : Assignment}
    (ha : a.name.name ≠ name) :
    Unbound ((block ++ [a]) :: around) name ↔ Unbound (block :: around) name := by
  simp only [Unbound, List.forall_mem_cons, List.forall_mem_append]
  simp [ha]

namespace Scope.Judges

variable {scope : Scope Ty} {around : List (List Assignment)}

theorem empty (h : ∀ name, Unbound around name) : (Scope.empty : Scope Ty).Judges around :=
  ⟨fun hname => by simp at hname, fun {name} => by simpa using h name⟩

theorem push (h : scope.Judges around) : scope.push.Judges ([] :: around) := by
  have hunbound {name : String} : Unbound ([] :: around) name ↔ Unbound around name := by
    simp [Unbound]
  exact ⟨fun hname id span => (h.bound hname id span).of_means Means.push hunbound.2,
    h.unbound.trans hunbound.symm⟩

theorem declare {block : List Assignment} (h : scope.Judges (block :: around)) {a : Assignment}
    {ty : Ty} (hvalue : a.value.Judged (block :: around) ty) :
    (scope.declare a.name.name (if ty = .unknown then .unknown else a.value.boundType ty)).Judges
      ((block ++ [a]) :: around) := by
  have hmeans := Means.snoc_self block around a
  refine ⟨fun {name ty'} hname id span => ?_, fun {name} => ?_⟩
  · rw [resolve_declare] at hname
    split at hname
    · next heq =>
      -- The right-hand side was checked in front of the assignment, where `block` ended.
      subst heq
      obtain rfl := Option.some.inj hname
      split
      · next hty =>
        subst hty
        exact Expr.judged_unknown.2 (.assigned id span hmeans (Expr.judged_unknown.1 hvalue))
      · next hty => exact (Expr.HasType.reference id span hmeans (hvalue.hasType hty)).judged
    · next hne =>
      exact (h.bound hname id span).of_means (·.snoc_of_ne (Ne.symm hne))
        (unbound_snoc_iff (Ne.symm hne)).2
  · rw [resolve_declare]
    split
    · next heq => simpa [heq] using hmeans.not_unbound
    · next hne => rw [h.unbound, unbound_snoc_iff (Ne.symm hne)]

end Scope.Judges

/-- The checker finds the type that the rules give an expression, or that they give none. -/
theorem Expr.check_judged {scope : Scope Ty} (h : scope.Judges around) (e : Expr) :
    e.Judged around (e.check scope).1 := by
  induction e with
  | literal id span value => exact (HasType.literal id span value).judged
  | reference id span name =>
    cases hname : scope.resolve name with
    | none =>
      simp only [check, hname]
      exact judged_unknown.2 (.unbound id span (h.unbound.1 hname))
    | some ty =>
      simp only [check, hname]
      exact h.bound hname id span
  | operation id span op lhs rhs ihl ihr =>
    by_cases hleft : (lhs.check scope).1 = .unknown
    · rw [hleft, judged_unknown] at ihl
      simp only [check, hleft, Ty.isUnknown, beq_self_eq_true, Bool.true_or, ↓reduceIte]
      exact judged_unknown.2 (.left id span op rhs ihl)
    · by_cases hright : (rhs.check scope).1 = .unknown
      · rw [hright, judged_unknown] at ihr
        simp only [check, hright, Ty.isUnknown, beq_self_eq_true, Bool.or_true, ↓reduceIte]
        exact judged_unknown.2 (.right id span op lhs ihr)
      · have hlhs := ihl.hasType hleft
        have hrhs := ihr.hasType hright
        simp only [check, Ty.isUnknown, beq_iff_eq, hleft, hright, Bool.or_eq_true, or_self,
          ↓reduceIte]
        split
        · next ty hresult => exact (HasType.operation id span hlhs hrhs hresult).judged
        · next hresult => exact judged_unknown.2 (.misfit id span hlhs hrhs hresult)

theorem Checked.judges_assignments {scope : Scope Ty} {block : List Assignment}
    (h : scope.Judges (block :: around)) (as : List Assignment) :
    (assignments scope as).scope.Judges ((block ++ as) :: around) := by
  induction as generalizing scope block with
  | nil => simpa [assignments] using h
  | cons a rest ih =>
    have hfirst := h.declare (a.value.check_judged h)
    rw [← scope_assignment] at hfirst
    simpa [assignments] using ih hfirst

theorem Scope.exists_judges (around : List (List Assignment)) :
    ∃ scope : Scope Ty, scope.Judges around := by
  induction around with
  | nil => exact ⟨_, .empty fun _ => by simp [Unbound]⟩
  | cons block around ih =>
    obtain ⟨scope, hscope⟩ := ih
    exact ⟨_, Checked.judges_assignments hscope.push block⟩

/-- An expression has no known type exactly when the rules for mistakes say so. -/
theorem Expr.untyped_iff {e : Expr} : e.Untyped around ↔ ¬∃ ty, e.HasType around ty := by
  constructor
  · rintro huntyped ⟨ty, hty⟩
    exact hty.not_untyped huntyped
  · intro hnone
    obtain ⟨scope, hscope⟩ := Scope.exists_judges around
    have hjudged := e.check_judged hscope
    by_cases hty : (e.check scope).1 = .unknown
    · rwa [hty, judged_unknown] at hjudged
    · exact absurd ⟨_, hjudged.hasType hty⟩ hnone

end TypedStyle
