import TypedStyle.Proofs.CheckerExactness
import TypedStyle.Proofs.Independence

/-!
# The first result that does not fit

Folding visits a sheet site by site, in the order in which the checker lists the sites: operands
before their operation, the assignments of a block before its other members, a condition before the
branches, and both branches whichever is taken. Nothing is left out, so an operation whose result
does not fit is met wherever it stands, and what comes behind it is never looked at.
-/

namespace TypedStyle

variable {around : List (List Assignment)}

/-! ## Values in range -/

/-- The number of a literal, if it has one, is one of 64 bits. -/
def Literal.InRange : Literal → Prop
  | .pixel n | .percentage n | .scalar n => -9223372036854775808 ≤ n ∧ n ≤ 9223372036854775807
  | _ => True

/-- The value of an expression among the blocks around it: the literal that it denotes, if the
result of every operation on the way is in range. -/
inductive Expr.Evaluates : List (List Assignment) → Expr → Literal → Prop
  | literal {around : List (List Assignment)} (id : NodeId) (span : Span) (value : Literal) :
      Evaluates around (.literal id span value) value
  | reference {around outer : List (List Assignment)} {name : String} {earlier : List Assignment}
      {a : Assignment} {value : Literal} (id : NodeId) (span : Span)
      (hmeans : Means around name earlier a outer)
      (hvalue : Evaluates (earlier :: outer) a.value value) :
      Evaluates around (.reference id span name) value
  | operation {around : List (List Assignment)} {op : Operator} {lhs rhs : Expr}
      {a b value : Literal} (id : NodeId) (span : Span) (hlhs : Evaluates around lhs a)
      (hrhs : Evaluates around rhs b) (hvalue : op.Computes a b value) (hrange : value.InRange) :
      Evaluates around (.operation id span op lhs rhs) value

theorem Expr.Evaluates.denotes {e : Expr} {v : Literal} (h : e.Evaluates around v) :
    e.Denotes around v := by
  induction h with
  | literal id span value => exact .literal id span value
  | reference id span hmeans _ ih => exact .reference id span hmeans ih
  | operation id span _ _ hvalue _ ihl ihr => exact .operation id span ihl ihr hvalue

/-- The error of folding at a site whose operands have values in range and whose result is out of
it. -/
inductive Site.Overflows : Site → FoldError → Prop
  | operation {around : List (List Assignment)} {op : Operator} {lhs rhs : Expr}
      {a b value : Literal} (id : NodeId) (span : Span) (hlhs : lhs.Evaluates around a)
      (hrhs : rhs.Evaluates around b) (hvalue : op.Computes a b value)
      (hrange : ¬value.InRange) :
      Overflows (.expr around (.operation id span op lhs rhs)) (.overflow op id span)

theorem Site.Overflows.unique {s : Site} {e e' : FoldError} (h : s.Overflows e)
    (h' : s.Overflows e') : e = e' := by
  cases h
  cases h'
  rfl

/-- Nothing overflows at a site. -/
def Site.Calm (s : Site) : Prop :=
  ∀ e, ¬s.Overflows e

/-- Evaluation of an operation finds its result, in range, or says that it is out of range. -/
theorem Operator.apply_spec {op : Operator} {a b : Literal} (id : NodeId) (span : Span) :
    (∃ value, op.apply id span a b = .ok value ∧ op.Computes a b value ∧ value.InRange) ∨
    (∃ value, op.apply id span a b = .error (.overflow op id span) ∧ op.Computes a b value ∧
      ¬value.InRange) ∨
    ∃ left right, op.apply id span a b = .error (.operands op left right span) := by
  cases hexact : op.exactResult? a b with
  | none => exact .inr (.inr ⟨_, _, by simp only [apply, hexact]; rfl⟩)
  | some result =>
    obtain ⟨unit, n⟩ := result
    have hcomputes : op.Computes a b (unit.literal n) := by
      cases op <;> cases a <;> cases b <;> simp [exactResult?] at hexact <;>
        obtain ⟨rfl, rfl⟩ := hexact <;> constructor
    have hrange : (unit.literal n).InRange ↔ fits n := by
      cases unit <;> simp [LengthUnit.literal, Literal.InRange, fits]
    cases hfits : fits n with
    | true =>
      exact .inl ⟨_, by simp only [apply, hexact, hfits, if_true], hcomputes, hrange.2 hfits⟩
    | false =>
      refine .inr (.inl ⟨_, by simp [apply, hexact, hfits], hcomputes, ?_⟩)
      simp [hrange, hfits]

/-! ## Scopes keep the values -/

/-- What a scope says about names are their values among the blocks `around`. -/
def Scope.Keeps (scope : Scope Literal) (around : List (List Assignment)) : Prop :=
  ∀ name value, scope.resolve name = some value →
    ∀ id span, (Expr.reference id span name).Evaluates around value

namespace Scope.Keeps

variable {scope : Scope Literal} {around : List (List Assignment)}

theorem empty : (Scope.empty : Scope Literal).Keeps [[]] := by
  intro name value h
  simp at h

theorem push (h : scope.Keeps around) : scope.push.Keeps ([] :: around) := by
  intro name value hname id span
  cases h name value hname id span with
  | reference _ _ hmeans hvalue => exact .reference id span hmeans.push hvalue

theorem declare {block : List Assignment} (h : scope.Keeps (block :: around)) {a : Assignment}
    {value : Literal} (hvalue : a.value.Evaluates (block :: around) value) :
    (scope.declare a.name.name value).Keeps ((block ++ [a]) :: around) := by
  intro name value' hname id span
  rw [resolve_declare] at hname
  split at hname
  · next heq =>
    obtain rfl : value = value' := by simpa using hname
    subst heq
    exact .reference id span (.snoc_self block around a) hvalue
  · next hne =>
    cases h name value' hname id span with
    | reference _ _ hmeans hvalue' =>
      exact .reference id span (hmeans.snoc_of_ne (Ne.symm hne)) hvalue'

end Scope.Keeps

theorem Expr.evaluates_of_eval {scope : Scope Literal} (hscope : scope.Keeps around) {e : Expr}
    {v : Literal} (h : e.eval scope = .ok v) :
    e.Evaluates around v := by
  induction e generalizing v with
  | literal id span value =>
    obtain rfl : value = v := by simpa [eval] using h
    exact .literal id span value
  | reference id span name =>
    cases hname : scope.resolve name with
    | none => simp [eval, hname] at h
    | some value =>
      obtain rfl : value = v := by simpa [eval, hname] using h
      exact hscope name value hname id span
  | operation id span op lhs rhs ihl ihr =>
    cases ha : lhs.eval scope with
    | error x => simp [eval, ha] at h
    | ok a =>
      cases hb : rhs.eval scope with
      | error x => simp [eval, ha, hb] at h
      | ok b =>
        simp only [eval, ha, hb] at h
        obtain ⟨value, hvalue, hcomputes, hrange⟩ | ⟨_, herror, _⟩ | ⟨_, _, herror⟩ :=
          op.apply_spec (a := a) (b := b) id span
        · obtain rfl : value = v := by simpa [hvalue] using h
          exact .operation id span (ihl ha) (ihr hb) hcomputes hrange
        · simp [herror] at h
        · simp [herror] at h

/-! ## Where folding halts -/

/-- Folding sites in order ends as it has to: without an error only if none of them overflows, and
with an overflow only at the first of them that does. -/
def Halts (sites : List Site) : Option FoldError → Prop
  | none => ∀ site ∈ sites, site.Calm
  | some e => e.IsOverflow → ∃ before site after, sites = before ++ site :: after ∧
      site.Overflows e ∧ ∀ earlier ∈ before, earlier.Calm

namespace Halts

variable {sites more : List Site} {x y : Option FoldError}

theorem nil : Halts [] none := by
  intro site hsite
  simp at hsite

theorem calm {s : Site} (h : s.Calm) : Halts [s] none := by
  intro site hsite
  rwa [List.mem_singleton.1 hsite]

/-- What stands behind a site that overflows is not visited any more, and what stands behind calm
sites is visited next. -/
theorem or (h : Halts sites x) (hmore : x = none → Halts more y) :
    Halts (sites ++ more) (x.or y) := by
  cases x with
  | some e =>
    intro he
    obtain ⟨before, site, after, rfl, hsite, hbefore⟩ := h he
    exact ⟨before, site, after ++ more, by simp, hsite, hbefore⟩
  | none =>
    have hmore := hmore rfl
    rw [Option.none_or]
    cases y with
    | none =>
      intro site hsite
      exact (List.mem_append.1 hsite).elim (h site) (hmore site)
    | some e =>
      intro he
      obtain ⟨before, site, after, rfl, hsite, hbefore⟩ := hmore he
      refine ⟨sites ++ before, site, after, by simp, hsite, ?_⟩
      intro earlier hearlier
      exact (List.mem_append.1 hearlier).elim (h earlier) (hbefore earlier)

theorem stop {e : FoldError} (h : Halts sites (some e)) : Halts (sites ++ more) (some e) :=
  h.or (y := none) (by simp)

theorem flatMap {α : Type} {f : α → List Site} {g : α → Option FoldError} {as : List α}
    (h : ∀ a ∈ as, Halts (f a) (g a)) : Halts (as.flatMap f) (as.findSome? g) := by
  induction as with
  | nil => exact nil
  | cons a rest ih =>
    rw [List.flatMap_cons, List.findSome?_cons]
    have hfirst := (h a List.mem_cons_self).or fun _ =>
      ih fun b hb => h b (List.mem_cons_of_mem a hb)
    cases hg : g a with
    | none => simpa [hg] using hfirst
    | some e => simpa [hg] using hfirst

end Halts

def failure? {α : Type} : Except FoldError α → Option FoldError
  | .ok _ => none
  | .error e => some e

@[simp]
theorem failure?_ok {α : Type} (a : α) : failure? (.ok a) = none := rfl

@[simp]
theorem failure?_error {α : Type} (e : FoldError) :
    failure? (.error e : Except FoldError α) = some e := rfl

/-- The operation at a site is the last thing to be done there. -/
theorem Operator.halts_apply {op : Operator} {lhs rhs : Expr} {a b : Literal} (id : NodeId)
    (span : Span) (hlhs : lhs.Evaluates around a) (hrhs : rhs.Evaluates around b) :
    Halts [.expr around (.operation id span op lhs rhs)] (failure? (op.apply id span a b)) := by
  obtain ⟨value, hvalue, hcomputes, hrange⟩ | ⟨value, herror, hcomputes, hrange⟩ | ⟨_, _, herror⟩ :=
    op.apply_spec (a := a) (b := b) id span
  · rw [hvalue]
    apply Halts.calm
    rintro e ⟨_, _, hlhs', hrhs', hcomputes', hrange'⟩
    -- Operands have one value, so that the result out of range would be this one.
    obtain rfl := hlhs.denotes.unique hlhs'.denotes
    obtain rfl := hrhs.denotes.unique hrhs'.denotes
    exact hrange' (hcomputes.unique hcomputes' ▸ hrange)
  · rw [herror]
    intro _
    exact ⟨[], _, [], rfl, .operation id span hlhs hrhs hcomputes hrange, by simp⟩
  · rw [herror]
    rintro ⟨_, _, _, hoverflow⟩
    simp at hoverflow

theorem Expr.halts_eval {scope : Scope Literal} (hscope : scope.Keeps around) (e : Expr) :
    Halts (e.sites around) (failure? (e.eval scope)) := by
  induction e with
  | literal id span value => exact .calm (by rintro _ ⟨⟩)
  | reference id span name =>
    have hcalm : (Site.expr around (.reference id span name)).Calm := by rintro _ ⟨⟩
    cases hname : scope.resolve name with
    | some value =>
      simp only [eval, hname]
      exact .calm hcalm
    | none =>
      simp only [eval, hname]
      rintro ⟨_, _, _, hoverflow⟩
      simp at hoverflow
  | operation id span op lhs rhs ihl ihr =>
    rw [sites, List.append_assoc]
    cases ha : lhs.eval scope with
    | error x =>
      rw [ha] at ihl
      simp only [eval, ha]
      exact ihl.stop
    | ok a =>
      rw [ha] at ihl
      cases hb : rhs.eval scope with
      | error x =>
        rw [hb] at ihr
        simp only [eval, ha, hb]
        exact ihl.or fun _ => ihr.stop
      | ok b =>
        rw [hb] at ihr
        simp only [eval, ha, hb]
        exact ihl.or fun _ => ihr.or fun _ => op.halts_apply id span
          (evaluates_of_eval hscope ha) (evaluates_of_eval hscope hb)

theorem Expr.failure?_fold (scope : Scope Literal) (e : Expr) :
    failure? (e.fold scope) = failure? (e.eval scope) := by
  unfold fold
  cases e.eval scope with
  | ok value => rfl
  | error x => rfl

namespace Folded

variable {scope : Scope Literal}

theorem halts_assignments {outer : List (List Assignment)} {earlier : List Assignment}
    (hscope : scope.Keeps (earlier :: outer)) (as : List Assignment) :
    Halts (Assignment.sites outer earlier as) (assignments scope as).2 ∧
      ((assignments scope as).2 = none →
        (assignments scope as).1.Keeps ((earlier ++ as) :: outer)) := by
  induction as generalizing scope earlier with
  | nil => exact ⟨.nil, fun _ => by simpa [assignments] using hscope⟩
  | cons a rest ih =>
    have hfirst := a.value.halts_eval hscope
    cases heval : a.value.eval scope with
    | error e =>
      rw [heval] at hfirst
      simp only [assignments, heval, Assignment.sites]
      exact ⟨hfirst.stop, by simp⟩
    | ok value =>
      rw [heval] at hfirst
      obtain ⟨hrest, hkeeps⟩ := ih (hscope.declare (Expr.evaluates_of_eval hscope heval))
      simp only [assignments, heval, Assignment.sites]
      refine ⟨hfirst.or fun _ => hrest, ?_⟩
      simpa using hkeeps

theorem halts_block {around : List (List Assignment)} (hscope : scope.Keeps around)
    {body : List Statement} {others : List Site} {rest : Scope Literal → Folded (List Statement)}
    (hrest : ∀ inner : Scope Literal, inner.Keeps (Statement.assignments body :: around) →
      Halts others (rest inner).error) :
    Halts (Statement.blockSites around body others) (block scope body rest).error := by
  obtain ⟨hbound, hkeeps⟩ := halts_assignments hscope.push (Statement.assignments body)
  rw [error_block]
  exact hbound.or fun hnone => hrest _ (hkeeps hnone)

theorem error_declare (scope : Scope Literal) (property : Ident) (value : Expr) (span : Span) :
    (statement scope (.declare property value span)).error = failure? (value.eval scope) := by
  rw [← Expr.failure?_fold]
  simp only [statement]
  cases value.fold scope with
  | ok folded => rfl
  | error e => rfl

theorem error_ifThen_eq_or (scope : Scope Literal) (id : NodeId) (condition : Expr)
    (body : List Statement) (span : Span) :
    (statement scope (.ifThen id condition body span)).error =
      (failure? (condition.eval scope)).or
        (block scope body fun inner => statements inner body).error := by
  rw [error_ifThen, ← Expr.failure?_fold]
  cases condition.fold scope with
  | ok folded => rfl
  | error e => rfl

theorem error_ifElse_eq_or (scope : Scope Literal) (id : NodeId) (condition : Expr)
    (body alternative : List Statement) (elseSpan span : Span) :
    (statement scope (.ifElse id condition body alternative elseSpan span)).error =
      (statement scope (.ifThen id condition body span)).error.or
        (block scope alternative fun inner => statements inner alternative).error := by
  rw [error_ifElse, error_ifThen_eq_or, error_ifThen_eq_or]
  cases failure? (condition.eval scope) with
  | none => rfl
  | some e => rfl

theorem halts_condition {around : List (List Assignment)} (hscope : scope.Keeps around)
    (id : NodeId) (condition : Expr) :
    Halts (condition.sites around ++ [.condition around id condition])
      (failure? (condition.eval scope)) := by
  have hcalm : (Site.condition around id condition).Calm := by rintro _ ⟨⟩
  simpa using (condition.halts_eval hscope).or fun _ => .calm hcalm

mutual

theorem halts_statement {scope : Scope Literal} {around : List (List Assignment)}
    (hscope : scope.Keeps around) :
    ∀ s : Statement, Halts (s.sites around) (statement scope s).error
  | .assign a => .nil
  | .declare property value span => by
    have hcalm : (Site.declaration around property value).Calm := by rintro _ ⟨⟩
    rw [error_declare, Statement.sites]
    simpa using (value.halts_eval hscope).or fun _ => .calm hcalm
  | .ifThen id condition body span => by
    rw [error_ifThen_eq_or, Statement.sites]
    exact (halts_condition hscope id condition).or fun _ =>
      halts_block hscope fun inner hinner => halts_statements hinner body
  | .ifElse id condition body alternative elseSpan span => by
    rw [error_ifElse_eq_or, error_ifThen_eq_or, Statement.sites]
    exact ((halts_condition hscope id condition).or fun _ =>
      halts_block hscope fun inner hinner => halts_statements hinner body).or fun _ =>
        halts_block hscope fun inner hinner => halts_statements hinner alternative

theorem halts_statements {scope : Scope Literal} {around : List (List Assignment)}
    (hscope : scope.Keeps around) :
    ∀ body : List Statement, Halts (Statement.sitesAll around body) (statements scope body).error
  | [] => .nil
  | s :: rest => by
    have hfirst := halts_statement hscope s
    have hrest := halts_statements hscope rest
    rw [error_statements] at hrest ⊢
    rw [Statement.sitesAll, List.findSome?_cons]
    have hall := hfirst.or fun _ => hrest
    cases herror : (statement scope s).error with
    | none => simpa [herror] using hall
    | some e => simpa [herror] using hall

end

theorem halts_rule {top : List Assignment} (hscope : scope.Keeps [top]) (r : Rule) :
    Halts (r.sites top) (rule scope r).error :=
  halts_block hscope fun _ hinner => halts_statements hinner r.body

end Folded

namespace Sheet

variable {sheet : Sheet} {e : FoldError}

theorem halts_fold (sheet : Sheet) : Halts sheet.sites sheet.fold.error := by
  obtain ⟨hbound, hkeeps⟩ := Folded.halts_assignments Scope.Keeps.empty sheet.assignments
  rw [error_fold, sites]
  exact hbound.or fun hnone => .flatMap fun r _ => Folded.halts_rule (hkeeps hnone) r

/-- The error of the first site of a sheet that overflows. -/
def FirstOverflow (sheet : Sheet) (e : FoldError) : Prop :=
  ∃ before site after, sheet.sites = before ++ site :: after ∧ site.Overflows e ∧
    ∀ earlier ∈ before, earlier.Calm

theorem FirstOverflow.unique {e' : FoldError} (h : sheet.FirstOverflow e)
    (h' : sheet.FirstOverflow e') : e = e' := by
  obtain ⟨before, site, after, hsites, hsite, hbefore⟩ := h
  obtain ⟨before', site', after', hsites', hsite', hbefore'⟩ := h'
  -- If one of the two stood in front of the other, it would be calm.
  obtain ⟨mid, hmid, htail⟩ | ⟨mid, hmid, htail⟩ :=
    List.append_eq_append_iff.1 (hsites.symm.trans hsites')
  · cases mid with
    | nil =>
      obtain ⟨rfl, -⟩ := List.cons.inj htail
      exact hsite.unique hsite'
    | cons s rest =>
      obtain ⟨rfl, -⟩ := List.cons.inj htail
      exact absurd hsite (hbefore' site (by simp [hmid]) e)
  · cases mid with
    | nil =>
      obtain ⟨rfl, -⟩ := List.cons.inj htail
      exact hsite.unique hsite'
    | cons s rest =>
      obtain ⟨rfl, -⟩ := List.cons.inj htail
      exact absurd hsite' (hbefore site' (by simp [hmid]) e')

theorem firstOverflow_of_error (h : sheet.analyze = []) (herror : sheet.fold.error = some e) :
    sheet.FirstOverflow e := by
  have hhalts := sheet.halts_fold
  have hoverflow := sheet.fold_settles h
  rw [herror] at hhalts hoverflow
  exact hhalts hoverflow

theorem exists_error_of_overflows {site : Site} (hsite : site ∈ sheet.sites)
    (he : site.Overflows e) : ∃ x, sheet.fold.error = some x := by
  have hhalts := sheet.halts_fold
  cases herror : sheet.fold.error with
  | some x => exact ⟨x, rfl⟩
  | none =>
    rw [herror] at hhalts
    exact absurd he (hhalts site hsite e)

theorem error_eq_some_iff (h : sheet.analyze = []) (e : FoldError) :
    sheet.fold.error = some e ↔ sheet.FirstOverflow e := by
  refine ⟨firstOverflow_of_error h, ?_⟩
  intro hfirst
  obtain ⟨before, site, after, hsites, hsite, -⟩ := id hfirst
  have hmem : site ∈ sheet.sites := by simp [hsites]
  obtain ⟨x, hx⟩ := exists_error_of_overflows hmem hsite
  rw [hx, hfirst.unique (firstOverflow_of_error h hx)]

/-- Overflow is exact. A sheet in which the checker finds nothing cannot be folded exactly if some
operation of it, wherever it stands, has operands with values in range and a result out of range.
The error names the first such operation in the order of evaluation, and it is reported in a single
diagnostic, whether branches are selected or not. -/
theorem overflow_exact (sheet : Sheet) (h : sheet.analyze = []) :
    (sheet.fold.error ≠ none ↔ ∃ site ∈ sheet.sites, ∃ e, site.Overflows e) ∧
    (∀ e, sheet.fold.error = some e ↔ sheet.FirstOverflow e) ∧
    ∀ e, sheet.fold.error = some e → ∃ op id span, e = .overflow op id span ∧
      ∀ options, (sheet.finish options).error =
        some (.diagnostics [.ofNode id span (.overflow op)]) := by
  refine ⟨⟨?_, ?_⟩, error_eq_some_iff h, ?_⟩
  · intro hne
    obtain ⟨e, he⟩ := Option.ne_none_iff_exists'.1 hne
    obtain ⟨before, site, after, hsites, hsite, -⟩ := firstOverflow_of_error h he
    exact ⟨site, by simp [hsites], e, hsite⟩
  · rintro ⟨site, hsite, e, he⟩
    obtain ⟨x, hx⟩ := exists_error_of_overflows hsite he
    simp [hx]
  · intro e he
    obtain ⟨_, _, _, _, hsite, -⟩ := firstOverflow_of_error h he
    cases hsite with
    | operation id span _ _ _ _ =>
      refine ⟨_, id, span, rfl, ?_⟩
      intro options
      simp [finish, he, CompileError.ofFold]

/-- The largest number of pixels is doubled in a variable that nothing uses, in a branch that is not
taken, in front of a declaration that adds to it. -/
def brimming : Sheet :=
  let node (n : Nat) (value : Literal) : Expr := .literal ⟨n⟩ .zero value
  let name (n : Nat) (text : String) : Expr := .reference ⟨n⟩ .zero text
  ⟨[.assign ⟨⟨"MOST", .zero⟩, node 0 (.pixel 9223372036854775807), .zero⟩,
    .rule ⟨.tag "a",
      [.ifThen ⟨1⟩ (node 2 (.bool false))
          [.declare ⟨"width", .zero⟩
              (.operation ⟨5⟩ ⟨5, 8⟩ .add (name 3 "MOST") (node 4 (.pixel 1))) .zero,
            .assign ⟨⟨"TWICE", .zero⟩,
              .operation ⟨8⟩ ⟨10, 18⟩ .multiply (node 6 (.scalar 2)) (name 7 "MOST"), .zero⟩]
          .zero],
      .zero⟩]⟩

/-- The product is met first: the assignments of a block come before its declarations. -/
theorem overflow_exact_brimming :
    brimming.analyze = [] ∧ brimming.FirstOverflow (.overflow .multiply ⟨8⟩ ⟨10, 18⟩) ∧
      (brimming.finish ⟨true⟩).error =
        some (.diagnostics [.ofNode ⟨8⟩ ⟨10, 18⟩ (.overflow .multiply)]) := by
  have hclean : brimming.analyze = [] := by decide
  have herror : brimming.fold.error = some (.overflow .multiply ⟨8⟩ ⟨10, 18⟩) := by decide
  obtain ⟨-, hfirst, hreport⟩ := overflow_exact brimming hclean
  obtain ⟨op, id, span, heq, hfinish⟩ := hreport _ herror
  obtain ⟨rfl, rfl, rfl⟩ := FoldError.overflow.inj heq
  exact ⟨hclean, (hfirst _).1 herror, hfinish ⟨true⟩⟩

end Sheet

end TypedStyle
