import Mathlib.Data.List.Perm.Subperm
import TypedStyle.Proofs.Nodes
import TypedStyle.Proofs.TypingRules

/-!
# The checker reports every mistake once

The checker looks at a sheet site by site: at every node of an expression, and at every declaration
and condition after its expression. `sites` lists them in the order of checking, each with the
blocks around it. In a sheet and in every block the assignments come first.
-/

namespace TypedStyle

variable {ds : List Diagnostic}

/-! ## Sites -/

/-- A point of a sheet at which the checker looks. -/
inductive Site where
  | expr (around : List (List Assignment)) (e : Expr)
  | declaration (around : List (List Assignment)) (property : Ident) (value : Expr)
  | condition (around : List (List Assignment)) (id : NodeId) (value : Expr)

/-- The sites of an expression, operands first. -/
def Expr.sites (around : List (List Assignment)) : Expr → List Site
  | literal id span value => [.expr around (literal id span value)]
  | reference id span name => [.expr around (reference id span name)]
  | operation id span op lhs rhs =>
    lhs.sites around ++ rhs.sites around ++ [.expr around (operation id span op lhs rhs)]

/-- The sites of assignments that stand, one after the other, behind `earlier` ones of their
block. -/
def Assignment.sites (outer : List (List Assignment)) (earlier : List Assignment) :
    List Assignment → List Site
  | [] => []
  | a :: rest => a.value.sites (earlier :: outer) ++ sites outer (earlier ++ [a]) rest

namespace Statement

/-- The sites of a block: those of its assignments, and those of its other members. -/
def blockSites (around : List (List Assignment)) (body : List Statement) (others : List Site) :
    List Site :=
  Assignment.sites around [] (assignments body) ++ others

mutual

/-- The sites of a statement other than an assignment. -/
def sites (around : List (List Assignment)) : Statement → List Site
  | assign _ => []
  | declare property value _ => value.sites around ++ [.declaration around property value]
  | ifThen id condition body _ =>
    condition.sites around ++ [.condition around id condition] ++
      blockSites around body (sitesAll (assignments body :: around) body)
  | ifElse id condition body alternative _ _ =>
    condition.sites around ++ [.condition around id condition] ++
      blockSites around body (sitesAll (assignments body :: around) body) ++
      blockSites around alternative (sitesAll (assignments alternative :: around) alternative)

/-- The sites of the statements of a block other than its assignments. -/
def sitesAll (around : List (List Assignment)) : List Statement → List Site
  | [] => []
  | s :: rest => s.sites around ++ sitesAll around rest

end

end Statement

/-- The sites of a rule in a sheet with the assignments `top`. -/
def Rule.sites (top : List Assignment) (r : Rule) : List Site :=
  Statement.blockSites [top] r.body (Statement.sitesAll [Statement.assignments r.body, top] r.body)

def Sheet.sites (sheet : Sheet) : List Site :=
  Assignment.sites [] [] sheet.assignments ++ sheet.rules.flatMap (Rule.sites sheet.assignments)

/-! ## Mistakes -/

/-- What is wrong at a site. A mistake in an expression of no known type is found where the type
was lost, and nowhere else. -/
inductive Site.Violates : Site → Diagnostic → Prop
  | unbound {around : List (List Assignment)} {name : String} (id : NodeId) (span : Span)
      (hname : Unbound around name) :
      Violates (.expr around (.reference id span name)) (.ofNode id span (.unboundVariable name))
  | operands {around : List (List Assignment)} {op : Operator} {lhs rhs : Expr} {left right : Ty}
      (id : NodeId) (span : Span) (hlhs : lhs.HasType around left)
      (hrhs : rhs.HasType around right) (hresult : op.result? left right = none) :
      Violates (.expr around (.operation id span op lhs rhs)) (.ofNode id span .badOperands)
  | property {around : List (List Assignment)} {value : Expr} {ty : Ty} {types : List Ty}
      (property : Ident) (hvalue : value.HasType around ty)
      (hallowed : Ty.allowed? property.name = some types) (hty : ty ∉ types) :
      Violates (.declaration around property value)
        (.ofNode value.id value.span (.badProperty property.name))
  | condition {around : List (List Assignment)} {value : Expr} {ty : Ty} (id : NodeId)
      (hvalue : value.HasType around ty) (hty : ty ≠ .bool) :
      Violates (.condition around id value) (.ofNode id value.span .badCondition)

/-- Nothing is wrong at a site. -/
def Site.Quiet (s : Site) : Prop :=
  ∀ d, ¬s.Violates d

/-- The diagnostics of sites: one for each site with a mistake, in order, and no other. -/
inductive Reports : List Site → List Diagnostic → Prop
  | nil : Reports [] []
  | quiet {s : Site} {rest : List Site} {ds : List Diagnostic} (hquiet : s.Quiet)
      (hrest : Reports rest ds) : Reports (s :: rest) ds
  | found {s : Site} {d : Diagnostic} {rest : List Site} {ds : List Diagnostic}
      (hfound : s.Violates d) (hrest : Reports rest ds) : Reports (s :: rest) (d :: ds)

theorem Site.Violates.unique {s : Site} {d d' : Diagnostic} (h : s.Violates d)
    (h' : s.Violates d') : d = d' := by
  cases h <;> cases h' <;> rfl

namespace Reports

variable {ds : List Diagnostic}

theorem unique {sites : List Site} {ds' : List Diagnostic} (h : Reports sites ds)
    (h' : Reports sites ds') : ds = ds' := by
  induction h generalizing ds' with
  | nil =>
    cases h'
    rfl
  | quiet hquiet hrest ih =>
    cases h' with
    | quiet _ hrest' => exact ih hrest'
    | found hfound' _ => exact absurd hfound' (hquiet _)
  | found hfound hrest ih =>
    cases h' with
    | quiet hquiet' _ => exact absurd hfound (hquiet' _)
    | found hfound' hrest' => rw [hfound.unique hfound', ih hrest']

theorem append {sites sites' : List Site} {ds' : List Diagnostic} (h : Reports sites ds)
    (h' : Reports sites' ds') : Reports (sites ++ sites') (ds ++ ds') := by
  induction h with
  | nil => exact h'
  | quiet hquiet hrest ih => exact .quiet hquiet ih
  | found hfound hrest ih => exact .found hfound ih

theorem of_append {sites sites' : List Site} (h : Reports (sites ++ sites') ds) :
    ∃ first last, ds = first ++ last ∧ Reports sites first ∧ Reports sites' last := by
  induction sites generalizing ds with
  | nil => exact ⟨[], ds, rfl, .nil, h⟩
  | cons s sites ih =>
    cases h with
    | quiet hquiet hrest =>
      obtain ⟨first, last, rfl, hfirst, hlast⟩ := ih hrest
      exact ⟨first, last, rfl, .quiet hquiet hfirst, hlast⟩
    | found hfound hrest =>
      obtain ⟨first, last, rfl, hfirst, hlast⟩ := ih hrest
      exact ⟨_ :: first, last, rfl, .found hfound hfirst, hlast⟩

theorem snoc_quiet {sites : List Site} (h : Reports sites ds) {s : Site} (hs : s.Quiet) :
    Reports (sites ++ [s]) ds := by
  simpa using h.append (.quiet hs .nil)

theorem snoc_found {sites : List Site} (h : Reports sites ds) {s : Site} {d : Diagnostic}
    (hs : s.Violates d) : Reports (sites ++ [s]) (ds ++ [d]) :=
  h.append (.found hs .nil)

end Reports

/-! ## The walk of the checker -/

theorem Expr.reports_check {scope : Scope Ty} {around : List (List Assignment)}
    (h : scope.Judges around) (e : Expr) : Reports (e.sites around) (e.check scope).2 := by
  induction e with
  | literal id span value => exact .quiet (by rintro d ⟨⟩) .nil
  | reference id span name =>
    cases hname : scope.resolve name with
    | none =>
      simp only [check, hname]
      exact .found (.unbound id span (h.unbound.1 hname)) .nil
    | some ty =>
      simp only [check, hname]
      refine .quiet ?_ .nil
      intro d hviolates
      cases hviolates with
      | unbound _ _ hunbound => simp [h.unbound.2 hunbound] at hname
  | operation id span op lhs rhs ihl ihr =>
    have hoperands := ihl.append ihr
    have hleft := lhs.check_judged h
    have hright := rhs.check_judged h
    simp only [check, Ty.isUnknown, Bool.or_eq_true, beq_iff_eq]
    split
    · next hunknown =>
      -- The mistake is reported where the type of the operand was lost.
      refine hoperands.snoc_quiet ?_
      intro d hviolates
      cases hviolates with
      | operands _ _ hlhs hrhs _ =>
        rcases hunknown with hunknown | hunknown
        · exact hlhs.not_untyped (judged_unknown.1 (hunknown ▸ hleft))
        · exact hrhs.not_untyped (judged_unknown.1 (hunknown ▸ hright))
    · next hknown =>
      rw [not_or] at hknown
      have hlhs := hleft.hasType hknown.1
      have hrhs := hright.hasType hknown.2
      split
      · next ty hresult =>
        refine hoperands.snoc_quiet ?_
        intro d hviolates
        cases hviolates with
        | operands _ _ hlhs' hrhs' hnone =>
          rw [hlhs.unique hlhs', hrhs.unique hrhs', hnone] at hresult
          simp at hresult
      · next hresult => exact hoperands.snoc_found (.operands id span hlhs hrhs hresult)

namespace Checked

variable {scope : Scope Ty} {around : List (List Assignment)}

theorem reports_declaration (h : scope.Judges around) (property : Ident) (value : Expr) :
    Reports (value.sites around ++ [.declaration around property value])
      (declaration scope property value) := by
  have hvalue := value.reports_check h
  have hjudged := value.check_judged h
  rcases hcheck : value.check scope with ⟨ty, found⟩
  rw [hcheck] at hvalue hjudged
  simp only [declaration, hcheck, Ty.isUnknown, beq_iff_eq]
  split
  · next hunknown =>
    subst hunknown
    refine hvalue.snoc_quiet ?_
    intro d hviolates
    cases hviolates with
    | property _ hty _ _ => exact hty.not_untyped (Expr.judged_unknown.1 hjudged)
  · next hknown =>
    have hty := hjudged.hasType hknown
    split
    · next types hallowed =>
      split
      · next hmem =>
        refine hvalue.snoc_quiet ?_
        intro d hviolates
        cases hviolates with
        | property _ hty' hallowed' hnot =>
          obtain rfl := Option.some.inj (hallowed.symm.trans hallowed')
          exact hnot (hty.unique hty' ▸ hmem)
      · next hnot => exact hvalue.snoc_found (.property property hty hallowed hnot)
    · next hallowed =>
      refine hvalue.snoc_quiet ?_
      intro d hviolates
      cases hviolates with
      | property _ _ hallowed' _ => simp [hallowed] at hallowed'

theorem reports_condition (h : scope.Judges around) (id : NodeId) (value : Expr) :
    Reports (value.sites around ++ [.condition around id value]) (condition scope id value) := by
  have hvalue := value.reports_check h
  have hjudged := value.check_judged h
  rcases hcheck : value.check scope with ⟨ty, found⟩
  rw [hcheck] at hvalue hjudged
  simp only [condition, hcheck, Ty.isUnknown, Bool.or_eq_true, beq_iff_eq, decide_eq_true_eq]
  split
  · next hfine =>
    refine hvalue.snoc_quiet ?_
    intro d hviolates
    cases hviolates with
    | condition _ hty hbool =>
      rcases hfine with rfl | rfl
      · exact hty.not_untyped (Expr.judged_unknown.1 hjudged)
      · exact hbool (hty.unique (hjudged.hasType Ty.noConfusion))
  · next hwrong =>
    rw [not_or] at hwrong
    exact hvalue.snoc_found (.condition id (hjudged.hasType hwrong.1) hwrong.2)

theorem reports_assignments {earlier : List Assignment} {outer : List (List Assignment)}
    (h : scope.Judges (earlier :: outer)) (as : List Assignment) :
    Reports (Assignment.sites outer earlier as) (assignments scope as).diagnostics := by
  induction as generalizing scope earlier with
  | nil => exact .nil
  | cons a rest ih =>
    exact (a.value.reports_check h).append (ih (judges_assignments h [a]))

theorem reports_block_of (h : scope.Judges around) (body : List Statement)
    (hrest : ∀ inner, Scope.Judges inner (Statement.assignments body :: around) →
      Reports (Statement.sitesAll (Statement.assignments body :: around) body)
        (statements inner body).diagnostics) :
    Reports (Statement.blockSites around body
        (Statement.sitesAll (Statement.assignments body :: around) body))
      (block scope body fun inner => statements inner body).diagnostics :=
  (reports_assignments h.push _).append (hrest _ (judges_assignments h.push _))

mutual

theorem reports_statement {scope : Scope Ty} {around : List (List Assignment)}
    (h : scope.Judges around) :
    ∀ s, Reports (Statement.sites around s) (statement scope s).diagnostics
  | .assign _ => .nil
  | .declare property value _ => reports_declaration h property value
  | .ifThen id condition body _ =>
    (reports_condition h id condition).append
      (reports_block_of h body fun _ hinner => reports_statements hinner body)
  | .ifElse id condition body alternative _ _ => by
    have htaken := reports_block_of h body fun _ hinner => reports_statements hinner body
    have hother := reports_block_of h alternative fun _ hinner =>
      reports_statements hinner alternative
    simp only [statement, scope_block]
    exact ((reports_condition h id condition).append htaken).append hother

theorem reports_statements {scope : Scope Ty} {around : List (List Assignment)}
    (h : scope.Judges around) :
    ∀ body, Reports (Statement.sitesAll around body) (statements scope body).diagnostics
  | [] => .nil
  | s :: rest => by
    simp only [statements, scope_statement]
    exact (reports_statement h s).append (reports_statements h rest)

end

theorem reports_rules {top : List Assignment} (h : scope.Judges [top]) (rs : List Rule) :
    Reports (rs.flatMap (Rule.sites top)) (rules scope rs).diagnostics := by
  induction rs with
  | nil => exact .nil
  | cons r rest ih =>
    have hfirst := reports_block_of h r.body fun _ hinner => reports_statements hinner r.body
    simp only [rules, scope_block, List.flatMap_cons]
    exact hfirst.append ih

end Checked

theorem Sheet.reports_violations (sheet : Sheet) : Reports sheet.sites sheet.violations := by
  have hstart : (Scope.empty : Scope Ty).Judges [[]] := .empty fun _ => by simp [Unbound]
  exact (Checked.reports_assignments hstart _).append
    (Checked.reports_rules (Checked.judges_assignments hstart _) _)

/-! ## One diagnostic for each node -/

/-- The node that a mistake at a site belongs to, with the span it is reported under. -/
def Site.node : Site → NodeId × Span
  | expr _ e => (e.id, e.span)
  | declaration _ _ value => (value.id, value.span)
  | condition _ id value => (id, value.span)

def Diagnostic.IsAt (d : Diagnostic) (x : NodeId × Span) : Prop :=
  d.node = some x.1 ∧ d.span = x.2

theorem Site.Violates.isAt {s : Site} {d : Diagnostic} (h : s.Violates d) : d.IsAt s.node := by
  cases h <;> exact ⟨rfl, rfl⟩

/-- The diagnostics are bound to nodes of the list, and to each of them at most once. -/
def Placed (ds : List Diagnostic) (nodes : List (NodeId × Span)) : Prop :=
  ∃ found, List.Forall₂ Diagnostic.IsAt ds found ∧ found.Subperm nodes

namespace Placed

theorem nil (nodes : List (NodeId × Span)) : Placed [] nodes :=
  ⟨[], .nil, List.nil_subperm⟩

theorem mono {ds : List Diagnostic} {nodes nodes' : List (NodeId × Span)} (h : Placed ds nodes)
    (hsub : nodes.Subperm nodes') : Placed ds nodes' := by
  obtain ⟨found, hfound, hnodes⟩ := h
  exact ⟨found, hfound, hnodes.trans hsub⟩

theorem append {ds ds' : List Diagnostic} {nodes nodes' : List (NodeId × Span)}
    (h : Placed ds nodes) (h' : Placed ds' nodes') : Placed (ds ++ ds') (nodes ++ nodes') := by
  obtain ⟨found, hfound, hnodes⟩ := h
  obtain ⟨found', hfound', hnodes'⟩ := h'
  exact ⟨found ++ found', List.rel_append hfound hfound', hnodes.append hnodes'⟩

end Placed

theorem Reports.placed {sites : List Site} (h : Reports sites ds) :
    Placed ds (sites.map Site.node) := by
  induction h with
  | nil => exact .nil _
  | quiet hquiet hrest ih => exact ih.mono (List.sublist_cons_self _ _).subperm
  | found hfound hrest ih =>
    obtain ⟨found, hall, hsub⟩ := ih
    exact ⟨_ :: found, .cons hfound.isAt hall, (List.subperm_cons _).2 hsub⟩

theorem Expr.map_node_sites (around : List (List Assignment)) (e : Expr) :
    (e.sites around).map Site.node = e.nodes := by
  induction e with
  | literal => rfl
  | reference => rfl
  | operation id span op lhs rhs ihl ihr =>
    rw [sites, List.map_append, List.map_append, ihl, ihr]
    rfl

theorem Expr.HasType.reports_nil {around : List (List Assignment)} {e : Expr} {ty : Ty}
    (h : e.HasType around ty) : Reports (e.sites around) [] := by
  induction h with
  | literal id span value => exact .quiet (by rintro d ⟨⟩) .nil
  | reference id span hmeans hvalue ih =>
    refine .quiet ?_ .nil
    intro d hviolates
    cases hviolates with
    | unbound _ _ hunbound => exact hmeans.not_unbound hunbound
  | operation id span hlhs hrhs hresult ihl ihr =>
    refine (ihl.append ihr).snoc_quiet ?_
    intro d hviolates
    cases hviolates with
    | operands _ _ hlhs' hrhs' hnone =>
      rw [hlhs.unique hlhs', hrhs.unique hrhs', hnone] at hresult
      simp at hresult

namespace Statement

variable {around : List (List Assignment)} {ds : List Diagnostic}

theorem placed_declaration {property : Ident} {value : Expr}
    (h : Reports (value.sites around ++ [.declaration around property value]) ds) :
    Placed ds value.nodes := by
  obtain ⟨first, last, rfl, hfirst, hlast⟩ := h.of_append
  cases hlast with
  | quiet hquiet hrest =>
    cases hrest
    simpa [value.map_node_sites around] using hfirst.placed
  | found hfound hrest =>
    cases hrest
    cases hfound with
    | property _ hvalue _ _ =>
      obtain rfl := hfirst.unique hvalue.reports_nil
      exact ⟨[(value.id, value.span)], .cons ⟨rfl, rfl⟩ .nil,
        List.singleton_subperm_iff.2 value.mem_nodes_self⟩

theorem placed_condition {id : NodeId} {value : Expr}
    (h : Reports (value.sites around ++ [.condition around id value]) ds) :
    Placed ds ((id, value.span) :: value.nodes) := by
  have hplaced := h.placed
  rw [List.map_append, value.map_node_sites around] at hplaced
  exact hplaced.mono (List.perm_append_comm.subperm)

theorem placed_assignments {outer : List (List Assignment)} {earlier as : List Assignment}
    (h : Reports (Assignment.sites outer earlier as) ds) :
    Placed ds (as.flatMap fun a => a.value.nodes) := by
  induction as generalizing earlier ds with
  | nil =>
    cases h
    exact .nil _
  | cons a rest ih =>
    obtain ⟨first, last, rfl, hfirst, hlast⟩ := h.of_append
    have hplaced := hfirst.placed
    rw [a.value.map_node_sites] at hplaced
    exact hplaced.append (ih hlast)

/-- The members of a block other than its assignments. -/
def others (body : List Statement) : List Statement :=
  body.filter fun s => !s.isAssignment

theorem nodes_perm (body : List Statement) :
    ((assignments body).flatMap (fun a => a.value.nodes) ++ nodesAll (others body)).Perm
      (nodesAll body) := by
  have hassign : (assignments body).flatMap (fun a => a.value.nodes) =
      nodesAll (body.filter isAssignment) := by
    induction body with
    | nil => rfl
    | cons s rest ih =>
      cases s with
      | assign a => exact congrArg (a.value.nodes ++ ·) ih
      | _ => exact ih
  rw [hassign, nodesAll_eq_flatMap, nodesAll_eq_flatMap, nodesAll_eq_flatMap,
    ← List.flatMap_append]
  exact (List.filter_append_perm _ _).flatMap_right _

theorem placed_block_of {body : List Statement}
    (h : Reports (blockSites around body (sitesAll (assignments body :: around) body)) ds)
    (hothers : ∀ ds, Reports (sitesAll (assignments body :: around) body) ds →
      Placed ds (nodesAll (others body))) : Placed ds (nodesAll body) := by
  obtain ⟨first, last, rfl, hfirst, hlast⟩ := h.of_append
  exact ((placed_assignments hfirst).append (hothers last hlast)).mono (nodes_perm body).subperm

mutual

theorem placed_statement {around : List (List Assignment)} :
    ∀ (s : Statement) {ds : List Diagnostic}, Reports (s.sites around) ds → Placed ds s.nodes
  | .assign _, _, .nil => .nil _
  | .declare _ _ _, _, h => placed_declaration h
  | .ifThen id condition body _, ds, h => by
    obtain ⟨first, last, rfl, hfirst, hlast⟩ := h.of_append
    have hbody := placed_block_of hlast fun _ => placed_statements body
    exact (placed_condition hfirst).append hbody
  | .ifElse id condition body alternative _ _, ds, h => by
    obtain ⟨front, last, rfl, hfront, hlast⟩ := h.of_append
    obtain ⟨first, middle, rfl, hfirst, hmiddle⟩ := hfront.of_append
    have hbody := placed_block_of hmiddle fun _ => placed_statements body
    have halternative := placed_block_of hlast fun _ => placed_statements alternative
    exact ((placed_condition hfirst).append hbody).append halternative

theorem placed_statements {around : List (List Assignment)} :
    ∀ (body : List Statement) {ds : List Diagnostic}, Reports (sitesAll around body) ds →
      Placed ds (nodesAll (others body))
  | [], _, .nil => .nil _
  | s :: rest, ds, h => by
    obtain ⟨first, last, rfl, hfirst, hlast⟩ := h.of_append
    have hplaced := placed_statement s hfirst
    have hrest := placed_statements rest hlast
    cases s with
    | assign a =>
      -- An assignment has been looked at before, and is not looked at again.
      cases hfirst
      exact hrest
    | _ => exact hplaced.append hrest

end

end Statement

namespace Sheet

theorem nodes_perm (sheet : Sheet) :
    (sheet.assignments.flatMap (fun a => a.value.nodes) ++
      sheet.rules.flatMap fun r => Statement.nodesAll r.body).Perm sheet.nodes := by
  obtain ⟨items⟩ := sheet
  induction items with
  | nil => exact .nil
  | cons item rest ih =>
    cases item with
    | assign a =>
      change ((a.value.nodes ++ _) ++ _).Perm _
      rw [List.append_assoc]
      exact ih.append_left a.value.nodes
    | rule r =>
      exact (List.perm_append_comm_assoc _ _ _).trans (ih.append_left (Statement.nodesAll r.body))

theorem placed_rules {top : List Assignment} {rs : List Rule} {ds : List Diagnostic}
    (h : Reports (rs.flatMap (Rule.sites top)) ds) :
    Placed ds (rs.flatMap fun r => Statement.nodesAll r.body) := by
  induction rs generalizing ds with
  | nil =>
    cases h
    exact .nil _
  | cons r rest ih =>
    obtain ⟨first, last, rfl, hfirst, hlast⟩ := h.of_append
    have hbody := Statement.placed_block_of hfirst fun _ => Statement.placed_statements r.body
    exact hbody.append (ih hlast)

theorem placed_violations (sheet : Sheet) : Placed sheet.violations sheet.nodes := by
  obtain ⟨first, last, hds, hfirst, hlast⟩ := sheet.reports_violations.of_append
  rw [hds]
  exact ((Statement.placed_assignments hfirst).append (placed_rules hlast)).mono
    sheet.nodes_perm.subperm

/-- No two nodes of a sheet have the same number. Nodes without a number do not count. -/
def DistinctIds (sheet : Sheet) : Prop :=
  (sheet.ids.filter (· ≠ .dummy)).Nodup

instance (sheet : Sheet) : Decidable sheet.DistinctIds :=
  inferInstanceAs (Decidable (List.Nodup _))

end Sheet

theorem Diagnostic.oncePerNode_eq_self {seen : List NodeId}
    (h : (seen ++ (ds.filterMap node).filter (· ≠ .dummy)).Nodup) : oncePerNode seen ds = ds := by
  induction ds generalizing seen with
  | nil => rfl
  | cons d rest ih =>
    simp only [oncePerNode]
    split
    · next hnode => rw [ih (by simpa [hnode] using h)]
    · next node hnode =>
      rw [List.filterMap_cons_some hnode] at h
      split
      · next hdummy => rw [ih (by simpa [hdummy] using h)]
      · next hproper =>
        rw [List.filter_cons_of_pos (by simpa using hproper)] at h
        have hnext := List.perm_middle.nodup_iff.1 h
        have hfresh : node ∉ seen := fun hseen =>
          (List.nodup_cons.1 hnext).1 (List.mem_append_left _ hseen)
        rw [if_neg hfresh, ih hnext]

theorem Placed.subperm_node {nodes : List (NodeId × Span)} (h : Placed ds nodes) :
    (ds.filterMap Diagnostic.node).Subperm (nodes.map Prod.fst) := by
  obtain ⟨found, hfound, front, hperm, hsub⟩ := h
  have heq : ds.filterMap Diagnostic.node = found.map Prod.fst := by
    clear hperm
    induction hfound with
    | nil => rfl
    | cons hd hrest ih => rw [List.filterMap_cons_some hd.1, ih, List.map_cons]
  rw [heq]
  exact ⟨front.map Prod.fst, hperm.map _, hsub.map _⟩

theorem Sheet.analyze_eq_violations {sheet : Sheet} (h : sheet.DistinctIds) :
    sheet.analyze = sheet.violations := by
  obtain ⟨nodes, hperm, hsub⟩ := sheet.placed_violations.subperm_node.filter (· ≠ NodeId.dummy)
  exact Diagnostic.oncePerNode_eq_self (hperm.nodup_iff.1 (h.sublist hsub))

theorem Sheet.distinctIds_parse (source : String) : (parse source).sheet.DistinctIds := by
  have hids : (parse source).sheet.ids.Nodup := Reader.nodup_ids_sheet ..
  exact hids.sublist List.filter_sublist

/-- The diagnostics of a sheet whose nodes can be told apart are those of its sites: one for each
site with a mistake, in the order of checking, and no other. The nodes of every source can be told
apart. An expression has no known type for the reasons that `Expr.Untyped` lists and for no other,
and a variable that was assigned another variable has the known type `undefined`. -/
theorem Sheet.analyze_exact :
    (∀ sheet : Sheet, sheet.DistinctIds → ∀ ds, Reports sheet.sites ds ↔ ds = sheet.analyze) ∧
      (∀ source : String, (parse source).sheet.DistinctIds) ∧
      (∀ around (e : Expr), e.Untyped around ↔ ¬∃ ty, e.HasType around ty) ∧
      ∀ around name earlier a outer id span ty, Means around name earlier a outer →
        a.value.isReference → a.value.HasType (earlier :: outer) ty →
        (Expr.reference id span name).HasType around .undefined := by
  refine ⟨?_, distinctIds_parse, fun around e => e.untyped_iff, ?_⟩
  · intro sheet hids ds
    rw [analyze_eq_violations hids]
    constructor
    · intro hds
      exact hds.unique sheet.reports_violations
    · rintro rfl
      exact sheet.reports_violations
  · intro around name earlier a outer id span ty hmeans hreference hvalue
    have htype := Expr.HasType.reference id span hmeans hvalue
    rwa [Expr.boundType, if_pos hreference] at htype

/-- A rule with an unknown name, a variable assigned from it, an alias used as a width, and a
condition and an operation of wrong types. -/
def Sheet.mistaken : Sheet :=
  let node (n : Nat) (value : Literal) : Expr := .literal ⟨n⟩ .zero value
  let name (n : Nat) (text : String) : Expr := .reference ⟨n⟩ .zero text
  let assign (text : String) (value : Expr) : Statement := .assign ⟨⟨text, .zero⟩, value, .zero⟩
  let width (value : Expr) : Statement := .declare ⟨"width", .zero⟩ value .zero
  ⟨[.rule ⟨.tag "a",
      [width (name 0 "Lost"),
        .ifThen ⟨1⟩ (node 2 (.pixel 1))
          [width (.operation ⟨5⟩ .zero .add (node 3 (.pixel 1)) (node 4 (.color "#ff0000")))] .zero,
        assign "Lost" (.operation ⟨8⟩ .zero .add (name 6 "Missing") (node 7 (.pixel 1))),
        assign "Alias" (name 9 "Size"),
        width (name 10 "Alias")],
      .zero⟩,
    .assign ⟨⟨"Size", .zero⟩, node 11 (.pixel 2), .zero⟩]⟩

theorem Sheet.analyze_exact_mistaken :
    mistaken.DistinctIds ∧
      Reports mistaken.sites
        [.ofNode ⟨6⟩ .zero (.unboundVariable "Missing"), .ofNode ⟨1⟩ .zero .badCondition,
          .ofNode ⟨5⟩ .zero .badOperands, .ofNode ⟨10⟩ .zero (.badProperty "width")] :=
  have hids : mistaken.DistinctIds := by decide
  ⟨hids, (analyze_exact.1 mistaken hids _).2 (by rfl)⟩

end TypedStyle
