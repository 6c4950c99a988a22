import TypedStyle.Proofs.ParserSoundness
import TypedStyle.Proofs.Scope
import TypedStyle.Proofs.Spelling
import TypedStyle.Compile

/-!
# Legible sheets

The names and literals of a sheet that was read can be written down and read again: names are made
of name characters, colours of six hexadecimal digits, and numbers fit into 64 bits. Folding and
selecting keep this, since they make no names and no colours, and every number they make is checked.
-/

namespace TypedStyle

variable {scope : Scope Literal}

/-! ## Legible trees -/

/-- A literal that can be written, apart from the sign of a number. -/
def Literal.Legible : Literal → Prop
  | bool _ => True
  | color text => ∃ digits, Grammar.SixHexDigits digits ∧ text = "#" ++ digits
  | pixel n | percentage n | scalar n => fits n

def Expr.Legible : Expr → Prop
  | literal _ _ value => value.Legible
  | reference .. => True
  | operation _ _ _ lhs rhs => lhs.Legible ∧ rhs.Legible

namespace Statement

mutual

def Legible : Statement → Prop
  | declare property value _ => Lexeme.IsWord property.name ∧ value.Legible
  | assign a => a.value.Legible
  | ifThen _ condition body _ => condition.Legible ∧ LegibleAll body
  | ifElse _ condition body alternative _ _ =>
    condition.Legible ∧ LegibleAll body ∧ LegibleAll alternative

def LegibleAll : List Statement → Prop
  | [] => True
  | s :: rest => s.Legible ∧ LegibleAll rest

end

theorem legibleAll_iff {body : List Statement} : LegibleAll body ↔ ∀ s ∈ body, s.Legible := by
  induction body with
  | nil => simp [LegibleAll]
  | cons s rest ih => simp [LegibleAll, ih]

end Statement

/-- The selector, the properties and the literals of a member of a sheet are legible. -/
def Item.Legible : Item → Prop
  | assign a => a.value.Legible
  | rule r => r.selector.kind.Legible ∧ Statement.LegibleAll r.body

def Sheet.Legible (sheet : Sheet) : Prop :=
  ∀ i ∈ sheet.items, i.Legible

/-! ## Labels do not matter -/

section Relabel

variable (ids : NodeId → NodeId) (spans : Span → Span)

theorem Expr.legible_relabel (e : Expr) : (e.relabel ids spans).Legible ↔ e.Legible := by
  induction e with
  | literal => rfl
  | reference => rfl
  | operation id span op lhs rhs ihl ihr => simp [relabel, Legible, ihl, ihr]

mutual

theorem Statement.legible_relabel :
    ∀ s : Statement, (s.relabel ids spans).Legible ↔ s.Legible
  | .declare .. => by simp [relabel, Legible, Ident.relabel, Expr.legible_relabel]
  | .assign a => a.value.legible_relabel ids spans
  | .ifThen _ _ body _ => by
    simp [relabel, Legible, Expr.legible_relabel, legibleAll_relabelAll body]
  | .ifElse _ _ body alternative _ _ => by
    simp [relabel, Legible, Expr.legible_relabel, legibleAll_relabelAll body,
      legibleAll_relabelAll alternative]

theorem Statement.legibleAll_relabelAll :
    ∀ body : List Statement, LegibleAll (relabelAll ids spans body) ↔ LegibleAll body
  | [] => .rfl
  | s :: rest => by
    simp [relabelAll, LegibleAll, legible_relabel s, legibleAll_relabelAll rest]

end

theorem Item.legible_relabel (i : Item) : (i.relabel ids spans).Legible ↔ i.Legible := by
  cases i with
  | assign a => exact a.value.legible_relabel ids spans
  | rule r => simp [relabel, Legible, Statement.legibleAll_relabelAll]

end Relabel

theorem Sheet.legible_of_bare {sheet : Sheet} (h : sheet.bare.Legible) : sheet.Legible :=
  fun i hi => (i.legible_relabel _ _).1 (h _ (List.mem_map_of_mem hi))

/-! ## Reading -/

theorem fits_of_isNumber {n : Int} (h : Lexeme.IsNumber n) : fits n := by
  obtain ⟨hlow, hhigh⟩ := h
  have hlargest : (Lexeme.largest : Int) = 9223372036854775807 := rfl
  simp only [fits, Bool.and_eq_true, decide_eq_true_eq]
  omega

namespace Grammar

variable {e : Expr} {ks : List Token.Kind}

theorem Value.legible {k : Token.Kind} (h : Value k e) (hk : k.Legible) : e.Legible := by
  cases h with
  | pixel | percentage | scalar => exact fits_of_isNumber hk
  | color hdigits => exact ⟨_, hdigits, rfl⟩
  | _ => trivial

theorem Term.legible (h : Term ks e) (hks : ∀ k ∈ ks, k.Legible) : e.Legible := by
  induction h with
  | value h => exact h.legible (hks _ (by simp))
  | times hlhs hrhs ih =>
    exact ⟨ih fun k hk => hks k (by simp [hk]), hrhs.legible (hks _ (by simp))⟩

theorem Sum.legible (h : Sum ks e) (hks : ∀ k ∈ ks, k.Legible) : e.Legible := by
  induction h with
  | term h => exact h.legible hks
  | operation hlhs hmark hrhs ih =>
    exact ⟨ih fun k hk => hks k (by simp [hk]), hrhs.legible fun k hk => hks k (by simp [hk])⟩

theorem Assign.legible {a : Assignment} (h : Assign ks a) (hks : ∀ k ∈ ks, k.Legible) :
    a.value.Legible := by
  cases h with
  | mk name h => exact h.legible fun k hk => hks k (by simp [hk])

mutual

theorem Member.legible {ks : List Token.Kind} {s : Statement} :
    Member ks s → (∀ k ∈ ks, k.Legible) → s.Legible
  | .declare name h, hks =>
    ⟨hks (.lower name) (by simp), h.legible fun k hk => hks k (by simp [hk])⟩
  | .assign h, hks => h.legible hks
  | .ifThen hcondition hbody, hks =>
    ⟨hcondition.legible (hks _ (by simp)), Block.legible hbody fun k hk => hks k (by simp [hk])⟩
  | .ifElse hcondition hbody halternative, hks =>
    ⟨hcondition.legible (hks _ (by simp)), Block.legible hbody fun k hk => hks k (by simp [hk]),
      Block.legible halternative fun k hk => hks k (by simp [hk])⟩

theorem Members.legible {ks : List Token.Kind} {body : List Statement} :
    Members ks body → (∀ k ∈ ks, k.Legible) → Statement.LegibleAll body
  | .one h, hks => ⟨Member.legible h hks, trivial⟩
  | .cons hfirst hrest, hks =>
    ⟨Member.legible hfirst fun k hk => hks k (by simp [hk]),
      Members.legible hrest fun k hk => hks k (by simp [hk])⟩

theorem Block.legible {ks : List Token.Kind} {body : List Statement} :
    Block ks body → (∀ k ∈ ks, k.Legible) → Statement.LegibleAll body
  | .mk h, hks => Members.legible h fun k hk => hks k (by simp [hk])

end

theorem Item.legible {i : TypedStyle.Item} (h : Item ks i) (hks : ∀ k ∈ ks, k.Legible) :
    i.Legible := by
  cases h with
  | assign h => exact h.legible hks
  | rule hselector hbody =>
    have hkind := hks _ List.mem_cons_self
    refine ⟨?_, hbody.legible fun k hk => hks k (List.mem_cons_of_mem _ hk)⟩
    cases hselector <;> exact hkind

theorem Sheet.legible {sheet : TypedStyle.Sheet} (h : Sheet ks sheet) (hks : ∀ k ∈ ks, k.Legible) :
    sheet.Legible := by
  obtain ⟨items⟩ := sheet
  change Items ks items at h
  change ∀ i ∈ items, i.Legible
  induction h with
  | one h =>
    intro i hi
    obtain rfl := List.mem_singleton.1 hi
    exact h.legible hks
  | cons hfirst hrest ih =>
    intro i hi
    rcases List.mem_cons.1 hi with rfl | hi
    · exact hfirst.legible fun k hk => hks k (by simp [hk])
    · exact ih (fun k hk => hks k (by simp [hk])) i hi

end Grammar

theorem Token.diagnostics_scan_of_parse {source : String}
    (h : (Sheet.parse source).diagnostics = []) : (scan source.toList).diagnostics = [] := by
  have hle := (Reader.items_consumes (.start (scan source.toList).tokens
    (scan source.toList).diagnostics)).found_le
  have hitems : (Reader.start (scan source.toList).tokens
      (scan source.toList).diagnostics).items.2.diagnostics = [] := by
    simp only [Sheet.parse, Reader.sheet] at h
    split at h
    · simp [Reader.report] at h
    · exact h
  rw [Reader.found, Reader.found, hitems] at hle
  exact List.length_eq_zero_iff.1 (Nat.le_zero.1 hle)

/-- A source that is read without problems gives a legible sheet. -/
theorem Sheet.legible_parse {source : String} (h : (parse source).diagnostics = []) :
    (parse source).sheet.Legible := by
  obtain ⟨body, last, htokens, hlast, -, hlegible⟩ := Token.legible_scan source.toList
  have hscan := Token.diagnostics_scan_of_parse h
  have hbody : ∀ t ∈ body, t.kind ≠ .eof := by
    intro t ht hkind
    have hfalse := hlegible t ht
    rw [hkind] at hfalse
    exact hfalse
  simp only [parse, htokens, hscan] at h ⊢
  refine legible_of_bare ((Reader.sheet_sound hbody hlast h).legible fun k hk => ?_)
  obtain ⟨t, ht, rfl⟩ := List.mem_map.1 hk
  exact hlegible t ht

/-! ## Folding -/

def Scope.Legible (scope : Scope Literal) : Prop :=
  ∀ name value, scope.resolve name = some value → value.Legible

theorem Scope.Legible.push (h : scope.Legible) : scope.push.Legible :=
  fun name value hvalue => h name value (by rwa [resolve_push] at hvalue)

theorem Scope.Legible.declare (h : scope.Legible) (name : String) {value : Literal}
    (hvalue : value.Legible) : (scope.declare name value).Legible := by
  intro other v hv
  rw [resolve_declare] at hv
  split at hv
  · obtain rfl := Option.some.inj hv
    exact hvalue
  · exact h other v hv

theorem Operator.legible_apply {op : Operator} {id : NodeId} {span : Span} {a b v : Literal}
    (h : op.apply id span a b = .ok v) : v.Legible := by
  unfold apply at h
  split at h
  · next unit n hresult =>
    split at h
    · next hfits =>
      obtain rfl := Except.ok.inj h
      cases unit <;> exact hfits
    · cases h
  · cases h

theorem Expr.legible_eval (hscope : scope.Legible) {e : Expr} (he : e.Legible) {v : Literal}
    (h : e.eval scope = .ok v) : v.Legible := by
  cases e with
  | literal id span value =>
    obtain rfl := Except.ok.inj h
    exact he
  | reference id span name =>
    simp only [eval] at h
    split at h
    · next value hvalue =>
      obtain rfl := Except.ok.inj h
      exact hscope name _ hvalue
    · cases h
  | operation id span op lhs rhs =>
    -- Whatever the operands are, the result has been checked.
    simp only [eval] at h
    split at h
    · cases h
    · split at h
      · cases h
      · exact Operator.legible_apply h

theorem Expr.legible_fold (hscope : scope.Legible) {e folded : Expr} (he : e.Legible)
    (h : e.fold scope = .ok folded) : folded.Legible := by
  unfold fold at h
  split at h
  · next v hv =>
    obtain rfl := Except.ok.inj h
    exact legible_eval hscope he hv
  · cases h

namespace Folded

variable {scope : Scope Literal}

theorem legible_assignments (hscope : scope.Legible) {as : List Assignment}
    (h : ∀ a ∈ as, a.value.Legible) : (assignments scope as).1.Legible := by
  induction as generalizing scope with
  | nil => exact hscope
  | cons a rest ih =>
    have hrest : ∀ a ∈ rest, a.value.Legible := fun a ha => h a (List.mem_cons_of_mem _ ha)
    simp only [assignments]
    split
    · next value hvalue =>
      exact ih (hscope.declare _ (Expr.legible_eval hscope (h a List.mem_cons_self) hvalue)) hrest
    · exact hscope

theorem legible_block_of (hscope : scope.Legible) {body : List Statement}
    (hbody : Statement.LegibleAll body) {rest : Scope Literal → Folded (List Statement)}
    (hrest : ∀ inner, Scope.Legible inner → Statement.LegibleAll (rest inner).tree) :
    Statement.LegibleAll (block scope body rest).tree := by
  have hassign : ∀ a ∈ Statement.assignments body, a.value.Legible := fun a ha =>
    Statement.legibleAll_iff.1 hbody _ (Statement.mem_of_mem_assignments ha)
  have hbound := legible_assignments hscope.push hassign
  -- A block that fails is left as it was or as far as it got; one that does not loses assignments.
  simp only [block]
  split
  · exact hbody
  · next inner hinner =>
    rw [hinner] at hbound
    have htree := hrest inner hbound
    split
    · exact htree
    · rw [Statement.legibleAll_iff] at htree ⊢
      exact fun s hs => htree s (List.mem_filter.1 hs).1

mutual

theorem legible_statement {scope : Scope Literal} (hscope : scope.Legible) :
    ∀ s : Statement, s.Legible → (statement scope s).tree.Legible
  | .assign _, h => h
  | .declare property value span, h => by
    simp only [statement]
    split
    · next hfold => exact ⟨h.1, Expr.legible_fold hscope h.2 hfold⟩
    · exact h
  | .ifThen id condition body span, h => by
    simp only [statement]
    split
    · exact h
    · next hfold =>
      exact ⟨Expr.legible_fold hscope h.1 hfold,
        legible_block_of hscope h.2 fun _ hinner => legible_statements hinner body h.2⟩
  | .ifElse id condition body alternative elseSpan span, h => by
    have htaken := legible_block_of hscope h.2.1 fun _ hinner =>
      legible_statements hinner body h.2.1
    have hother := legible_block_of hscope h.2.2 fun _ hinner =>
      legible_statements hinner alternative h.2.2
    simp only [statement, scope_block]
    split
    · exact h
    · next hfold =>
      have hcondition := Expr.legible_fold hscope h.1 hfold
      split
      · -- The first branch failed, and the other one was not looked at.
        exact ⟨hcondition, htaken, h.2.2⟩
      · exact ⟨hcondition, htaken, hother⟩

theorem legible_statements {scope : Scope Literal} (hscope : scope.Legible) :
    ∀ body : List Statement, Statement.LegibleAll body →
      Statement.LegibleAll (statements scope body).tree
  | [], _ => trivial
  | s :: rest, h => by
    have hfirst := legible_statement hscope s h.1
    have hrest := legible_statements hscope rest h.2
    simp only [statements, scope_statement]
    split
    · exact ⟨hfirst, h.2⟩
    · exact ⟨hfirst, hrest⟩

end

theorem legible_items (hscope : scope.Legible) {is : List Item} (h : ∀ i ∈ is, i.Legible) :
    ∀ i ∈ (items scope is).tree, i.Legible := by
  induction is with
  | nil => simp [items]
  | cons item rest ih =>
    have hitem := h item List.mem_cons_self
    have hrest : ∀ i ∈ rest, i.Legible := fun i hi => h i (List.mem_cons_of_mem _ hi)
    cases item with
    | assign a => exact List.forall_mem_cons.2 ⟨hitem, ih hrest⟩
    | rule r =>
      have hbody := legible_block_of hscope hitem.2 fun _ hinner =>
        legible_statements hinner r.body hitem.2
      simp only [items, scope_block]
      split
      · exact List.forall_mem_cons.2 ⟨⟨hitem.1, hbody⟩, hrest⟩
      · exact List.forall_mem_cons.2 ⟨⟨hitem.1, hbody⟩, ih hrest⟩

end Folded

theorem Sheet.legible_fold {sheet : Sheet} (h : sheet.Legible) : sheet.fold.sheet.Legible := by
  have hempty : (Scope.empty : Scope Literal).Legible := fun name value hvalue => by
    rw [Scope.resolve_empty] at hvalue
    cases hvalue
  have hassign : ∀ a ∈ sheet.assignments, a.value.Legible := fun a ha =>
    h _ (mem_items_of_mem_assignments ha)
  have hbound := Folded.legible_assignments hempty hassign
  simp only [fold]
  split
  · exact h
  · next scope hscope =>
    rw [hscope] at hbound
    have hitems := Folded.legible_items hbound h
    split
    · exact hitems
    · exact fun i hi => hitems i (List.mem_filter.1 hi).1

/-! ## Branches -/

namespace Branch

mutual

theorem legible_statement :
    ∀ (s : Statement) {taken : List Statement}, statement s = .ok taken → s.Legible →
      Statement.LegibleAll taken
  | .assign _, _, h, hs => by
    obtain rfl := Except.ok.inj h
    exact ⟨hs, trivial⟩
  | .declare .., _, h, hs => by
    obtain rfl := Except.ok.inj h
    exact ⟨hs, trivial⟩
  | .ifThen _ value body _, taken, h, hs => by
    rcases statement_ifThen_eq_ok h with h | rfl
    · exact legible_statements body h hs.2
    · trivial
  | .ifElse _ value body alternative _ _, taken, h, hs => by
    rcases statement_ifElse_eq_ok h with h | h
    · exact legible_statements body h hs.2.1
    · exact legible_statements alternative h hs.2.2

theorem legible_statements :
    ∀ (body : List Statement) {taken : List Statement}, statements body = .ok taken →
      Statement.LegibleAll body → Statement.LegibleAll taken
  | [], _, h, _ => by
    obtain rfl := Except.ok.inj h
    trivial
  | s :: rest, taken, h, hs => by
    obtain ⟨first, more, hfirst, hmore, rfl⟩ := statements_cons_eq_ok h
    have hfirst' := Statement.legibleAll_iff.1 (legible_statement s hfirst hs.1)
    have hmore' := Statement.legibleAll_iff.1 (legible_statements rest hmore hs.2)
    exact Statement.legibleAll_iff.2 (List.forall_mem_append.2 ⟨hfirst', hmore'⟩)

end

theorem legible_items {is : List Item} (h : ∀ i ∈ is, i.Legible) :
    ∀ i ∈ (items is).1, i.Legible := by
  induction is with
  | nil => simp [items]
  | cons item rest ih =>
    have hitem := h item List.mem_cons_self
    have hrest : ∀ i ∈ rest, i.Legible := fun i hi => h i (List.mem_cons_of_mem _ hi)
    cases item with
    | assign a => exact List.forall_mem_cons.2 ⟨hitem, ih hrest⟩
    | rule r =>
      simp only [items]
      split
      · -- A rule whose conditions are not booleans loses its body.
        exact List.forall_mem_cons.2 ⟨⟨hitem.1, trivial⟩, hrest⟩
      · next body hbody =>
        exact List.forall_mem_cons.2 ⟨⟨hitem.1, legible_statements r.body hbody hitem.2⟩, ih hrest⟩

end Branch

/-- Folding and selecting keep a sheet legible. -/
theorem Sheet.legible_finish {sheet : Sheet} (h : sheet.Legible) (options : Options) :
    (sheet.finish options).sheet.Legible := by
  have hfold := legible_fold h
  simp only [finish]
  split
  · exact hfold
  · split
    · exact Branch.legible_items hfold
    · exact hfold

end TypedStyle
