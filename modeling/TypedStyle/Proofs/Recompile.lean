import TypedStyle.Proofs.Layout
import TypedStyle.Proofs.NormalForm

/-!
# Compiling generated text

A generated text is a source again: its rules hold declarations of literals and nothing else. A
text in which every rule has a line, and no line has a value that is spelled in another way than it
is read, is compiled to itself, but for the indentation that comes from conditionals.
-/

namespace TypedStyle

variable {sheet : Sheet} {options : Options}

/-! ## Plain sheets -/

namespace Folded

theorem statements_of_plain {body : List Statement} (h : ∀ s ∈ body, s.Plain)
    (scope : Scope Literal) : statements scope body = ⟨scope, body, none⟩ := by
  induction body with
  | nil => rfl
  | cons s rest ih =>
    have hrest := ih fun s hs => h s (List.mem_cons_of_mem _ hs)
    -- A literal is folded to itself, under the labels it has.
    cases h s List.mem_cons_self
    simp only [statements, statement, Expr.fold, Expr.eval, Expr.id, Expr.span, hrest]

theorem block_of_plain {body : List Statement} (h : ∀ s ∈ body, s.Plain) (scope : Scope Literal) :
    (block scope body fun inner => statements inner body) = ⟨scope, body, none⟩ := by
  -- There is nothing to bind at the start of the block and nothing to take out at its end.
  have hscope := scope_block scope body
  have hkept : body.filter (fun s => !s.isAssignment) = body :=
    List.filter_eq_self.2 fun s hs => by
      cases h s hs
      rfl
  have hassigns : Statement.assignments body = [] :=
    Statement.assignments_of_settled fun s hs => (h s hs).settled
  simp only [block, hassigns, assignments, statements_of_plain h, hkept] at hscope ⊢
  rw [hscope]

theorem items_of_plain {is : List Item} (h : ∀ i ∈ is, i.Plain) (scope : Scope Literal) :
    items scope is = ⟨scope, is, none⟩ := by
  induction is with
  | nil => rfl
  | cons i rest ih =>
    have hrest := ih fun i hi => h i (List.mem_cons_of_mem _ hi)
    cases i with
    | assign a => exact (h _ List.mem_cons_self).elim
    | rule r => simp only [items, block_of_plain (h (.rule r) List.mem_cons_self), hrest]

end Folded

theorem Sheet.fold_of_plain (h : sheet.Plain) : sheet.fold = ⟨sheet, none⟩ := by
  have hkept : sheet.items.filter (fun i => i.rule?.isSome) = sheet.items :=
    List.filter_eq_self.2 fun i hi => by
      cases i with
      | assign a => exact (h _ hi).elim
      | rule r => rfl
  simp only [fold, assignments_of_settled h.settled, Folded.assignments, Folded.items_of_plain h, hkept]

namespace Branch

theorem statements_of_plain {body : List Statement} (h : ∀ s ∈ body, s.Plain) :
    statements body = .ok body := by
  induction body with
  | nil => rfl
  | cons s rest ih =>
    have hrest := ih fun s hs => h s (List.mem_cons_of_mem _ hs)
    cases h s List.mem_cons_self
    simp only [statements, statement, hrest, List.cons_append, List.nil_append]

theorem items_of_plain {is : List Item} (h : ∀ i ∈ is, i.Plain) : items is = (is, none) := by
  induction is with
  | nil => rfl
  | cons i rest ih =>
    have hrest := ih fun i hi => h i (List.mem_cons_of_mem _ hi)
    cases i with
    | assign a => exact (h _ List.mem_cons_self).elim
    | rule r => simp only [items, statements_of_plain (h (.rule r) List.mem_cons_self), hrest]

end Branch

/-- Folding and selecting leave a plain sheet alone. -/
theorem Sheet.finish_of_plain (h : sheet.Plain) (options : Options) :
    (sheet.finish options).sheet = sheet ∧ (sheet.finish options).error = none := by
  simp only [finish, fold_of_plain h]
  split
  · simp [selectBranches, Branch.items_of_plain h]
  · simp

/-! ## Labels do not matter -/

theorem Statement.plain_of_bare {s : Statement} (h : s.bare.Plain) : s.Plain := by
  -- Taking labels off keeps what a statement is and what its value is.
  cases s with
  | declare property value span =>
    cases value with
    | literal id place v =>
      obtain ⟨haccepts⟩ := h
      exact .declare haccepts
    | _ => cases h
  | _ => cases h

theorem Statement.plain_of_bareAll {body : List Statement} (h : ∀ s ∈ bareAll body, s.Plain) :
    ∀ s ∈ body, s.Plain := by
  induction body with
  | nil => simp
  | cons s rest ih =>
    obtain ⟨hfirst, hrest⟩ := List.forall_mem_cons.1 h
    exact List.forall_mem_cons.2 ⟨plain_of_bare hfirst, ih hrest⟩

theorem Sheet.plain_of_bare (h : sheet.bare.Plain) : sheet.Plain := by
  intro i hi
  have hbare : i.bare.Plain := h _ (List.mem_map_of_mem hi)
  cases i with
  | assign a => exact hbare
  | rule r => exact Statement.plain_of_bareAll hbare

section Relabel

variable (ids : NodeId → NodeId) (spans : Span → Span)

@[simp]
theorem Expr.text_relabel (e : Expr) : (e.relabel ids spans).text = e.text := by
  induction e with
  | literal => rfl
  | reference => rfl
  | operation id span op lhs rhs ihl ihr => simp [relabel, text, ihl, ihr]

mutual

theorem Statement.css_relabel (depth : Nat) :
    ∀ s : Statement, (s.relabel ids spans).css depth = s.css depth
  | .declare .. => by simp [relabel, css, Css.line, Ident.relabel]
  | .assign _ => rfl
  | .ifThen _ _ body _ => by simp [relabel, css, cssAll_relabelAll (depth + 1) body]
  | .ifElse _ _ body alternative _ _ => by
    simp [relabel, css, cssAll_relabelAll (depth + 1) body,
      cssAll_relabelAll (depth + 1) alternative]

theorem Statement.cssAll_relabelAll (depth : Nat) :
    ∀ body : List Statement, cssAll depth (relabelAll ids spans body) = cssAll depth body
  | [] => rfl
  | s :: rest => by
    simp [relabelAll, cssAll, css_relabel depth s, cssAll_relabelAll depth rest]

end

@[simp]
theorem Sheet.css_relabel (sheet : Sheet) : (sheet.relabel ids spans).css = sheet.css := by
  have hrules : (sheet.relabel ids spans).rules.map Rule.css = sheet.rules.map Rule.css := by
    simp only [relabel, rules, List.filterMap_map, List.map_filterMap]
    refine List.filterMap_congr fun i _ => ?_
    cases i with
    | assign a => rfl
    | rule r => simp [Item.relabel, Item.rule?, Rule.css, Statement.cssAll_relabelAll]
  rw [css, hrules, css]

end Relabel

@[simp]
theorem Sheet.css_bare (sheet : Sheet) : sheet.bare.css = sheet.css :=
  css_relabel _ _ sheet

/-! ## Compiling a layout -/

namespace Css

theorem Line.toList_line (l : Line) {e : Expr} (he : e.literal? = some l.value) :
    (line l.depth l.property e).toList = l.row ++ ['\n'] := by
  cases e with
  | literal id place v =>
    obtain rfl := Option.some.inj he
    simp [line, row, body, printed, Expr.text]
  | _ => cases he

theorem Part.toList_css (p : Part) :
    p.rule.css.toList = p.flat.rows.flatMap (· ++ ['\n']) := by
  -- The declarations of a part stand directly in its rule, which makes their depth one.
  have hlines (ls : List Line) : (Statement.cssAll 1 (ls.map Line.statement)).toList =
      (ls.map Line.flat).flatMap fun l => l.row ++ ['\n'] := by
    induction ls with
    | nil => rfl
    | cons l rest ih =>
      have hline : (l.statement.css 1).toList = l.flat.row ++ ['\n'] := l.flat.toList_line rfl
      simp [Statement.cssAll, hline, ih]
  simp [Rule.css, rule, hlines, rows, opening, flat, List.flatMap_map]

theorem toList_css (ps : List Part) :
    (Sheet.css ⟨ps.map fun p => .rule p.rule⟩).toList = layout (ps.map Part.flat) := by
  have hrules : (Sheet.mk (ps.map fun p => .rule p.rule)).rules = ps.map Part.rule := by
    simp [Sheet.rules, List.filterMap_map, Function.comp_def, Item.rule?]
  rw [Sheet.css, hrules, String.toList_join, layout_eq]
  simp [List.flatMap_map, List.flatMap_assoc, Part.toList_css]

/-- The text of parts is compiled to their text with every line indented by one tab. -/
theorem compile_layout {ps : List Part} (h : ps ≠ []) (options : Options) :
    compile options (String.ofList (layout ps)) =
      .ok (String.ofList (layout (ps.map Part.flat))) := by
  -- The sheet that is read may have any labels; without them it is that of the parts.
  obtain ⟨hread, hbare⟩ := parse_layout h
  have hplain : (Sheet.parse (String.ofList (layout ps))).sheet.Plain := by
    refine Sheet.plain_of_bare (hbare ▸ List.forall_mem_map.2 fun p _ => ?_)
    exact List.forall_mem_map.2 fun l _ => .declare l.accepts_value
  obtain ⟨hsheet, herror⟩ := Sheet.finish_of_plain hplain options
  have hcss : (Sheet.parse (String.ofList (layout ps))).sheet.css =
      String.ofList (layout (ps.map Part.flat)) := by
    rw [← Sheet.css_bare, hbare, ← String.toList_inj, toList_css, String.toList_ofList]
  rw [compile_eq]
  simp [Sheet.checkSource, hread, Sheet.analyze_of_settled hplain.settled, hsheet, herror, hcss]

end Css

/-! ## The text of a folded sheet -/

/-- A declaration and the number of blocks around it. -/
structure Css.Declaration where
  depth : Nat
  property : String
  value : Expr

def Css.Declaration.css (x : Declaration) : String :=
  line x.depth x.property x.value

/-- A declaration as folding leaves it, with a property and a literal that can be written. -/
structure Css.Declaration.Settled (x : Declaration) : Prop where
  isWord_property : Lexeme.IsWord x.property
  exists_value : ∃ v, x.value.literal? = some v ∧ v.Legible ∧
    ∀ types, Ty.allowed? x.property = some types → .ofLiteral v ∈ types

namespace Statement

mutual

/-- The declarations of a statement at the given depth, those of nested blocks included. -/
def declarations (depth : Nat) : Statement → List Css.Declaration
  | declare property value _ => [⟨depth, property.name, value⟩]
  | assign _ => []
  | ifThen _ _ body _ => declarationsAll (depth + 1) body
  | ifElse _ _ body alternative _ _ =>
    declarationsAll (depth + 1) body ++ declarationsAll (depth + 1) alternative

/-- The declarations of statements at the given depth, those of nested blocks included. -/
def declarationsAll (depth : Nat) : List Statement → List Css.Declaration
  | [] => []
  | s :: rest => s.declarations depth ++ declarationsAll depth rest

end

theorem declarationsAll_append (depth : Nat) (front back : List Statement) :
    declarationsAll depth (front ++ back) =
      declarationsAll depth front ++ declarationsAll depth back := by
  induction front with
  | nil => rfl
  | cons s rest ih => simp only [List.cons_append, declarationsAll, ih, List.append_assoc]

mutual

theorem toList_css (depth : Nat) :
    ∀ s : Statement, (s.css depth).toList = (s.declarations depth).flatMap (·.css.toList)
  | .declare .. => by simp [css, declarations, Css.Declaration.css]
  | .assign _ => rfl
  | .ifThen _ _ body _ => toList_cssAll (depth + 1) body
  | .ifElse _ _ body alternative _ _ => by
    simp [css, declarations, toList_cssAll (depth + 1) body, toList_cssAll (depth + 1) alternative]

theorem toList_cssAll (depth : Nat) :
    ∀ body : List Statement,
      (cssAll depth body).toList = (declarationsAll depth body).flatMap (·.css.toList)
  | [] => rfl
  | s :: rest => by
    simp [cssAll, declarationsAll, toList_css depth s, toList_cssAll depth rest]

end

mutual

/-- The declarations of a settled statement are settled, and none stands further out. -/
theorem settled_declarations {depth : Nat} :
    ∀ s : Statement, s.Settled → s.Legible →
      ∀ x ∈ s.declarations depth, x.Settled ∧ depth ≤ x.depth
  | .declare property value span, .declare hvalue haccepts, hlegible, x, hx => by
    obtain rfl := List.mem_singleton.1 hx
    refine ⟨⟨hlegible.1, _, hvalue, ?_, haccepts⟩, Nat.le_refl depth⟩
    cases value with
    | literal id place v =>
      obtain rfl := Option.some.inj hvalue
      exact hlegible.2
    | _ => cases hvalue
  | .ifThen _ _ body _, .ifThen _ hbody, hlegible, x, hx => by
    -- The block of a conditional is one deeper than the conditional.
    obtain ⟨hsettled, hdepth⟩ := settled_declarationsAll body hbody hlegible.2 x hx
    exact ⟨hsettled, Nat.le_of_succ_le hdepth⟩
  | .ifElse _ _ body alternative _ _, .ifElse _ hbody halternative, hlegible, x, hx => by
    rcases List.mem_append.1 hx with hx | hx
    · obtain ⟨hsettled, hdepth⟩ := settled_declarationsAll body hbody hlegible.2.1 x hx
      exact ⟨hsettled, Nat.le_of_succ_le hdepth⟩
    · obtain ⟨hsettled, hdepth⟩ :=
        settled_declarationsAll alternative halternative hlegible.2.2 x hx
      exact ⟨hsettled, Nat.le_of_succ_le hdepth⟩

theorem settled_declarationsAll {depth : Nat} :
    ∀ body : List Statement, (∀ s ∈ body, s.Settled) → LegibleAll body →
      ∀ x ∈ declarationsAll depth body, x.Settled ∧ depth ≤ x.depth
  | s :: rest, hsettled, hlegible, x, hx => by
    rcases List.mem_append.1 hx with hx | hx
    · exact settled_declarations s (hsettled s List.mem_cons_self) hlegible.1 x hx
    · exact settled_declarationsAll rest (fun s hs => hsettled s (List.mem_cons_of_mem _ hs))
        hlegible.2 x hx

end

theorem depth_of_plain {depth : Nat} {body : List Statement} (h : ∀ s ∈ body, s.Plain) :
    ∀ x ∈ declarationsAll depth body, x.depth = depth := by
  induction body with
  | nil => simp [declarationsAll]
  | cons s rest ih =>
    intro x hx
    rcases List.mem_append.1 hx with hx | hx
    · cases h s List.mem_cons_self
      rw [List.mem_singleton.1 hx]
    · exact ih (fun s hs => h s (List.mem_cons_of_mem _ hs)) x hx

end Statement

/-- What it takes for the text of a folded sheet to be a source again: there is a rule, every rule
has a declaration, and no declared value is a boolean or a negative number. -/
structure Sheet.Rereadable (sheet : Sheet) : Prop where
  rules_ne_nil : sheet.rules ≠ []
  declares : ∀ r ∈ sheet.rules, Statement.declarationsAll 1 r.body ≠ []
  isUnsigned : ∀ r ∈ sheet.rules, ∀ x ∈ Statement.declarationsAll 1 r.body,
    ∀ v ∈ x.value.literal?, v.isUnsigned

instance (sheet : Sheet) : Decidable sheet.Rereadable :=
  decidable_of_iff
    (sheet.rules ≠ [] ∧ ∀ r ∈ sheet.rules, Statement.declarationsAll 1 r.body ≠ [] ∧
      ∀ x ∈ Statement.declarationsAll 1 r.body, ∀ v ∈ x.value.literal?, v.isUnsigned)
    ⟨fun ⟨hrules, h⟩ => ⟨hrules, fun r hr => (h r hr).1, fun r hr => (h r hr).2⟩,
      fun h => ⟨h.rules_ne_nil, fun r hr => ⟨h.declares r hr, h.isUnsigned r hr⟩⟩⟩

namespace Css

theorem Declaration.exists_line {x : Declaration} (h : x.Settled)
    (hunsigned : ∀ v ∈ x.value.literal?, v.isUnsigned) :
    ∃ l : Line, l.depth = x.depth ∧ l.row ++ ['\n'] = x.css.toList := by
  obtain ⟨hproperty, v, hvalue, hlegible, haccepts⟩ := h
  let l : Line :=
    { depth := x.depth, property := x.property, value := v, isWord_property := hproperty
      legible_value := hlegible, isUnsigned_value := hunsigned v hvalue
      accepts_value := haccepts }
  exact ⟨l, rfl, (l.toList_line hvalue).symm⟩

theorem exists_map_eq {α β γ : Type} {good : α → Prop} {f : α → γ} {g : β → γ} {xs : List β}
    (h : ∀ x ∈ xs, ∃ y, good y ∧ f y = g x) :
    ∃ ys : List α, (∀ y ∈ ys, good y) ∧ ys.map f = xs.map g := by
  induction xs with
  | nil => exact ⟨[], by simp, rfl⟩
  | cons x rest ih =>
    obtain ⟨hx, hrest⟩ := List.forall_mem_cons.1 h
    obtain ⟨y, hy, hyx⟩ := hx
    obtain ⟨ys, hys, hmap⟩ := ih hrest
    refine ⟨y :: ys, List.forall_mem_cons.2 ⟨hy, hys⟩, ?_⟩
    rw [List.map_cons, List.map_cons, hyx, hmap]

section Parts

-- What is known of the depths of the declarations, and so of the lines.
variable {P : Nat → Prop}

theorem exists_part {r : Rule} (hselector : r.selector.kind.Legible)
    (hne : Statement.declarationsAll 1 r.body ≠ [])
    (hsettled : ∀ x ∈ Statement.declarationsAll 1 r.body, x.Settled ∧ P x.depth)
    (hunsigned : ∀ x ∈ Statement.declarationsAll 1 r.body, ∀ v ∈ x.value.literal?, v.isUnsigned) :
    ∃ p : Part, (∀ l ∈ p.lines, P l.depth) ∧
      p.rows.flatMap (· ++ ['\n']) = r.css.toList := by
  obtain ⟨ls, hdepth, hls⟩ : ∃ ls : List Line, (∀ l ∈ ls, P l.depth) ∧
      ls.map (fun l => l.row ++ ['\n']) =
        (Statement.declarationsAll 1 r.body).map (·.css.toList) :=
    exists_map_eq fun x hx => by
      obtain ⟨l, hl, hrow⟩ := Declaration.exists_line (hsettled x hx).1 (hunsigned x hx)
      exact ⟨l, hl ▸ (hsettled x hx).2, hrow⟩
  have hbody : (Statement.cssAll 1 r.body).toList = ls.flatMap fun l => l.row ++ ['\n'] := by
    rw [Statement.toList_cssAll, List.flatMap_def, List.flatMap_def, hls]
  let p : Part :=
    { selector := r.selector, lines := ls, legible_selector := hselector
      -- There are as many lines as declarations.
      lines_ne_nil := by
        rintro rfl
        exact hne (List.map_eq_nil_iff.1 hls.symm) }
  refine ⟨p, hdepth, ?_⟩
  simp [Rule.css, hbody, p, Part.rows, opening, List.flatMap_map]

/-- The text of rules of settled declarations of unsigned values is that of parts. -/
theorem exists_parts {sheet : Sheet} (hlegible : sheet.Legible) (h : sheet.Rereadable)
    (hsettled : ∀ r ∈ sheet.rules, ∀ x ∈ Statement.declarationsAll 1 r.body,
      x.Settled ∧ P x.depth) :
    ∃ ps : List Part, ps ≠ [] ∧ (∀ p ∈ ps, ∀ l ∈ p.lines, P l.depth) ∧
      sheet.css = String.ofList (layout ps) := by
  obtain ⟨ps, hdepth, hps⟩ : ∃ ps : List Part, (∀ p ∈ ps, ∀ l ∈ p.lines, P l.depth) ∧
      ps.map (fun p => p.rows.flatMap (· ++ ['\n'])) = sheet.rules.map (·.css.toList) :=
    exists_map_eq fun r hr => exists_part (hlegible _ (Sheet.mem_items_of_mem_rules hr)).1
      (h.declares r hr) (hsettled r hr) (h.isUnsigned r hr)
  refine ⟨ps, ?_, hdepth, ?_⟩
  · rintro rfl
    exact h.rules_ne_nil (List.map_eq_nil_iff.1 hps.symm)
  · rw [← String.toList_inj, Sheet.css, String.toList_join, String.toList_ofList, layout_eq,
      List.flatMap_assoc, List.flatMap_map, List.flatMap_def, List.flatMap_def, hps]

end Parts

end Css

/-! ## Finished sheets -/

theorem Sheet.finish_sheet (h : (sheet.finish options).error = none) :
    sheet.fold.error = none ∧ (sheet.finish options).sheet =
      if options.selectBranches then sheet.fold.sheet.selectBranches.sheet
      else sheet.fold.sheet := by
  rw [finish] at h ⊢
  split at h
  · cases h
  · next hfold =>
    simp only [hfold, true_and]
    split <;> rfl

theorem Sheet.settled_finish (h : sheet.analyze = [])
    (herror : (sheet.finish options).error = none) :
    (∀ i ∈ (sheet.finish options).sheet.items, i.Settled) ∧
      (options.selectBranches = true → (sheet.finish options).sheet.Plain) := by
  obtain ⟨hfold, hsheet⟩ := finish_sheet herror
  have hsettles := fold_settles h
  rw [hfold] at hsettles
  rw [hsheet]
  split
  · have hplain : sheet.fold.sheet.selectBranches.sheet.Plain := Branch.plain_items hsettles
    exact ⟨hplain.settled, fun _ => hplain⟩
  · next hselect => exact ⟨hsettles, fun hselect' => absurd hselect' hselect⟩

/-! ## Compiling twice -/

theorem Css.Line.flat_eq_self {l : Line} (h : l.depth = 1) : l.flat = l := by
  cases l
  cases h
  rfl

theorem Css.Part.flat_eq_self {p : Part} (h : ∀ l ∈ p.lines, l.depth = 1) : p.flat = p := by
  have hlines : p.lines.map Line.flat = p.lines.map id :=
    List.map_congr_left fun l hl => Line.flat_eq_self (h l hl)
  rw [List.map_id] at hlines
  cases p
  simp only [flat] at hlines ⊢
  congr

/-- What is known of a source that is compiled: it is read and checked without problems, and the
text is that of the finished sheet. -/
theorem Sheet.of_compile_ok {source css : String} (h : compile options source = .ok css) :
    (checkSource source).1.sheet.Legible ∧ (checkSource source).1.sheet.analyze = [] ∧
      ((checkSource source).1.sheet.finish options).error = none ∧
      css = ((checkSource source).1.sheet.finish options).sheet.css := by
  rw [compile_eq] at h
  split at h
  · next hclean =>
    have hfound := List.isEmpty_iff.1 hclean
    split at h
    · cases h
    · next herror =>
      refine ⟨?_, checkSource_clean hfound, herror, (Except.ok.inj h).symm⟩
      simp only [checkSource] at hfound ⊢
      split at hfound
      · next hread => simpa [hread] using legible_parse (List.isEmpty_iff.1 hread)
      · next hread => exact absurd (List.isEmpty_iff.2 hfound) hread
  · cases h

/-- Compiling the result of a compilation again. If branches were selected, the text stays as it
is; if not, every indented row gets an indentation of exactly one tab. -/
theorem compile_compile {options : Options} {source css : String}
    (hcss : compile options source = .ok css)
    (hsheet : ((Sheet.checkSource source).1.sheet.finish options).sheet.Rereadable)
    (again : Options) :
    compile again css = .ok (if options.selectBranches then css else Css.reindent css) := by
  obtain ⟨hlegible, hclean, herror, rfl⟩ := Sheet.of_compile_ok hcss
  have hfinish := Sheet.legible_finish hlegible options
  obtain ⟨hsettled, hplain⟩ := Sheet.settled_finish hclean herror
  have hdeclared : ∀ r ∈ ((Sheet.checkSource source).1.sheet.finish options).sheet.rules,
      ∀ x ∈ Statement.declarationsAll 1 r.body, x.Settled ∧ 1 ≤ x.depth := fun r hr =>
    Statement.settled_declarationsAll r.body (hsettled _ (Sheet.mem_items_of_mem_rules hr))
      (hfinish _ (Sheet.mem_items_of_mem_rules hr)).2
  split
  · next hselect =>
    -- Without conditionals there is one depth, and the lines are already where they belong.
    obtain ⟨ps, hne, hdepth, hlayout⟩ := Css.exists_parts (P := (· = 1)) hfinish hsheet
      fun r hr x hx => ⟨(hdeclared r hr x hx).1,
        Statement.depth_of_plain (hplain hselect _ (Sheet.mem_items_of_mem_rules hr)) x hx⟩
    have hflat : ps.map Css.Part.flat = ps.map id :=
      List.map_congr_left fun p hp => Css.Part.flat_eq_self (hdepth p hp)
    rw [hlayout, Css.compile_layout hne, hflat, List.map_id]
  · -- Lines of conditionals stand further in, and come back at the depth of the rule.
    obtain ⟨ps, hne, hdepth, hlayout⟩ := Css.exists_parts (P := (1 ≤ ·)) hfinish hsheet hdeclared
    rw [hlayout, Css.compile_layout hne, Css.reindent_layout hdepth]

/-- A rule with one conditional inside another, under an id that could be a colour. -/
def nestedSource : String :=
  "#abcdef\x7bif[TRUE]\x7bwidth:2*3px;if[FALSE]\x7bzoom:7;\x7delse\x7bzoom:5%;\x7d\x7d\x7d"

theorem compile_compile_nested :
    let text := "#abcdef \x7b\n\t\twidth: 6px;\n\t\t\tzoom: 7;\n\t\t\tzoom: 5%;\n\x7d\n"
    let selected := "#abcdef \x7b\n\twidth: 6px;\n\tzoom: 5%;\n\x7d\n"
    (compile { selectBranches := true } nestedSource = .ok selected ∧
        ∀ again, compile again selected = .ok selected) ∧
      compile { selectBranches := false } nestedSource = .ok text ∧
        (∀ again, compile again text = .ok (Css.reindent text)) ∧
        Css.reindent text = "#abcdef \x7b\n\twidth: 6px;\n\tzoom: 7;\n\tzoom: 5%;\n\x7d\n" := by
  intro text selected
  have hselected : compile { selectBranches := true } nestedSource = .ok selected := by
    decide +kernel
  have htext : compile { selectBranches := false } nestedSource = .ok text := by decide +kernel
  exact ⟨⟨hselected, compile_compile hselected (by decide +kernel)⟩, htext,
    compile_compile htext (by decide +kernel), by decide +kernel⟩

end TypedStyle
