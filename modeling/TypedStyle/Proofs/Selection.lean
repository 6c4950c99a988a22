import Mathlib.Data.List.Forall2
import TypedStyle.Proofs.Build
import TypedStyle.Proofs.Denotation
import TypedStyle.Proofs.Recompile

/-!
# Compiling with and without selecting branches

Whether a source compiles does not depend on whether branches are selected: a sheet that is checked
and folded has a boolean for every condition. Nor do the errors depend on it, since selecting
happens last.

The two texts are compared as they stand. `Css.blocks` cuts a generated text at its line breaks and
closing braces into rules, each with the row that opens it and the rows of its lines.
-/

namespace TypedStyle

variable {sheet : Sheet} {is : List Item}

/-! ## Outcomes -/

theorem Sheet.finish_error (h : sheet.analyze = []) (options : Options) :
    (sheet.finish options).error = sheet.fold.error.map .ofFold := by
  have hsettles := fold_settles h
  rw [finish]
  split
  · next e hfold => rw [hfold, Option.map_some]
  · next hfold =>
    rw [hfold] at hsettles ⊢
    have hselect : sheet.fold.sheet.selectBranches.error = none := Branch.items_of_settled _ hsettles
    by_cases hoption : options.selectBranches = true
    · simp [hoption, hselect]
    · simp [hoption]

/-- The error of a source is the same under all options. -/
theorem compile_error_iff (source : String) (e : CompileError) (options options' : Options) :
    compile options source = .error e ↔ compile options' source = .error e := by
  rw [compile_eq, compile_eq]
  split
  · next hclean =>
    have hanalyze := Sheet.checkSource_clean (List.isEmpty_iff.1 hclean)
    rw [Sheet.finish_error hanalyze, Sheet.finish_error hanalyze]
    split <;> simp
  · rfl

theorem compile_ok_iff (source : String) (options options' : Options) :
    (∃ css, compile options source = .ok css) ↔ ∃ css, compile options' source = .ok css := by
  have herror := fun e => compile_error_iff source e options options'
  cases h : compile options source <;> cases h' : compile options' source <;> simp_all

/-- Checking an entry goes well exactly if the entry can be compiled under the given options. -/
theorem Project.checkEntry_iff (d : Disk) (entry : Path) (options : Options) :
    (checkEntry d entry).2 = true ↔ ∃ css, (Plan.compileFile d options entry).2 = .ok css := by
  simp only [Plan.compileFile_eq_ok_iff, checkEntry]
  split
  · next e hread => simp [hread]
  · next source hread =>
    -- The default options are as good as any others.
    have hiff := compile_ok_iff source {} options
    rw [compile] at hiff
    have hcompile : (∃ css s, d.readText entry = .ok s ∧ compile options s = .ok css) ↔
        ∃ css, compile options source = .ok css := by
      simp [hread]
    rw [hcompile, ← hiff]
    split <;> simp_all

/-! ## Rules of a generated text -/

namespace Css

/-- A rule in a generated text: the row that opens it and the rows of its lines. -/
structure Block where
  opening : List Char
  rows : List (List Char)
deriving DecidableEq

/-- The rules of a generated text. Each ends with a row that is a closing brace. -/
def blocks (text : String) : List Block :=
  ((text.toList.splitOn '\n').splitOn ['\x7d']).dropLast.map fun rows =>
    ⟨rows.headD [], rows.tail⟩

/-- The characters of a row behind its tabs. -/
def untabbed (row : List Char) : List Char :=
  row.dropWhile (· == '\t')

/-- A rule with the lines of selected branches, compared with the same rule with the lines of all
branches. -/
structure Block.Selects (selected full : Block) : Prop where
  opening : selected.opening = full.opening
  indented : ∀ row ∈ selected.rows, row.takeWhile (· == '\t') = ['\t']
  /-- Lines are left out, but neither changed nor moved, apart from their tabs. -/
  sublist : (selected.rows.map untabbed).Sublist (full.rows.map untabbed)

namespace Declaration

variable {x : Declaration}

/-- The characters of the line of a declaration behind its tabs. -/
def body (x : Declaration) : List Char :=
  printed x.property x.value.text

def row (x : Declaration) : List Char :=
  List.replicate x.depth '\t' ++ x.body

theorem toList_css (x : Declaration) : x.css.toList = x.row ++ ['\n'] := by
  simp [css, line, row, body, printed]

theorem Settled.forall_mem_body (h : x.Settled) : ∀ c ∈ x.body, 32 ≤ c.toNat := by
  obtain ⟨hproperty, v, hvalue, hlegible, -⟩ := h
  rw [body]
  cases hx : x.value with
  | literal id place w =>
    rw [hx] at hvalue
    obtain rfl := Option.some.inj hvalue
    exact forall_mem_printed hproperty hlegible
  | _ => rw [hx] at hvalue; cases hvalue

theorem Settled.untabbed_row (h : x.Settled) : untabbed x.row = x.body :=
  dropWhile_tabs x.depth h.forall_mem_body

theorem Settled.newline_not_mem (h : x.Settled) : '\n' ∉ x.row := by
  intro hmem
  rcases List.mem_append.1 hmem with htab | hbody
  · exact absurd (List.eq_of_mem_replicate htab) (by decide)
  · exact absurd (h.forall_mem_body _ hbody) (by decide)

theorem Settled.takeWhile_row (h : x.Settled) :
    x.row.takeWhile (· == '\t') = List.replicate x.depth '\t' := by
  have hparts := List.takeWhile_append_dropWhile (p := (· == '\t')) (l := x.row)
  rw [show x.row.dropWhile (· == '\t') = x.body from h.untabbed_row] at hparts
  exact List.append_cancel_right hparts

theorem row_ne_brace (x : Declaration) : x.row ≠ ['\x7d'] := by
  intro h
  have hlast := congrArg List.getLast? h
  rw [row, body, printed, ← List.append_assoc, List.getLast?_concat] at hlast
  cases hlast

end Declaration

/-- Rules without line breaks in their rows are the ones that their text is cut into. -/
theorem blocks_ofList {bs : List Block}
    (h : ∀ b ∈ bs, ∀ row ∈ b.opening :: b.rows, '\n' ∉ row ∧ row ≠ ['\x7d']) :
    blocks (String.ofList ((bs.flatMap fun b => (b.opening :: b.rows) ++ [['\x7d']]).flatMap
      (· ++ ['\n']))) = bs := by
  let rows (b : Block) : List (List Char) := b.opening :: b.rows
  have hbreaks : ∀ row ∈ bs.flatMap fun b => rows b ++ [['\x7d']], '\n' ∉ row := by
    intro row hrow
    obtain ⟨b, hb, hmem⟩ := List.mem_flatMap.1 hrow
    rcases List.mem_append.1 hmem with hmem | hmem
    · exact (h b hb row hmem).1
    · rw [List.mem_singleton.1 hmem]
      decide
  -- With the empty last row put in, the closing braces stand between the rules.
  have hcut : (bs.flatMap fun b => rows b ++ [['\x7d']]) ++ [[]] =
      [['\x7d']].intercalate (bs.map rows ++ [[[]]]) := by
    rw [← flatMap_append_eq_intercalate, List.flatMap_map]
  have hsplit : ([['\x7d']].intercalate (bs.map rows ++ [[[]]])).splitOn ['\x7d'] =
      bs.map rows ++ [[[]]] := by
    refine List.splitOn_intercalate _ (List.forall_mem_append.2 ⟨?_, by simp⟩) (by simp)
    exact List.forall_mem_map.2 fun b hb hmem => (h b hb _ hmem).2 rfl
  rw [blocks, String.toList_ofList, splitOn_rows hbreaks, hcut, hsplit, List.dropLast_concat,
    List.map_map]
  exact List.map_id bs

end Css

/-- The rule of the generated text that a rule of a sheet becomes. -/
def Rule.block (r : Rule) : Css.Block :=
  ⟨Css.opening r.selector, (Statement.declarationsAll 1 r.body).map Css.Declaration.row⟩

theorem Rule.toList_css (r : Rule) :
    r.css.toList = ((r.block.opening :: r.block.rows) ++ [['\x7d']]).flatMap (· ++ ['\n']) := by
  have hlines : (Statement.cssAll 1 r.body).toList = r.block.rows.flatMap (· ++ ['\n']) := by
    rw [Statement.toList_cssAll, block, List.flatMap_map]
    exact List.flatMap_congr fun x _ => x.toList_css
  simp [css, hlines, block, Css.opening]

section Settled

variable {r : Rule}

theorem Rule.settled_declarations (hlegible : (Item.rule r).Legible)
    (hsettled : (Item.rule r).Settled) :
    ∀ x ∈ Statement.declarationsAll 1 r.body, x.Settled := fun x hx =>
  (Statement.settled_declarationsAll r.body hsettled hlegible.2 x hx).1

theorem Rule.rows_block (hlegible : (Item.rule r).Legible) (hsettled : (Item.rule r).Settled) :
    ∀ row ∈ r.block.opening :: r.block.rows, '\n' ∉ row ∧ row ≠ ['\x7d'] := by
  refine List.forall_mem_cons.2 ⟨⟨fun hmem => ?_, fun h => ?_⟩, List.forall_mem_map.2 fun x hx => ?_⟩
  · exact absurd (Css.forall_mem_opening hlegible.1 _ hmem) (by decide)
  · -- An opening row ends with the other brace.
    have hlast := congrArg List.getLast? h
    simp [block, Css.opening] at hlast
  · exact ⟨(settled_declarations hlegible hsettled x hx).newline_not_mem, x.row_ne_brace⟩

end Settled

theorem Sheet.toList_css (sheet : Sheet) :
    sheet.css.toList = ((sheet.rules.map Rule.block).flatMap
      fun b => (b.opening :: b.rows) ++ [['\x7d']]).flatMap (· ++ ['\n']) := by
  rw [css, String.toList_join, List.flatMap_map, List.flatMap_map, List.flatMap_assoc]
  exact List.flatMap_congr fun r _ => r.toList_css

/-- Cutting the text of a settled sheet gives its rules. -/
theorem Css.blocks_css (hlegible : sheet.Legible) (hsettled : ∀ i ∈ sheet.items, i.Settled) :
    blocks sheet.css = sheet.rules.map Rule.block := by
  rw [← String.ofList_toList (s := sheet.css), sheet.toList_css]
  refine blocks_ofList (List.forall_mem_map.2 fun r hr => ?_)
  exact r.rows_block (hlegible _ (Sheet.mem_items_of_mem_rules hr))
    (hsettled _ (Sheet.mem_items_of_mem_rules hr))

/-! ## What selecting leaves out -/

namespace Branch

mutual

theorem sublist_statement :
    ∀ (s : Statement) {taken : List Statement}, statement s = .ok taken → ∀ depth depth' : Nat,
      ((Statement.declarationsAll depth taken).map Css.Declaration.body).Sublist
        ((s.declarations depth').map Css.Declaration.body)
  | .declare property value span, taken, h, depth, depth' => by
    obtain rfl := Except.ok.inj h
    exact .refl _
  | .assign a, taken, h, depth, depth' => by
    obtain rfl := Except.ok.inj h
    exact .refl _
  | .ifThen _ value body _, taken, h, depth, depth' => by
    rcases statement_ifThen_eq_ok h with h | rfl
    · exact sublist_statements body h depth (depth' + 1)
    · exact List.nil_sublist _
  | .ifElse _ value body alternative _ _, taken, h, depth, depth' => by
    rw [Statement.declarations, List.map_append]
    rcases statement_ifElse_eq_ok h with h | h
    · exact (sublist_statements body h depth (depth' + 1)).trans (List.sublist_append_left _ _)
    · exact (sublist_statements alternative h depth (depth' + 1)).trans
        (List.sublist_append_right _ _)

/-- What is declared after selecting was declared before, in the same order. The depths are
general, since selecting takes statements out of their blocks. -/
theorem sublist_statements :
    ∀ (body : List Statement) {taken : List Statement}, statements body = .ok taken →
      ∀ depth depth' : Nat,
        ((Statement.declarationsAll depth taken).map Css.Declaration.body).Sublist
          ((Statement.declarationsAll depth' body).map Css.Declaration.body)
  | [], taken, h, depth, depth' => by
    obtain rfl := Except.ok.inj h
    exact .refl _
  | s :: rest, taken, h, depth, depth' => by
    obtain ⟨first, more, hfirst, hmore, rfl⟩ := statements_cons_eq_ok h
    rw [Statement.declarationsAll_append, Statement.declarationsAll, List.map_append,
      List.map_append]
    exact (sublist_statement s hfirst depth depth').append
      (sublist_statements rest hmore depth depth')

end

end Branch

/-- The rule that is left of a settled one has lines at one tab, taken from those it had. -/
theorem Rule.selects_block {r : Rule} (hlegible : (Item.rule r).Legible)
    (hsettled : (Item.rule r).Settled) {taken : List Statement}
    (h : Branch.statements r.body = .ok taken) :
    { r with body := taken }.block.Selects r.block := by
  have hplain := Branch.plain_statements r.body hsettled h
  have hleft : (Item.rule { r with body := taken }).Legible :=
    ⟨hlegible.1, Branch.legible_statements r.body h hlegible.2⟩
  have hdeclared := settled_declarations hleft fun s hs => (hplain s hs).settled
  have huntab {xs : List Css.Declaration} (hxs : ∀ x ∈ xs, x.Settled) :
      (xs.map Css.Declaration.row).map Css.untabbed = xs.map Css.Declaration.body := by
    rw [List.map_map]
    exact List.map_congr_left fun x hx => (hxs x hx).untabbed_row
  refine ⟨rfl, List.forall_mem_map.2 fun x hx => ?_, ?_⟩
  · rw [(hdeclared x hx).takeWhile_row, Statement.depth_of_plain hplain x hx]
    rfl
  · rw [block, block, huntab hdeclared, huntab (settled_declarations hlegible hsettled)]
    exact Branch.sublist_statements r.body h 1 1

theorem Branch.selects_items (hlegible : ∀ i ∈ is, i.Legible) (hsettled : ∀ i ∈ is, i.Settled) :
    List.Forall₂ (fun r r' => r.block.Selects r'.block) (Sheet.mk (items is).1).rules
      (Sheet.mk is).rules := by
  induction is with
  | nil => exact .nil
  | cons i rest ih =>
    obtain ⟨hfirst, hrest⟩ := List.forall_mem_cons.1 hsettled
    obtain ⟨hfirst', hrest'⟩ := List.forall_mem_cons.1 hlegible
    cases i with
    | assign a => exact hfirst.elim
    | rule r =>
      obtain ⟨taken, htaken⟩ := statements_of_settled r.body hfirst
      simp only [items, htaken]
      exact .cons (r.selects_block hfirst' hfirst htaken) (ih hrest' hrest)

/-! ## Sheets without conditionals -/

def Statement.isConditional : Statement → Bool
  | ifThen .. | ifElse .. => true
  | _ => false

/-- There is no conditional in the rules of the sheet. -/
def Sheet.Unconditional (sheet : Sheet) : Prop :=
  ∀ r ∈ sheet.rules, ∀ s ∈ r.body, s.isConditional = false
deriving Decidable

theorem Statement.FoldsTo.isConditional {around : List (List Assignment)} {s s' : Statement}
    (h : FoldsTo around s s') : s'.isConditional = s.isConditional := by
  cases h <;> rfl

theorem Statement.FoldAll.exists_mem {around : List (List Assignment)} {body body' : List Statement} :
    FoldAll around body body' → ∀ s' ∈ body', ∃ s ∈ body, s'.isConditional = s.isConditional
  | .nil, s', hs' => nomatch hs'
  | .assign a hrest, s', hs' => by
    obtain ⟨s, hs, heq⟩ := hrest.exists_mem s' hs'
    exact ⟨s, List.mem_cons_of_mem _ hs, heq⟩
  | .cons hfirst hrest, s', hs' => by
    rcases List.mem_cons.1 hs' with rfl | hs'
    · exact ⟨_, List.mem_cons_self, hfirst.isConditional⟩
    · obtain ⟨s, hs, heq⟩ := hrest.exists_mem s' hs'
      exact ⟨s, List.mem_cons_of_mem _ hs, heq⟩

theorem Item.FoldAll.map_selector {top : List Assignment} {is' : List Item}
    (h : FoldAll top is is') :
    (Sheet.mk is').rules.map Rule.selector = (Sheet.mk is).rules.map Rule.selector := by
  induction h with
  | nil => rfl
  | assign a hrest ih => exact ih
  | @rule r body' rest rest' hbody hrest ih => exact congrArg (r.selector :: ·) ih

theorem Item.FoldAll.exists_rule {top : List Assignment} {is' : List Item}
    (h : FoldAll top is is') {r' : Rule} (hr' : r' ∈ (Sheet.mk is').rules) :
    ∃ r ∈ (Sheet.mk is).rules, ∃ around, Statement.FoldAll around r.body r'.body := by
  induction h with
  | nil => cases hr'
  | assign a hrest ih => exact ih hr'
  | rule hbody hrest ih =>
    rcases List.mem_cons.1 hr' with rfl | hr'
    · exact ⟨_, List.mem_cons_self, _, hbody⟩
    · obtain ⟨r, hr, hfolds⟩ := ih hr'
      exact ⟨r, List.mem_cons_of_mem _ hr, hfolds⟩

theorem Statement.Settled.plain {s : Statement} (h : s.Settled) (hs : s.isConditional = false) :
    s.Plain := by
  cases h with
  | @declare property value v span hvalue haccepts =>
    cases value with
    | literal id place w =>
      obtain rfl := Option.some.inj hvalue
      exact .declare haccepts
    | _ => cases hvalue
  | _ => cases hs

theorem Sheet.Unconditional.plain {folded : Sheet} (h : sheet.Unconditional)
    (hfolds : sheet.FoldsTo folded) (hsettled : ∀ i ∈ folded.items, i.Settled) : folded.Plain := by
  intro i hi
  cases i with
  | assign a => exact hsettled _ hi
  | rule r' =>
    intro s' hs'
    have hr' : r' ∈ folded.rules := List.mem_filterMap.2 ⟨_, hi, rfl⟩
    obtain ⟨r, hr, around, hbody⟩ := Item.FoldAll.exists_rule hfolds hr'
    obtain ⟨s, hs, hsame⟩ := hbody.exists_mem s' hs'
    exact (hsettled _ hi s' hs').plain (hsame.trans (h r hr s hs))

/-! ## Both outcomes -/

section Folded

variable {sheet folded : Sheet}

theorem Css.map_opening_blocks (hlegible : folded.Legible) (hfolds : sheet.FoldsTo folded)
    (hsettled : ∀ i ∈ folded.items, i.Settled) :
    (blocks folded.css).map Block.opening = sheet.rules.map fun r => opening r.selector := by
  have hselectors := congrArg (List.map opening) (Item.FoldAll.map_selector hfolds)
  rw [List.map_map, List.map_map] at hselectors
  rw [blocks_css hlegible hsettled, List.map_map]
  exact hselectors

theorem Css.selects_blocks (hlegible : folded.Legible) (hsettled : ∀ i ∈ folded.items, i.Settled) :
    List.Forall₂ Block.Selects (blocks folded.selectBranches.sheet.css) (blocks folded.css) := by
  have hplain : folded.selectBranches.sheet.Plain := Branch.plain_items hsettled
  have hlegible' : folded.selectBranches.sheet.Legible := Branch.legible_items hlegible
  rw [blocks_css hlegible hsettled, blocks_css hlegible' hplain.settled,
    List.forall₂_map_left_iff, List.forall₂_map_right_iff]
  exact Branch.selects_items hlegible hsettled

theorem Sheet.Unconditional.selectBranches (h : sheet.Unconditional)
    (hfolds : sheet.FoldsTo folded) (hsettled : ∀ i ∈ folded.items, i.Settled) :
    folded.selectBranches.sheet = folded := by
  have hsame := Branch.items_of_plain (h.plain hfolds hsettled)
  rw [Sheet.selectBranches, hsame]

end Folded

/-- Selecting branches does not change whether a source compiles, nor the error if it does not; so
checking entries, for which nothing is selected, tells whether they can be built under any options.
The text with selected branches has the same rules under the selectors of the source; in each, its
lines are some of the lines of the full text, in order, at one tab. Without a conditional in the
source the two texts are the same. -/
theorem compile_selecting :
    (∀ (source : String) (e : CompileError),
      compile { selectBranches := true } source = .error e ↔
        compile { selectBranches := false } source = .error e) ∧
    (∀ source : String, (∃ css, compile { selectBranches := true } source = .ok css) ↔
      ∃ css, compile { selectBranches := false } source = .ok css) ∧
    (∀ (d : Disk) (entries : List Path) (options : Options),
      (Project.check d entries).success = true ↔
        ∀ entry ∈ entries, ∃ css, (Plan.compileFile d options entry).2 = .ok css) ∧
    ∀ source selected full : String,
      compile { selectBranches := true } source = .ok selected →
      compile { selectBranches := false } source = .ok full →
      (Css.blocks full).map Css.Block.opening =
          (Sheet.parse source).sheet.rules.map (fun r => Css.opening r.selector) ∧
        List.Forall₂ Css.Block.Selects (Css.blocks selected) (Css.blocks full) ∧
        ((Sheet.parse source).sheet.Unconditional → selected = full) := by
  refine ⟨fun source e => compile_error_iff source e _ _, fun source => compile_ok_iff source _ _,
    fun d entries options => ?_, fun source selected full hselected hfull => ?_⟩
  · simp only [Project.check, List.all_map, List.all_eq_true, Function.comp_apply,
      Project.checkEntry_iff d _ options]
  · obtain ⟨hlegible, hclean, herror, rfl⟩ := Sheet.of_compile_ok hfull
    obtain ⟨-, -, herror', rfl⟩ := Sheet.of_compile_ok hselected
    rw [Sheet.checkSource_sheet] at hlegible hclean herror herror' ⊢
    -- Both texts come from one folded sheet.
    obtain ⟨hfold, hsheet⟩ := Sheet.finish_sheet herror
    obtain ⟨-, hsheet'⟩ := Sheet.finish_sheet herror'
    rw [hsheet, hsheet', if_pos rfl, if_neg (by decide)]
    have hfolds := Sheet.foldsTo_fold hfold
    have hlegible' := Sheet.legible_fold hlegible
    have hsettled := Sheet.fold_settles hclean
    rw [hfold] at hsettled
    refine ⟨Css.map_opening_blocks hlegible' hfolds hsettled,
      Css.selects_blocks hlegible' hsettled, fun hunconditional => ?_⟩
    rw [hunconditional.selectBranches hfolds hsettled]

theorem compile_selecting_nested :
    let full := "#abcdef \x7b\n\t\twidth: 6px;\n\t\t\tzoom: 7;\n\t\t\tzoom: 5%;\n\x7d\n"
    let selected := "#abcdef \x7b\n\twidth: 6px;\n\tzoom: 5%;\n\x7d\n"
    let plain := "Size := 2px; a \x7b width: Size; \x7d .b \x7b A := 1px; zoom: A - Size; \x7d"
    (compile { selectBranches := true } nestedSource = .ok selected ∧
        compile { selectBranches := false } nestedSource = .ok full ∧
        (Css.blocks full).map Css.Block.opening = ["#abcdef \x7b".toList] ∧
        List.Forall₂ Css.Block.Selects (Css.blocks selected) (Css.blocks full)) ∧
      (Sheet.parse plain).sheet.Unconditional ∧
        ∃ css, compile { selectBranches := true } plain = .ok css ∧
          compile { selectBranches := false } plain = .ok css := by
  intro full selected plain
  have hselected : compile { selectBranches := true } nestedSource = .ok selected := by
    decide +kernel
  have hfull : compile { selectBranches := false } nestedSource = .ok full := by decide +kernel
  obtain ⟨-, hok, -, htexts⟩ := compile_selecting
  obtain ⟨hopening, hselects, -⟩ := htexts _ _ _ hselected hfull
  have hplain : compile { selectBranches := true } plain =
      .ok "a \x7b\n\twidth: 2px;\n\x7d\n.b \x7b\n\tzoom: -1px;\n\x7d\n" := by
    decide +kernel
  have hunconditional : (Sheet.parse plain).sheet.Unconditional := by decide +kernel
  obtain ⟨css, hcss⟩ := (hok plain).1 ⟨_, hplain⟩
  refine ⟨⟨hselected, hfull, hopening.trans (by decide +kernel), hselects⟩, hunconditional, css, ?_,
    hcss⟩
  rw [hplain, (htexts _ _ _ hplain hcss).2.2 hunconditional]

end TypedStyle
