import TypedStyle.Proofs.BuildRecord
import TypedStyle.Proofs.CheckerExactness

/-!
# Spans of diagnostics

A diagnostic is shown with the line it stands on, and a line can be cut out of the source only
between characters. Every span in a diagnostic fits: its ends are in order, inside the source and
between characters.

- `Token.fitsIn_scan`: the spans of tokens and faults are those of the lexemes, which cover the
  source without gap.
- Reading gives every node and problem the span of a token or of a stretch between two tokens; the
  checker reports at nodes (`Sheet.placed_violations`), and so does a fold that overflows
  (`Sheet.fold_error_at`).
-/

namespace TypedStyle

variable {x : Lexeme × Span} {source : String} {d : Diagnostic}

/-! ## Cuts between characters -/

namespace Text

theorem cut?_append (before after : List Char) :
    cut? (before ++ after) (byteSize before) = some (before, after) := by
  induction before with
  | nil => cases after <;> simp [cut?]
  | cons c before ih =>
    have hpos : 0 < c.utf8Size := c.utf8Size_pos
    rw [List.cons_append, cut?, byteSize_cons, if_neg (by omega), if_neg (by omega),
      Nat.add_sub_cancel_left, ih, Option.map_some]

theorem isValid_byteSize {source : String} {before after : List Char}
    (h : source.toList = before ++ after) :
    String.Pos.Raw.IsValid source ⟨byteSize before⟩ := by
  refine String.Pos.Raw.isValid_iff_exists_append.2 ⟨.ofList before, .ofList after, ?_, ?_⟩
  · rw [← String.ofList_append, ← h, String.ofList_toList]
  · rw [String.Pos.Raw.ext_iff, String.byteIdx_rawEndPos, utf8ByteSize_ofList]

theorem exists_cut? {source : String} {offset : Nat}
    (h : String.Pos.Raw.IsValid source ⟨offset⟩) :
    ∃ before after, cut? source.toList offset = some (before, after) := by
  obtain ⟨front, back, rfl, hoffset⟩ := String.Pos.Raw.isValid_iff_exists_append.1 h
  have hsize : offset = byteSize front.toList := by
    rw [← utf8ByteSize_ofList, String.ofList_toList]
    exact congrArg String.Pos.Raw.byteIdx hoffset
  exact ⟨front.toList, back.toList, by rw [hsize, String.toList_append, cut?_append]⟩

end Text

/-- A span lies in a source, and both of its ends stand between characters. -/
structure Span.FitsIn (source : String) (s : Span) : Prop where
  start_le : s.start ≤ s.stop
  stop_le : s.stop ≤ source.utf8ByteSize
  start_valid : String.Pos.Raw.IsValid source ⟨s.start⟩
  stop_valid : String.Pos.Raw.IsValid source ⟨s.stop⟩

namespace Span

theorem fitsIn_of_append {source : String} {before part after : List Char}
    (h : source.toList = before ++ part ++ after) :
    FitsIn source ⟨Text.byteSize before, Text.byteSize (before ++ part)⟩ := by
  have hstart := Text.isValid_byteSize (h.trans (List.append_assoc ..))
  have hstop := Text.isValid_byteSize h
  refine ⟨?_, hstop.le_rawEndPos, hstart, hstop⟩
  exact Text.byteSize_append .. ▸ Nat.le_add_right ..

theorem spanning_fitsIn (source : String) : Spanning (FitsIn source) where
  zero := by
    have hstart : source.toList = [] ++ [] ++ source.toList := rfl
    exact fitsIn_of_append hstart
  merge {a b} ha hb := by
    -- Each end of the merged span is an end of one of the two.
    have hstart : (a.merge b).start = a.start ∨ (a.merge b).start = b.start := by
      simp only [merge]
      omega
    have hstop : (a.merge b).stop = a.stop ∨ (a.merge b).stop = b.stop := by
      simp only [merge]
      omega
    refine ⟨?_, ?_, ?_, ?_⟩
    · have := ha.start_le
      simp only [merge]
      omega
    · have := ha.stop_le
      have := hb.stop_le
      simp only [merge]
      omega
    · rcases hstart with hstart | hstart <;> rw [hstart]
      · exact ha.start_valid
      · exact hb.start_valid
    · rcases hstop with hstop | hstop <;> rw [hstop]
      · exact ha.stop_valid
      · exact hb.stop_valid

end Span

/-! ## Lexemes -/

theorem Lexeme.exists_of_mem_place {start : Nat} {ls : List Lexeme} (h : x ∈ place start ls) :
    ∃ before after, ls = before ++ x.1 :: after ∧
      x.2.start = start + Text.byteSize (before.flatMap text) ∧
      x.2.stop = x.2.start + Text.byteSize x.1.text := by
  induction ls generalizing start with
  | nil => simp [place] at h
  | cons l rest ih =>
    rcases List.mem_cons.1 h with rfl | h
    · exact ⟨[], rest, rfl, by simp, rfl⟩
    · obtain ⟨before, after, rfl, hstart, hstop⟩ := ih h
      refine ⟨l :: before, after, rfl, ?_, hstop⟩
      rw [hstart, List.flatMap_cons, Text.byteSize_append, Nat.add_assoc]

theorem Lexeme.fitsIn_of_mem_place (h : x ∈ place 0 (lexemes source.toList)) :
    x.2.FitsIn source := by
  obtain ⟨before, after, hls, hstart, hstop⟩ := exists_of_mem_place h
  have hsource : source.toList =
      before.flatMap text ++ x.1.text ++ after.flatMap text := by
    rw [← flatMap_text_lexemes source.toList, hls]
    simp
  have hfits := Span.fitsIn_of_append hsource
  rw [Text.byteSize_append] at hfits
  rw [Nat.zero_add] at hstart
  rwa [← hstart, ← hstop] at hfits

theorem Lexeme.span_of_token? {t : Token} (h : token? x = some t) : t.span = x.2 := by
  unfold token? at h
  split at h <;> cases h <;> rfl

theorem Lexeme.span_of_diagnostic? (h : diagnostic? x = some d) : d.span = x.2 := by
  unfold diagnostic? at h
  split at h <;> cases h <;> rfl

/-- Every token and every fault of a source has a span that fits. -/
theorem Token.fitsIn_scan (source : String) :
    (∀ t ∈ (scan source.toList).tokens, t.span.FitsIn source) ∧
      ∀ d ∈ (scan source.toList).diagnostics, d.span.FitsIn source := by
  constructor
  · intro t ht
    rcases List.mem_append.1 ht with ht | ht
    · obtain ⟨x, hx, htoken⟩ := List.mem_filterMap.1 ht
      exact Lexeme.span_of_token? htoken ▸ Lexeme.fitsIn_of_mem_place hx
    · obtain rfl := List.mem_singleton.1 ht
      -- The end of the source is an empty part behind all of it.
      have hwhole : source.toList = source.toList ++ [] ++ [] := by simp
      have hend := Span.fitsIn_of_append hwhole
      rwa [List.append_nil] at hend
  · intro d hd
    obtain ⟨x, hx, hdiagnostic⟩ := List.mem_filterMap.1 hd
    exact Lexeme.span_of_diagnostic? hdiagnostic ▸ Lexeme.fitsIn_of_mem_place hx

/-! ## Folding -/

def FoldError.IsAt (nodes : List (NodeId × Span)) : FoldError → Prop
  | overflow _ node span => (node, span) ∈ nodes
  | _ => True

namespace FoldError

theorem IsAt.mono {nodes nodes' : List (NodeId × Span)} {e : FoldError} (h : e.IsAt nodes)
    (hsub : nodes ⊆ nodes') : e.IsAt nodes' := by
  cases e with
  | overflow op node span => exact hsub h
  | _ => trivial

end FoldError

theorem Expr.eval_error_at {scope : Scope Literal} {e : Expr} {x : FoldError}
    (h : e.eval scope = .error x) : x.IsAt e.nodes := by
  induction e with
  | literal id span value => cases h
  | reference id span name =>
    simp only [eval] at h
    split at h
    · cases h
    · cases h
      trivial
  | operation id span op lhs rhs ihl ihr =>
    simp only [eval] at h
    split at h
    · next hlhs =>
      cases h
      exact (ihl hlhs).mono (by simp [nodes])
    · split at h
      · next hrhs =>
        cases h
        exact (ihr hrhs).mono (by simp [nodes])
      · simp only [Operator.apply] at h
        split at h
        · split at h
          · cases h
          · cases h
            simp [FoldError.IsAt, nodes]
        · cases h
          trivial

theorem Expr.fold_error_at {scope : Scope Literal} {e : Expr} {x : FoldError}
    (h : e.fold scope = .error x) : x.IsAt e.nodes := by
  unfold fold at h
  split at h
  · cases h
  · next hvalue =>
    cases h
    exact eval_error_at hvalue

namespace Folded

variable {scope : Scope Literal} {x : FoldError}

theorem assignments_error_at {as : List Assignment} (h : (assignments scope as).2 = some x) :
    x.IsAt (as.flatMap fun a => a.value.nodes) := by
  induction as generalizing scope with
  | nil => cases h
  | cons a rest ih =>
    simp only [assignments] at h
    split at h
    · exact (ih h).mono (by simp)
    · next hvalue =>
      cases h
      exact (Expr.eval_error_at hvalue).mono (by simp)

theorem block_error_at {body : List Statement} {rest : Scope Literal → Folded (List Statement)}
    (hrest : ∀ inner x, (rest inner).error = some x → x.IsAt (Statement.nodesAll body))
    (h : (block scope body rest).error = some x) : x.IsAt (Statement.nodesAll body) := by
  simp only [block] at h
  split at h
  · next e hassign =>
    cases h
    have hat := assignments_error_at (congrArg Prod.snd hassign)
    have hsub := List.Subset.trans (List.subset_append_left _ _) (Statement.nodes_perm body).subset
    exact hat.mono hsub
  · split at h
    · next herror =>
      cases h
      exact hrest _ _ herror
    · cases h

mutual

theorem statement_error_at {scope : Scope Literal} :
    ∀ (s : Statement) {x : FoldError}, (statement scope s).error = some x → x.IsAt s.nodes
  | .assign _, _, h => by cases h
  | .declare property value span, x, h => by
    simp only [statement] at h
    split at h
    · cases h
    · next hvalue =>
      cases h
      exact Expr.fold_error_at hvalue
  | .ifThen id condition body span, x, h => by
    simp only [statement] at h
    split at h
    · next hcondition =>
      cases h
      exact (Expr.fold_error_at hcondition).mono (by simp [Statement.nodes])
    · have hbody := block_error_at (fun _ _ => statements_error_at body) h
      exact hbody.mono (by simp [Statement.nodes])
  | .ifElse id condition body alternative elseSpan span, x, h => by
    simp only [statement] at h
    split at h
    · next hcondition =>
      cases h
      exact (Expr.fold_error_at hcondition).mono (by simp [Statement.nodes])
    · split at h
      · have hbody := block_error_at (fun _ _ => statements_error_at body) h
        exact hbody.mono fun y hy => by simp [Statement.nodes, hy]
      · have hother := block_error_at (fun _ _ => statements_error_at alternative) h
        exact hother.mono fun y hy => by simp [Statement.nodes, hy]

theorem statements_error_at {scope : Scope Literal} :
    ∀ (body : List Statement) {x : FoldError}, (statements scope body).error = some x →
      x.IsAt (Statement.nodesAll body)
  | [], _, h => by cases h
  | s :: rest, x, h => by
    simp only [statements] at h
    split at h
    · exact (statement_error_at s h).mono (List.subset_append_left ..)
    · exact (statements_error_at rest h).mono (List.subset_append_right ..)

end

theorem items_error_at {is : List Item} (h : (items scope is).error = some x) :
    x.IsAt (is.flatMap Item.nodes) := by
  induction is generalizing scope with
  | nil => cases h
  | cons item rest ih =>
    cases item with
    | assign a => exact (ih h).mono (by simp)
    | rule r =>
      simp only [items] at h
      split at h
      · have hbody := block_error_at (fun _ _ => statements_error_at r.body) h
        exact hbody.mono (List.subset_append_left ..)
      · exact (ih h).mono (by simp)

end Folded

theorem Sheet.fold_error_at {sheet : Sheet} {x : FoldError} (h : sheet.fold.error = some x) :
    x.IsAt sheet.nodes := by
  simp only [fold] at h
  split at h
  · next hassign =>
    cases h
    have hat := Folded.assignments_error_at (congrArg Prod.snd hassign)
    exact hat.mono (List.Subset.trans (List.subset_append_left _ _) sheet.nodes_perm.subset)
  · split at h
    · next herror =>
      cases h
      exact Folded.items_error_at herror
    · cases h

/-! ## Diagnostics -/

theorem Diagnostic.oncePerNode_subset (seen : List NodeId) (ds : List Diagnostic) :
    oncePerNode seen ds ⊆ ds := by
  induction ds generalizing seen with
  | nil => exact List.Subset.refl _
  | cons d rest ih =>
    simp only [oncePerNode]
    split
    · exact List.cons_subset_cons _ (ih _)
    · split
      · exact List.cons_subset_cons _ (ih _)
      · split
        · exact List.Subset.trans (ih _) (List.subset_cons_self ..)
        · exact List.cons_subset_cons _ (ih _)

theorem Placed.exists_node {ds : List Diagnostic} {nodes : List (NodeId × Span)}
    (h : Placed ds nodes) (hd : d ∈ ds) : ∃ x ∈ nodes, d.span = x.2 := by
  obtain ⟨found, hfound, hsub⟩ := h
  suffices hsuff : ∃ x ∈ found, d.IsAt x by
    obtain ⟨x, hx, hat⟩ := hsuff
    exact ⟨x, hsub.subset hx, hat.2⟩
  clear hsub
  induction hfound with
  | nil => cases hd
  | cons hfirst hrest ih =>
    rcases List.mem_cons.1 hd with rfl | hd
    · exact ⟨_, List.mem_cons_self, hfirst⟩
    · obtain ⟨x, hx, hat⟩ := ih hd
      exact ⟨x, List.mem_cons_of_mem _ hx, hat⟩

namespace Sheet

theorem fitsIn_parse (source : String) :
    (∀ x ∈ (parse source).sheet.nodes, x.2.FitsIn source) ∧
      ∀ d ∈ (parse source).diagnostics, d.span.FitsIn source :=
  spans_parse (Span.spanning_fitsIn source) (Token.fitsIn_scan source).1
    (Token.fitsIn_scan source).2

theorem fitsIn_checkSource {source : String} {d : Diagnostic}
    (h : d ∈ (checkSource source).1.diagnostics) : d.span.FitsIn source := by
  simp only [checkSource] at h
  split at h
  · have hviolation := Diagnostic.oncePerNode_subset _ _ h
    obtain ⟨x, hx, hspan⟩ := (placed_violations _).exists_node hviolation
    exact hspan ▸ (fitsIn_parse source).1 x hx
  · exact (fitsIn_parse source).2 d h

end Sheet

theorem fitsIn_compile {options : Options} {ds : List Diagnostic}
    (h : compile options source = .error (.diagnostics ds)) (hd : d ∈ ds) :
    d.span.FitsIn source := by
  rw [compile_eq] at h
  split at h
  · split at h
    · next e herror =>
      obtain rfl := Except.error.inj h
      -- Only an overflow is reported to the user, and it stands at a node.
      simp only [Sheet.finish] at herror
      split at herror
      · next x hfold =>
        have hat := Sheet.fold_error_at hfold
        rw [Sheet.checkSource_sheet] at hat
        cases x with
        | overflow op node span =>
          simp only [CompileError.ofFold, Option.some.injEq, CompileError.diagnostics.injEq]
            at herror
          rw [← herror, List.mem_singleton] at hd
          exact hd ▸ (Sheet.fitsIn_parse source).1 _ hat
        | _ => simp [CompileError.ofFold] at herror
      · split at herror <;> simp at herror
    · cases h
  · obtain rfl := CompileError.diagnostics.inj (Except.error.inj h)
    exact Sheet.fitsIn_checkSource hd

theorem Span.FitsIn.isSome_ofOffset? {s : Span} (h : s.FitsIn source) :
    (Location.ofOffset? source.toList s.start).isSome ∧
      (Location.ofOffset? source.toList s.stop).isSome := by
  obtain ⟨before, after, hstart⟩ := Text.exists_cut? h.start_valid
  obtain ⟨before', after', hstop⟩ := Text.exists_cut? h.stop_valid
  simp [Location.ofOffset?, hstart, hstop]

/-- Every diagnostic of a source, from reading, from checking or from compiling, has a span that
fits into the source. So both of its ends have a location, and it can be shown under every path. -/
theorem Diagnostic.renders (source : String) (options : Options) (d : Diagnostic)
    (h : d ∈ (Sheet.parse source).diagnostics ∨ d ∈ (Sheet.checkSource source).1.diagnostics ∨
      ∃ ds, compile options source = .error (.diagnostics ds) ∧ d ∈ ds) :
    d.span.FitsIn source ∧ (Location.ofOffset? source.toList d.span.start).isSome ∧
      (Location.ofOffset? source.toList d.span.stop).isSome ∧
      ∀ path, (d.render? path source).isSome := by
  have hfits : d.span.FitsIn source := by
    rcases h with hparse | hcheck | ⟨ds, hcompile, hd⟩
    · exact (Sheet.fitsIn_parse source).2 d hparse
    · exact Sheet.fitsIn_checkSource hcheck
    · exact fitsIn_compile hcompile hd
  obtain ⟨hstart, hstop⟩ := hfits.isSome_ofOffset?
  refine ⟨hfits, hstart, hstop, fun path => ?_⟩
  rw [render?, Option.isSome_map]
  exact hstart

/-- A width that overflows behind a comment with a character of three bytes. -/
theorem Diagnostic.renders_overflow :
    compile {} "/*€*/a\x7bwidth:2*9223372036854775807px;\x7d" =
        .error (.diagnostics [.ofNode ⟨2⟩ ⟨15, 38⟩ (.overflow .multiply)]) ∧
      Span.FitsIn "/*€*/a\x7bwidth:2*9223372036854775807px;\x7d" ⟨15, 38⟩ := by
  have hcompile : compile {} "/*€*/a\x7bwidth:2*9223372036854775807px;\x7d" =
      .error (.diagnostics [.ofNode ⟨2⟩ ⟨15, 38⟩ (.overflow .multiply)]) := by
    decide +kernel
  exact ⟨hcompile, (renders _ {} _ (.inr (.inr ⟨_, hcompile, List.mem_singleton_self _⟩))).1⟩

end TypedStyle
