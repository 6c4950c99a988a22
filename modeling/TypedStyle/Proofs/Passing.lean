import TypedStyle.Proofs.ParserBounds

/-!
# What a reader passes over

A reader only goes on: it passes over tokens and adds to the problems that it has met. `Passes P r s`
says that the tokens between two readers have a property, and that the problems met between them
belong to no node, because there is no tree yet.

Reading an expression, and so an assignment, a declaration or a condition, never passes over a brace,
however wrong the tokens are: a value is looked for where it belongs, and a mark that is in its place
is left there (`passes_value`). Only blocks pass over braces.
-/

namespace TypedStyle

/-- The token opens or closes a block. -/
def Token.IsBrace (t : Token) : Prop :=
  t.kind = .punct .leftBrace ∨ t.kind = .punct .rightBrace

namespace Reader

/-! ## What a reader passes over -/

/-- From `r` to `s` a reader passes over tokens with property `P`, and notes problems that belong to
no node. -/
structure Passes (P : Token → Prop) (r s : Reader) : Prop where
  rest : ∃ used, r.rest = used ++ s.rest ∧ ∀ t ∈ used, P t
  diagnostics : ∃ found, s.diagnostics = r.diagnostics ++ found ∧ ∀ d ∈ found, d.node = none

namespace Passes

variable {P Q : Token → Prop} {r s t : Reader}

theorem of_eq (hrest : s.rest = r.rest) (hdiagnostics : s.diagnostics = r.diagnostics) :
    Passes P r s :=
  ⟨⟨[], by simp [hrest], by simp⟩, ⟨[], by simp [hdiagnostics], by simp⟩⟩

theorem refl (r : Reader) : Passes P r r :=
  of_eq rfl rfl

theorem trans (h : Passes P r s) (h' : Passes P s t) : Passes P r t := by
  obtain ⟨⟨used, hused, hP⟩, ⟨found, hfound, hnode⟩⟩ := h
  obtain ⟨⟨used', hused', hP'⟩, ⟨found', hfound', hnode'⟩⟩ := h'
  refine ⟨⟨used ++ used', by rw [hused, hused', List.append_assoc], ?_⟩,
    ⟨found ++ found', by rw [hfound', hfound, List.append_assoc], ?_⟩⟩
  · exact List.forall_mem_append.2 ⟨hP, hP'⟩
  · exact List.forall_mem_append.2 ⟨hnode, hnode'⟩

theorem mono (h : Passes P r s) (himp : ∀ t, P t → Q t) : Passes Q r s := by
  obtain ⟨⟨used, hused, hP⟩, hdiagnostics⟩ := h
  exact ⟨⟨used, hused, fun t ht => himp t (hP t ht)⟩, hdiagnostics⟩

theorem report (r : Reader) (span : Span) (problem : Problem) :
    Passes P r (r.report span problem) :=
  ⟨⟨[], rfl, by simp⟩, ⟨[.ofText span problem], rfl, by simp [Diagnostic.ofText]⟩⟩

theorem reportPrev (r : Reader) (problem : Problem) : Passes P r (r.reportPrev problem) :=
  (report r r.prevSpan problem).trans (of_eq rfl rfl)

theorem advance {x : Token} {rest : List Token} (hrest : r.rest = x :: rest) (hx : P x) :
    Passes P r (r.advance x rest) :=
  ⟨⟨[x], hrest, by simpa using hx⟩, ⟨[], by simp [Reader.advance], by simp⟩⟩

theorem eat {mark : Punct} (h : r.eat mark = some s) (hmark : ∀ x, x.kind = .punct mark → P x) :
    Passes P r s := by
  unfold Reader.eat at h
  split at h
  · next x rest hrest =>
    split at h
    · next hkind =>
      obtain rfl := Option.some.inj h
      exact advance hrest (hmark x hkind)
    · cases h
  · cases h

theorem expect (r : Reader) {mark : Punct} (hmark : ∀ x, x.kind = .punct mark → P x) :
    Passes P r (r.expect mark) := by
  unfold Reader.expect
  split
  · next heat => exact eat heat hmark
  · exact report ..

theorem bump (h : P r.peek) : Passes P r r.bump := by
  unfold Reader.bump
  split
  · next x rest hrest =>
    split
    · exact refl r
    · exact advance hrest (by simpa [peek, hrest] using h)
  · split
    · exact refl r
    · exact of_eq rfl rfl

end Passes

/-! ### Expressions -/

variable {r s : Reader}

theorem not_isBrace_of_punct {mark : Punct} (hopen : mark ≠ .leftBrace)
    (hclose : mark ≠ .rightBrace) (t : Token) (ht : t.kind = .punct mark) : ¬t.IsBrace := by
  simp [Token.IsBrace, ht, hopen, hclose]

theorem passes_value (r : Reader) : Passes (¬·.IsBrace) r r.value.2 := by
  have hbump (h : ∀ mark, r.peek.kind ≠ .punct mark) : Passes (¬·.IsBrace) r r.bump :=
    .bump (by simp [Token.IsBrace, h])
  have hnumber {s : Reader} (h : Passes (¬·.IsBrace) r s) : Passes (¬·.IsBrace) r s.number.2 :=
    h.trans (.of_eq rfl rfl)
  simp only [value]
  split
  case h_1 | h_2 => exact hnumber (.report ..)
  case h_8 hkind =>
    have hpassed := hbump (by simp [hkind])
    split
    · exact hnumber hpassed
    · exact hnumber (hpassed.trans (.reportPrev ..))
  case h_9 hkind | h_10 hkind | h_11 hkind =>
    exact hnumber ((hbump (by simp [hkind])).trans (.reportPrev ..))
  all_goals
    next hkind => exact hnumber (hbump (by simp [hkind]))

theorem passes_operation {P : Token → Prop} (r : Reader) (op : Operator) (lhs rhs : Expr) :
    Passes P r (r.operation op lhs rhs).2 :=
  .of_eq rfl rfl

theorem passes_factors (lhs : Expr) (r : Reader) : Passes (¬·.IsBrace) r (factors lhs r).2 := by
  fun_induction factors lhs r with
  | case1 => exact .refl _
  | case2 lhs r r' heat hlt rhs product ih =>
    have hmark : Passes (¬·.IsBrace) r r' :=
      .eat heat (not_isBrace_of_punct (by decide) (by decide))
    exact hmark.trans ((passes_value r').trans ((passes_operation ..).trans ih))

theorem passes_product (r : Reader) : Passes (¬·.IsBrace) r r.product.2 :=
  (passes_value r).trans (passes_factors ..)

theorem passes_eatSum {op : Operator} (h : r.eatSum = some (op, s)) :
    Passes (¬·.IsBrace) r s := by
  unfold eatSum at h
  split at h
  · next hplus =>
    obtain ⟨-, rfl⟩ := Prod.mk.inj (Option.some.inj h)
    exact .eat hplus (not_isBrace_of_punct (by decide) (by decide))
  · obtain ⟨s', hminus, hs⟩ := Option.map_eq_some_iff.1 h
    obtain ⟨-, rfl⟩ := Prod.mk.inj hs
    exact .eat hminus (not_isBrace_of_punct (by decide) (by decide))

theorem passes_terms (lhs : Expr) (r : Reader) : Passes (¬·.IsBrace) r (terms lhs r).2 := by
  fun_induction terms lhs r with
  | case1 => exact .refl _
  | case2 lhs r op r' heat hlt rhs sum ih =>
    exact (passes_eatSum heat).trans ((passes_product r').trans ((passes_operation ..).trans ih))

theorem passes_expr (r : Reader) : Passes (¬·.IsBrace) r r.expr.2 :=
  (passes_product r).trans (passes_terms ..)

theorem passes_between (r : Reader) {first last : Punct}
    (hfirst : first ≠ .leftBrace ∧ first ≠ .rightBrace)
    (hlast : last ≠ .leftBrace ∧ last ≠ .rightBrace) :
    Passes (¬·.IsBrace) r ((r.expect first).expr.2.expect last) :=
  (Passes.expect r (not_isBrace_of_punct hfirst.1 hfirst.2)).trans
    ((passes_expr _).trans (.expect _ (not_isBrace_of_punct hlast.1 hlast.2)))

theorem passes_assignment (name : Ident) (r : Reader) :
    Passes (¬·.IsBrace) r (assignment name r).2 :=
  passes_between r (by decide) (by decide)

theorem passes_declaration (property : Ident) (r : Reader) :
    Passes (¬·.IsBrace) r (declaration property r).2 :=
  passes_between r (by decide) (by decide)

theorem passes_condition (r : Reader) : Passes (¬·.IsBrace) r r.condition.2 := by
  have hnumber : Passes (¬·.IsBrace) r r.number.2 := .of_eq rfl rfl
  have hopen : Passes (¬·.IsBrace) r.number.2 (r.number.2.expect .leftBracket) :=
    .expect _ (not_isBrace_of_punct (by decide) (by decide))
  exact hnumber.trans (hopen.trans ((passes_value _).trans
    (.expect _ (not_isBrace_of_punct (by decide) (by decide)))))

/-! ### Blocks and sheets -/

theorem passes_eatElse {span : Span} (h : r.eatElse = some (span, s)) :
    Passes (¬·.IsBrace) r s := by
  obtain ⟨t, rest, hrest, hkind, -, rfl⟩ := exists_of_eatElse h
  exact .advance hrest (by simp [Token.IsBrace, hkind])

theorem passes_closeBlock (opening : Span) (body : List Statement) (r : Reader) :
    Passes (fun _ => True) r (closeBlock opening body r) := by
  have hclose : Passes (fun _ => True) r (r.expect .rightBrace) := .expect r fun _ _ => trivial
  unfold closeBlock
  split
  · exact hclose.trans (.report ..)
  · exact hclose

theorem skipStatement_suffix (depth : Nat) (last : Option Token) (tokens : List Token) :
    (skipStatement depth last tokens).2 <:+ tokens := by
  fun_induction skipStatement depth last tokens with
  | case1 | case2 | case4 => exact List.suffix_rfl
  | case6 => exact List.suffix_cons ..
  | _ => next ih => exact ih.trans (List.suffix_cons ..)

theorem skipItem_suffix (depth : Nat) (last : Option Token) (tokens : List Token) :
    (skipItem depth last tokens).2 <:+ tokens := by
  fun_induction skipItem depth last tokens with
  | case1 | case2 => exact List.suffix_rfl
  | case5 | case6 => exact List.suffix_cons ..
  | _ => next ih => exact ih.trans (List.suffix_cons ..)

theorem passes_toStatement (r : Reader) : Passes (fun _ => True) r r.toStatement := by
  obtain ⟨used, hused⟩ := skipStatement_suffix 0 r.last r.rest
  exact ⟨⟨used, hused.symm, fun _ _ => trivial⟩, ⟨[], (List.append_nil _).symm, by simp⟩⟩

theorem passes_toItem (r : Reader) : Passes (fun _ => True) r r.toItem := by
  obtain ⟨used, hused⟩ := skipItem_suffix 0 r.last r.rest
  exact ⟨⟨used, hused.symm, fun _ _ => trivial⟩, ⟨[], (List.append_nil _).symm, by simp⟩⟩

theorem Passes.any {P : Token → Prop} (h : Passes P r s) : Passes (fun _ => True) r s :=
  h.mono fun _ _ => trivial

mutual

theorem passes_block (r : Reader) : Passes (fun _ => True) r r.block.2 := by
  have hlen := length_expect_le r .leftBrace
  have hopen : Passes (fun _ => True) r (r.expect .leftBrace) := .expect r fun _ _ => trivial
  rw [block_eq]
  exact hopen.trans ((passes_statements _).trans (passes_closeBlock ..))
termination_by 3 * r.rest.length + 1

theorem passes_conditional (start : Span) (r : Reader) :
    Passes (fun _ => True) r (r.conditional start).2 := by
  have hlen := length_condition_le r
  have hlen' := length_block_le r.condition.2
  have hbody := (passes_condition r).any.trans (passes_block r.condition.2)
  rw [conditional_eq]
  dsimp only
  split
  · exact hbody
  · next elseStart s helse =>
    have hlt := length_lt_of_eatElse helse
    exact hbody.trans ((passes_eatElse helse).any.trans (passes_block s))
termination_by 3 * r.rest.length + 2

theorem passes_statements (r : Reader) : Passes (fun _ => True) r r.statements.2 := by
  rw [statements_eq]
  split
  · exact .refl r
  · next t rest hrest =>
    have hlen : r.rest.length = rest.length + 1 := by simp [hrest]
    have hafter : Passes (fun _ => True) r (r.advance t rest) := .advance hrest trivial
    dsimp only
    split
    · exact .refl r
    · next name hlead =>
      have hle : (declaration ⟨name, t.span⟩ (r.advance t rest)).2.rest.length ≤ rest.length :=
        length_declaration_le _ _
      exact hafter.trans ((passes_declaration ..).any.trans (passes_statements _))
    · next name hlead =>
      have hle : (assignment ⟨name, t.span⟩ (r.advance t rest)).2.rest.length ≤ rest.length :=
        length_assignment_le _ _
      exact hafter.trans ((passes_assignment ..).any.trans (passes_statements _))
    · next hlead =>
      have hle : ((r.advance t rest).conditional t.span).2.rest.length ≤ rest.length :=
        (conditionalReads t.span (r.advance t rest)).2
      exact hafter.trans ((passes_conditional ..).trans (passes_statements _))
    · next hlead =>
      have hlt := length_stray_statement_lt hrest hlead
      exact (Passes.report ..).trans ((passes_toStatement _).trans (passes_statements _))
termination_by 3 * r.rest.length

end

theorem passes_items (r : Reader) : Passes (fun _ => True) r r.items.2 := by
  rw [items_eq]
  split
  · exact .refl r
  · next t rest hrest =>
    have hlen : r.rest.length = rest.length + 1 := by simp [hrest]
    have hafter : Passes (fun _ => True) r (r.advance t rest) := .advance hrest trivial
    split
    · exact .refl r
    · next name hlead =>
      have hle : (assignment ⟨name, t.span⟩ (r.advance t rest)).2.rest.length ≤ rest.length :=
        length_assignment_le _ _
      exact hafter.trans ((passes_assignment ..).any.trans (passes_items _))
    · next selector hlead =>
      have hle : (r.advance t rest).block.2.rest.length ≤ rest.length := length_block_le _
      exact hafter.trans ((passes_block _).trans (passes_items _))
    · next hlead =>
      have hlt := length_stray_item_lt hrest hlead
      exact (Passes.report ..).trans ((passes_toItem _).trans (passes_items _))
termination_by r.rest.length

end Reader

end TypedStyle
