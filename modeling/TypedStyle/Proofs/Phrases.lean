import TypedStyle.Proofs.ParserBounds
import TypedStyle.Proofs.Slices

/-!
# Phrases

A phrase is a part of a source that a part of the tree is read from: a rule, an assignment, a
declaration, a conditional, its `else` part, a name or an expression. It consists of tokens and of
smaller phrases, one behind the other, and it carries the span that the tree has for it.
-/

namespace TypedStyle

/-! ## Phrases of trees -/

/-- A token, or a part of the source with the span that the tree has for it. -/
inductive Phrase where
  | token (kind : Token.Kind)
  | node (span : Span) (parts : List Phrase)

def Expr.phrase : Expr → Phrase
  | literal _ span value => .node span [.token value.kind]
  | reference _ span name => .node span [.token (.capital name)]
  | operation _ span op lhs rhs => .node span [lhs.phrase, .token (.punct op.mark), rhs.phrase]

def Ident.phrase (kind : String → Token.Kind) (name : Ident) : Phrase :=
  .node name.span [.token (kind name.name)]

def Assignment.phrase (a : Assignment) : Phrase :=
  .node a.span [a.name.phrase .capital, .token (.punct .assign), a.value.phrase,
    .token (.punct .semicolon)]

namespace Phrase

/-- The parts of a block around those of its statements. -/
def block (parts : List Phrase) : List Phrase :=
  .token (.punct .leftBrace) :: (parts ++ [.token (.punct .rightBrace)])

/-- The parts at the head of a conditional. -/
def head (condition : Expr) : List Phrase :=
  [.token (.keyword .ifWord), .token (.punct .leftBracket), condition.phrase,
    .token (.punct .rightBracket)]

end Phrase

mutual

/-- The phrase of a statement. What comes from `else` on is a phrase inside of it. -/
def Statement.phrase : Statement → Phrase
  | .declare property value span =>
    .node span [property.phrase .lower, .token (.punct .colon), value.phrase,
      .token (.punct .semicolon)]
  | .assign a => a.phrase
  | .ifThen _ condition body span =>
    .node span (Phrase.head condition ++ Phrase.block (phrases body))
  | .ifElse _ condition body alternative elseSpan span =>
    .node span (Phrase.head condition ++ Phrase.block (phrases body) ++
      [.node elseSpan (.token (.keyword .elseWord) :: Phrase.block (phrases alternative))])

def Statement.phrases : List Statement → List Phrase
  | [] => []
  | s :: rest => s.phrase :: phrases rest

end

def Rule.phrase (r : Rule) : Phrase :=
  .node r.span (.token r.selector.kind :: Phrase.block (Statement.phrases r.body))

def Item.phrase : Item → Phrase
  | assign a => a.phrase
  | rule r => r.phrase

def Sheet.phrases (sheet : Sheet) : List Phrase :=
  sheet.items.map Item.phrase

theorem Expr.exists_phrase (e : Expr) : ∃ parts, e.phrase = .node e.span parts := by
  cases e with
  | literal id span value => exact ⟨_, rfl⟩
  | reference id span name => exact ⟨_, rfl⟩
  | operation id span op lhs rhs => exact ⟨_, rfl⟩

/-! ## Phrases of tokens -/

namespace Phrase

def spans (phrases : List Phrase) : List Span :=
  phrases.filterMap fun
    | token _ => none
    | node span _ => some span

mutual

def subphrases : Phrase → List Phrase
  | token kind => [token kind]
  | node span parts => node span parts :: within parts

/-- The phrases and all phrases inside of them. -/
def within : List Phrase → List Phrase
  | [] => []
  | p :: rest => p.subphrases ++ within rest

end

theorem exists_of_mem_spans {phrases : List Phrase} {span : Span} (h : span ∈ spans phrases) :
    ∃ parts, node span parts ∈ phrases := by
  obtain ⟨p, hp, hspan⟩ := List.mem_filterMap.1 h
  cases p with
  | token kind => cases hspan
  | node span' parts =>
    obtain rfl := Option.some.inj hspan
    exact ⟨parts, hp⟩

theorem mem_within_of_mem {phrases : List Phrase} {p : Phrase} (h : p ∈ phrases) :
    p ∈ within phrases := by
  induction phrases with
  | nil => cases h
  | cons q rest ih =>
    rw [within, List.mem_append]
    rcases List.mem_cons.1 h with rfl | h
    · cases p <;> exact .inl List.mem_cons_self
    · exact .inr (ih h)

/-- Each phrase ends before the next one starts. -/
def Apart (phrases : List Phrase) : Prop :=
  (spans phrases).Pairwise fun a b => a.stop ≤ b.start

/-- Phrases are read from tokens, with none left out. The span of each of them runs from the start
of its first token to the end of its last one. -/
inductive ReadAll : List Token → List Phrase → Prop
  | nil : ReadAll [] []
  | token {back : List Token} {rest : List Phrase} (t : Token) (hback : ReadAll back rest) :
      ReadAll (t :: back) (.token t.kind :: rest)
  | node {front back : List Token} {parts rest : List Phrase} {span : Span}
      (hparts : ReadAll front parts) (hspan : Token.extent? front = some span)
      (hback : ReadAll back rest) : ReadAll (front ++ back) (.node span parts :: rest)

namespace ReadAll

variable {tokens : List Token}

variable {ps : List Phrase}

theorem append {front back : List Token} {qs : List Phrase} (h : ReadAll front ps)
    (h' : ReadAll back qs) : ReadAll (front ++ back) (ps ++ qs) := by
  induction h with
  | nil => exact h'
  | token t hback ih => exact .token t ih
  | node hparts hspan hback _ ih =>
    rw [List.append_assoc]
    exact .node hparts hspan ih

theorem ne_nil {p : Phrase} (h : ReadAll tokens (p :: ps)) : tokens ≠ [] := by
  rintro rfl
  generalize htokens : ([] : List Token) = tokens at h
  cases h with
  | token t hback => cases htokens
  | node hparts hspan hback =>
    obtain ⟨rfl, -⟩ := List.append_eq_nil_iff.1 htokens.symm
    cases hspan

theorem exists_part (h : ReadAll tokens ps) {span : Span} {parts : List Phrase}
    (hmem : .node span parts ∈ within ps) :
    ∃ before part after, tokens = before ++ part ++ after ∧ ReadAll part parts ∧
      Token.extent? part = some span := by
  induction h with
  | nil => simp [within] at hmem
  | token t hback ih =>
    rw [within, List.mem_append] at hmem
    obtain ⟨before, part, after, rfl, hpart⟩ := ih (hmem.resolve_left (by simp [subphrases]))
    exact ⟨t :: before, part, after, rfl, hpart⟩
  | @node front back inner rest span' hparts hspan hback ihparts ihback =>
    rw [within, List.mem_append, subphrases, List.mem_cons] at hmem
    rcases hmem with (hself | hmem) | hmem
    · cases hself
      exact ⟨[], front, back, rfl, hparts, hspan⟩
    · obtain ⟨before, part, after, rfl, hpart⟩ := ihparts hmem
      exact ⟨before, part, after ++ back, by simp, hpart⟩
    · obtain ⟨before, part, after, rfl, hpart⟩ := ihback hmem
      exact ⟨front ++ before, part, after, by simp, hpart⟩

theorem exists_extent (h : ReadAll tokens ps) {span : Span} (hmem : span ∈ spans ps) :
    ∃ part ⊆ tokens, Token.extent? part = some span := by
  obtain ⟨parts, hparts⟩ := exists_of_mem_spans hmem
  obtain ⟨before, part, after, rfl, -, hspan⟩ := h.exists_part (mem_within_of_mem hparts)
  exact ⟨part, by simp, hspan⟩

theorem apart (h : ReadAll tokens ps) (horder : Token.InOrder tokens) : Apart ps := by
  induction h with
  | nil => exact .nil
  | token t hback ih => exact ih (horder.sublist (List.sublist_cons_self ..))
  | @node front back inner rest span hparts hspan hback _ ih =>
    refine .cons (fun next hnext => ?_) (ih (horder.sublist (List.sublist_append_right ..)))
    obtain ⟨part, hsub, hextent⟩ := hback.exists_extent hnext
    exact horder.stop_le hsub hspan hextent

end ReadAll

end Phrase

/-! ## Reading phrases -/

namespace Reader

variable {r : Reader}

/-- From `r` to `s` phrases are read: no problem is forgotten, and if none is met then the phrases
are read from the tokens between the two readers. -/
structure Gathers (r s : Reader) (phrases : List Phrase) : Prop where
  found_le : r.found ≤ s.found
  used : s.found = r.found → Closed r.rest → Token.InOrder r.rest →
    ∃ used, r.rest = used ++ s.rest ∧ s.last = used.getLast?.or r.last ∧ Closed s.rest ∧
      Phrase.ReadAll used phrases

namespace Gathers

variable {r s t : Reader} {ps qs : List Phrase} {rest : List Token}

theorem refl (r : Reader) : Gathers r r [] :=
  ⟨Nat.le_refl _, fun _ hclosed _ => ⟨[], rfl, rfl, hclosed, .nil⟩⟩

theorem of_lt (h : r.found < s.found) : Gathers r s ps :=
  ⟨Nat.le_of_lt h, fun hfound => absurd hfound (Nat.ne_of_gt h)⟩

theorem append (h : Gathers r s ps) (h' : Gathers s t qs) : Gathers r t (ps ++ qs) := by
  refine ⟨Nat.le_trans h.found_le h'.found_le, fun hfound hclosed horder => ?_⟩
  obtain ⟨hmid, hend⟩ := found_between h.found_le h'.found_le hfound
  obtain ⟨used, hrest, hlast, hclosed, hread⟩ := h.used hmid hclosed horder
  have horder' : Token.InOrder s.rest :=
    horder.sublist (hrest ▸ List.sublist_append_right ..)
  obtain ⟨used', hrest', hlast', hclosed', hread'⟩ := h'.used hend hclosed horder'
  refine ⟨used ++ used', by rw [hrest, hrest', List.append_assoc], ?_, hclosed',
    hread.append hread'⟩
  rw [hlast', hlast, List.getLast?_append, Option.or_assoc]

theorem advance {t : Token} (hrest : r.rest = t :: rest) (ht : t.kind ≠ .eof) :
    Gathers r (r.advance t rest) [.token t.kind] := by
  refine ⟨Nat.le_refl _, fun _ hclosed _ => ⟨[t], hrest, rfl, ?_, .token t .nil⟩⟩
  rw [hrest] at hclosed
  exact hclosed.tail ht

/-- What has been read from a token on is one phrase, up to the token read last. -/
theorem node {p : Phrase} {t : Token} (h : Gathers r s (p :: ps)) (hrest : r.rest = t :: rest) :
    Gathers r s [.node (t.span.merge s.prevSpan) (p :: ps)] := by
  refine ⟨h.found_le, fun hfound hclosed horder => ?_⟩
  obtain ⟨used, hused, hlast, hclosed', hread⟩ := h.used hfound hclosed horder
  refine ⟨used, hused, hlast, hclosed', ?_⟩
  obtain ⟨last, hlast'⟩ := Option.isSome_iff_exists.1 (List.getLast?_isSome.2 hread.ne_nil)
  have hfirst : used.head? = some t := by
    obtain ⟨first, more, rfl⟩ := List.exists_cons_of_ne_nil hread.ne_nil
    rw [hrest] at hused
    rw [(List.cons.inj hused).1, List.head?_cons]
  have hprev : s.prevSpan = last.span := by
    rw [prevSpan, hlast, hlast']
    rfl
  have hspan := (horder.sublist (hused ▸ List.sublist_append_left ..)).extent?_merge hfirst hlast'
  rw [← List.append_nil used, hprev]
  exact .node hread hspan .nil

theorem leaf {t : Token} (hrest : r.rest = t :: rest) (ht : t.kind ≠ .eof) :
    Gathers r (r.advance t rest) [.node t.span [.token t.kind]] := by
  have hnode := (advance hrest ht).node hrest
  rwa [show (r.advance t rest).prevSpan = t.span from rfl, Span.merge_self] at hnode

theorem number (h : Gathers r s ps) : Gathers r s.number.2 ps :=
  ⟨h.found_le, h.used⟩

theorem of_number (h : Gathers r.number.2 s ps) : Gathers r s ps :=
  ⟨h.found_le, h.used⟩

theorem operation {op : Operator} {lhs rhs : Expr}
    (h : Gathers r s [lhs.phrase, .token (.punct op.mark), rhs.phrase]) :
    Gathers r (s.operation op lhs rhs).2 [(s.operation op lhs rhs).1.phrase] := by
  refine Gathers.number ⟨h.found_le, fun hfound hclosed horder => ?_⟩
  obtain ⟨used, hused, hlast, hclosed', hread⟩ := h.used hfound hclosed horder
  refine ⟨used, hused, hlast, hclosed', ?_⟩
  have horder' : Token.InOrder used := horder.sublist (hused ▸ List.sublist_append_left ..)
  obtain ⟨left, hleft⟩ := lhs.exists_phrase
  obtain ⟨right, hright⟩ := rhs.exists_phrase
  have hspan : Token.extent? used = some (lhs.span.merge rhs.span) := by
    rw [hleft, hright] at hread
    cases hread with
    | node _ hlhs hread =>
      generalize hmark : Phrase.token (.punct op.mark) = mark at hread
      cases hread with
      | token t hread =>
        cases hread with
        | node _ hrhs hread =>
          cases hread
          rw [List.append_nil, List.append_cons] at horder' ⊢
          exact horder'.extent?_around hlhs hrhs
      | node _ _ _ => cases hmark
  rw [← List.append_nil used]
  exact .node hread hspan .nil

end Gathers

theorem gathers_eat {s : Reader} {mark : Punct} (h : r.eat mark = some s) :
    Gathers r s [.token (.punct mark)] := by
  unfold eat at h
  split at h
  · next t rest hrest =>
    split at h
    · next hkind =>
      obtain rfl := Option.some.inj h
      exact hkind ▸ .advance hrest (by simp [hkind])
    · cases h
  · cases h

theorem gathers_expect (r : Reader) (mark : Punct) :
    Gathers r (r.expect mark) [.token (.punct mark)] := by
  unfold expect
  split
  · next h => exact gathers_eat h
  · exact .of_lt (by simp)

/-- A value that is read without a problem is the phrase of its token. -/
theorem value_of_found {t : Token} {rest : List Token} (hrest : r.rest = t :: rest)
    (h : r.value.2.found = r.found) :
    r.value.1.phrase = .node t.span [.token t.kind] ∧ r.value.2.rest = rest ∧
      r.value.2.last = some t ∧ t.kind ≠ .eof := by
  obtain ⟨e, he⟩ := exists_value_of_found hrest h
  have hbump := bump_of_rest hrest he.ne_eof
  refine ⟨?_, (value_of_grammar hrest he).2.1, ?_, he.ne_eof⟩
  · simp only [value, peek_of_rest hrest, hbump]
    cases hkind : t.kind <;> rw [hkind] at he <;> cases he <;>
      simp_all [Expr.phrase, literal, reference, Reader.number, Literal.kind, isColor_iff]
  · simp only [value, peek_of_rest hrest, hbump]
    cases hkind : t.kind <;> rw [hkind] at he <;> cases he <;>
      simp_all [literal, reference, Reader.number, advance, isColor_iff]

theorem gathers_value (r : Reader) : Gathers r r.value.2 [r.value.1.phrase] := by
  refine ⟨r.found_le_value, fun hfound hclosed _ => ?_⟩
  obtain ⟨t, rest, hrest⟩ := hclosed.exists_cons
  obtain ⟨hphrase, hrest', hlast, ht⟩ := value_of_found hrest hfound
  rw [hrest] at hclosed
  refine ⟨[t], by rw [hrest, hrest']; rfl, hlast, hrest' ▸ hclosed.tail ht, ?_⟩
  rw [hphrase]
  exact .node (.token t .nil) rfl .nil

theorem gathers_factors {r₀ : Reader} (lhs : Expr) (r : Reader) (h : Gathers r₀ r [lhs.phrase]) :
    Gathers r₀ (factors lhs r).2 [(factors lhs r).1.phrase] := by
  fun_induction factors lhs r with
  | case1 lhs r heat => exact h
  | case2 lhs r r' heat hlt rhs product ih =>
    -- A star and a value make a phrase together with the one before them.
    refine ih (Gathers.operation ?_)
    exact (h.append (gathers_eat heat)).append (gathers_value r')

theorem gathers_product (r : Reader) : Gathers r r.product.2 [r.product.1.phrase] :=
  gathers_factors _ _ (gathers_value r)

theorem gathers_eatSum {s : Reader} {op : Operator} (h : r.eatSum = some (op, s)) :
    Gathers r s [.token (.punct op.mark)] := by
  unfold eatSum at h
  split at h
  · next hplus =>
    obtain ⟨rfl, rfl⟩ := Prod.mk.inj (Option.some.inj h)
    exact gathers_eat hplus
  · simp only [Option.map_eq_some_iff, Prod.mk.injEq] at h
    obtain ⟨s', hminus, rfl, rfl⟩ := h
    exact gathers_eat hminus

theorem gathers_terms {r₀ : Reader} (lhs : Expr) (r : Reader) (h : Gathers r₀ r [lhs.phrase]) :
    Gathers r₀ (terms lhs r).2 [(terms lhs r).1.phrase] := by
  fun_induction terms lhs r with
  | case1 lhs r heat => exact h
  | case2 lhs r op r' heat hlt rhs sum ih =>
    refine ih (Gathers.operation ?_)
    exact (h.append (gathers_eatSum heat)).append (gathers_product r')

theorem gathers_expr (r : Reader) : Gathers r r.expr.2 [r.expr.1.phrase] :=
  gathers_terms _ _ (gathers_product r)

theorem gathers_between (r : Reader) (first last : Punct) :
    Gathers r ((r.expect first).expr.2.expect last)
      [.token (.punct first), (r.expect first).expr.1.phrase, .token (.punct last)] :=
  ((gathers_expect r first).append (gathers_expr _)).append (gathers_expect _ last)

section Statements

variable {r : Reader} {t : Token} {rest : List Token} (hrest : r.rest = t :: rest)

include hrest

theorem gathers_assignment {name : String} (hkind : t.kind = .capital name) :
    Gathers r (assignment ⟨name, t.span⟩ (r.advance t rest)).2
      [(assignment ⟨name, t.span⟩ (r.advance t rest)).1.phrase] := by
  have hname := Gathers.leaf hrest (by simp [hkind])
  rw [hkind] at hname
  exact (hname.append (gathers_between _ .assign .semicolon)).node hrest

theorem gathers_declaration {name : String} (hkind : t.kind = .lower name) :
    Gathers r (declaration ⟨name, t.span⟩ (r.advance t rest)).2
      [(declaration ⟨name, t.span⟩ (r.advance t rest)).1.phrase] := by
  have hname := Gathers.leaf hrest (by simp [hkind])
  rw [hkind] at hname
  exact (hname.append (gathers_between _ .colon .semicolon)).node hrest

theorem gathers_condition (hkind : t.kind = .keyword .ifWord) :
    Gathers r (r.advance t rest).condition.2
      (Phrase.head (r.advance t rest).condition.1.2) := by
  have hkeyword := Gathers.advance hrest (by simp [hkind])
  rw [hkind] at hkeyword
  have hopen := (gathers_expect (r.advance t rest).number.2 .leftBracket).of_number
  exact ((hkeyword.append hopen).append (gathers_value _)).append (gathers_expect _ .rightBracket)

end Statements

theorem gathers_closeBlock (opening : Span) (body : List Statement) (r : Reader) :
    Gathers r (closeBlock opening body r) [.token (.punct .rightBrace)] := by
  have hclose := gathers_expect r .rightBrace
  unfold closeBlock
  split
  · refine .of_lt (Nat.lt_of_le_of_lt hclose.found_le ?_)
    simp
  · exact hclose

mutual

theorem gathers_block (r : Reader) :
    Gathers r r.block.2 (Phrase.block (Statement.phrases r.block.1)) := by
  have hlen := length_expect_le r .leftBrace
  rw [block_eq]
  exact (gathers_expect r .leftBrace).append
    ((gathers_statements (r.expect .leftBrace)).append (gathers_closeBlock ..))
termination_by 3 * r.rest.length + 2

theorem gathers_conditional (r : Reader) {t : Token} {rest : List Token}
    (hrest : r.rest = t :: rest) (hkind : t.kind = .keyword .ifWord) :
    Gathers r ((r.advance t rest).conditional t.span).2
      [((r.advance t rest).conditional t.span).1.phrase] := by
  have hlen : r.rest.length = rest.length + 1 := by simp [hrest]
  have hlen' : (r.advance t rest).condition.2.rest.length ≤ rest.length :=
    length_condition_le (r.advance t rest)
  have hblock := length_block_le (r.advance t rest).condition.2
  have hbody := (gathers_condition hrest hkind).append
    (gathers_block (r.advance t rest).condition.2)
  rw [conditional_eq]
  dsimp only
  split
  · exact hbody.node hrest
  · next elseStart r' helse =>
    obtain ⟨t', rest', hrest', hkind', rfl, rfl⟩ := exists_of_eatElse helse
    have hlt : rest'.length < (r.advance t rest).condition.2.block.2.rest.length := by
      simp [hrest']
    have hkeyword := Gathers.advance hrest' (by simp [hkind'])
    rw [hkind'] at hkeyword
    have helsePart := (hkeyword.append (gathers_block _)).node hrest'
    exact (hbody.append helsePart).node hrest
termination_by 3 * r.rest.length

theorem gathers_statements (r : Reader) :
    Gathers r r.statements.2 (Statement.phrases r.statements.1) := by
  rw [statements_eq]
  split
  · exact .refl r
  · next t rest hrest =>
    have hlen : r.rest.length = rest.length + 1 := by simp [hrest]
    dsimp only
    split
    · exact .refl r
    · next name hlead =>
      have hkind : t.kind = .lower name := StatementLead.eq_of_kind? (by rw [hlead]; rfl)
      have hle : (declaration ⟨name, t.span⟩ (r.advance t rest)).2.rest.length ≤ rest.length :=
        length_declaration_le _ _
      exact (gathers_declaration hrest hkind).append (gathers_statements _)
    · next name hlead =>
      have hkind : t.kind = .capital name := StatementLead.eq_of_kind? (by rw [hlead]; rfl)
      have hle : (assignment ⟨name, t.span⟩ (r.advance t rest)).2.rest.length ≤ rest.length :=
        length_assignment_le _ _
      exact (gathers_assignment hrest hkind).append (gathers_statements _)
    · next hlead =>
      have hkind : t.kind = .keyword .ifWord := StatementLead.eq_of_kind? (by rw [hlead]; rfl)
      have hle : ((r.advance t rest).conditional t.span).2.rest.length ≤ rest.length :=
        (conditionalReads t.span (r.advance t rest)).2
      exact (gathers_conditional r hrest hkind).append (gathers_statements _)
    · next hlead =>
      have hlt := length_stray_statement_lt hrest hlead
      -- Tokens are skipped here, but only after a problem.
      have hmore := gathers_statements (r.report t.span (.statementExpected t.kind)).toStatement
      refine .of_lt (Nat.lt_of_lt_of_le ?_ hmore.found_le)
      simp
termination_by 3 * r.rest.length + 1

end

theorem kind_eq_of_select {kind : Token.Kind} {selector : Selector}
    (h : Grammar.Select kind selector) : kind = selector.kind := by
  cases h <;> rfl

theorem gathers_items (r : Reader) : Gathers r r.items.2 (r.items.1.map Item.phrase) := by
  rw [items_eq]
  split
  · exact .refl r
  · next t rest hrest =>
    have hlen : r.rest.length = rest.length + 1 := by simp [hrest]
    split
    · exact .refl r
    · next name hlead =>
      have hle : (assignment ⟨name, t.span⟩ (r.advance t rest)).2.rest.length ≤ rest.length :=
        length_assignment_le _ _
      exact (gathers_assignment hrest (ItemLead.kind_of_variable hlead)).append (gathers_items _)
    · next selector hlead =>
      have hselect := ItemLead.select_of_selector hlead
      have hle : (r.advance t rest).block.2.rest.length ≤ rest.length := length_block_le _
      have hselector := Gathers.advance hrest hselect.ne_eof
      rw [kind_eq_of_select hselect] at hselector
      exact ((hselector.append (gathers_block _)).node hrest).append (gathers_items _)
    · next hlead =>
      have hlt := length_stray_item_lt hrest hlead
      have hmore := gathers_items (r.report t.span (.itemExpected t.kind)).toItem
      refine .of_lt (Nat.lt_of_lt_of_le ?_ hmore.found_le)
      simp
termination_by r.rest.length

end Reader

/-! ## Spans of a sheet -/

/-- A phrase of a source is read from tokens one behind the other, and its span runs from the start
of the first one to the end of the last one. Cut out of the source, it is read as these tokens. The
phrases inside of it lie in its span, each one before the next one. -/
structure Phrase.IsExact (source : List Char) (span : Span) (parts : List Phrase) : Prop where
  read : ∃ before used after slice, (Token.scan source).tokens.dropLast = before ++ used ++ after ∧
    ReadAll used parts ∧ Token.extent? used = some span ∧
    Text.slice? source span = some slice ∧ (Token.scan slice).diagnostics = [] ∧
    (Token.scan slice).tokens.map Token.kind = used.map Token.kind ++ [.eof]
  inside : ∀ inner ∈ spans parts, inner.Within span
  apart : Apart parts

theorem Sheet.readAll_phrases {source : String} (h : (parse source).diagnostics = []) :
    Phrase.ReadAll (Token.scan source.toList).tokens.dropLast (parse source).sheet.phrases := by
  obtain ⟨hclosed, hitems, -, hnone⟩ := items_of_parse h
  obtain ⟨used, hused, -, hrest, hread⟩ :=
    (Reader.gathers_items (.start (Token.scan source.toList).tokens [])).used
      (by rw [Reader.found, hnone]; rfl) hclosed (Token.inOrder_scan source)
  -- The reader has stopped in front of the end.
  obtain ⟨last, hlast⟩ :
      ∃ last, (Reader.start (Token.scan source.toList).tokens []).items.2.rest = [last] := by
    rcases Reader.items_stops (.start (Token.scan source.toList).tokens []) with hnil | hcons
    · obtain ⟨t, rest, hcons⟩ := hrest.exists_cons
      rw [hnil] at hcons
      cases hcons
    · obtain ⟨t, rest, hcons, ht⟩ := hcons
      rw [hcons] at hrest
      exact ⟨t, by rw [hcons, hrest.eq_nil ht]⟩
  have htokens : (Token.scan source.toList).tokens = used ++ [last] := hlast ▸ hused
  rw [htokens, List.dropLast_concat, phrases, ← hitems]
  exact hread

/-- The spans of a sheet are exact. For a source that is read without problems, the tokens up to its
end are read as the phrases of the sheet, which follow one another, and every phrase in them, of any
depth, is exact. -/
theorem Sheet.spans_exact (source : String) (h : (parse source).diagnostics = []) :
    Phrase.ReadAll (Token.scan source.toList).tokens.dropLast (parse source).sheet.phrases ∧
      Phrase.Apart (parse source).sheet.phrases ∧
      ∀ span parts, .node span parts ∈ Phrase.within (parse source).sheet.phrases →
        Phrase.IsExact source.toList span parts := by
  have hread := readAll_phrases h
  have horder : Token.InOrder (Token.scan source.toList).tokens.dropLast :=
    (Token.inOrder_scan source).sublist (List.dropLast_sublist _)
  refine ⟨hread, hread.apart horder, fun span parts hmem => ?_⟩
  obtain ⟨before, used, after, htokens, hparts, hspan⟩ := hread.exists_part hmem
  have hused : Token.InOrder used := by
    rw [htokens, List.append_assoc] at horder
    exact (horder.sublist (List.sublist_append_right ..)).sublist (List.sublist_append_left ..)
  refine ⟨?_, ?_, hparts.apart hused⟩
  · obtain ⟨slice, hslice, hdiagnostics, hkinds⟩ :=
      Token.scan_slice (Token.diagnostics_scan_of_parse h) htokens hspan
    exact ⟨before, used, after, slice, htokens, hparts, hspan, hslice, hdiagnostics, hkinds⟩
  · intro inner hinner
    obtain ⟨part, hsub, hextent⟩ := hparts.exists_extent hinner
    exact hused.within hsub hspan hextent

/-- Phrases of all kinds, some of them inside of others, with comments between the tokens. -/
def layeredSource : String :=
  "/* \u2192 */ Gap := 2px * 3 + 1px;\n.card \x7b if [FALSE] \x7b A := 1px; \x7d " ++
    "else/* \u00e9 */\x7b width: Gap - 10px; \x7d \x7d /* end */"

theorem Sheet.spans_exact_layered :
    (parse layeredSource).diagnostics = [] ∧
      Phrase.spans (parse layeredSource).sheet.phrases = [⟨10, 31⟩, ⟨32, 101⟩] ∧
      Phrase.Apart (parse layeredSource).sheet.phrases ∧
      Text.slice? layeredSource.toList ⟨65, 99⟩ =
        some "else/* \u00e9 */\x7b width: Gap - 10px; \x7d".toList ∧
      ∃ parts, .node ⟨65, 99⟩ parts ∈ Phrase.within (parse layeredSource).sheet.phrases ∧
        Phrase.IsExact layeredSource.toList ⟨65, 99⟩ parts := by
  obtain ⟨hnone, hspans, hspan⟩ : (parse layeredSource).diagnostics = [] ∧
      Phrase.spans (parse layeredSource).sheet.phrases = [⟨10, 31⟩, ⟨32, 101⟩] ∧
      ⟨65, 99⟩ ∈ Phrase.spans (Phrase.within (parse layeredSource).sheet.phrases) := by
    decide +kernel
  obtain ⟨-, hapart, hexact⟩ := spans_exact layeredSource hnone
  obtain ⟨parts, hmem⟩ := Phrase.exists_of_mem_spans hspan
  exact ⟨hnone, hspans, hapart, by decide +kernel, parts, hmem, hexact _ _ hmem⟩

end TypedStyle
