import TypedStyle.Proofs.ParserSoundness

/-!
# The nodes of a tree

A node is an expression or a conditional. `nodes` lists the nodes of a tree in the order in which a
reader makes them, each with the span under which a problem of that node is reported: its own for
an expression, that of the condition for a conditional.

`Labels P r s nodes` says what reading from `r` to `s` does to the labels of the nodes that are made
on the way:

- they get the numbers from `r.nextId` on, in order and without a gap;
- their spans, like those of the problems that are met, are made from spans of tokens by merging.
  So every property `P` of spans that merging keeps goes over from the tokens.

`Reader.sheet_numbers` draws the conclusion about identities for every list of tokens, and
`Sheet.spans_parse` the one about spans for whole sources.
-/

namespace TypedStyle

/-! ## Nodes -/

/-- The nodes of an expression, operands first. -/
def Expr.nodes : Expr → List (NodeId × Span)
  | literal id span _ => [(id, span)]
  | reference id span _ => [(id, span)]
  | operation id span _ lhs rhs => lhs.nodes ++ rhs.nodes ++ [(id, span)]

namespace Statement

mutual

/-- The nodes of a statement, a conditional before its condition and its blocks. -/
def nodes : Statement → List (NodeId × Span)
  | declare _ value _ => value.nodes
  | assign a => a.value.nodes
  | ifThen id condition body _ => (id, condition.span) :: (condition.nodes ++ nodesAll body)
  | ifElse id condition body alternative _ _ =>
    (id, condition.span) :: (condition.nodes ++ nodesAll body ++ nodesAll alternative)

def nodesAll : List Statement → List (NodeId × Span)
  | [] => []
  | s :: rest => s.nodes ++ nodesAll rest

end

theorem nodesAll_eq_flatMap (body : List Statement) : nodesAll body = body.flatMap nodes := by
  induction body with
  | nil => rfl
  | cons s rest ih => simp [nodesAll, ih]

end Statement

def Item.nodes : Item → List (NodeId × Span)
  | assign a => a.value.nodes
  | rule r => Statement.nodesAll r.body

def Sheet.nodes (sheet : Sheet) : List (NodeId × Span) :=
  sheet.items.flatMap Item.nodes

/-- The identities of a sheet's nodes. -/
def Sheet.ids (sheet : Sheet) : List NodeId :=
  sheet.nodes.map Prod.fst

theorem Expr.exists_nodes_eq (e : Expr) : ∃ front, e.nodes = front ++ [(e.id, e.span)] := by
  cases e with
  | literal id span value => exact ⟨[], rfl⟩
  | reference id span name => exact ⟨[], rfl⟩
  | operation id span op lhs rhs => exact ⟨lhs.nodes ++ rhs.nodes, rfl⟩

theorem Expr.mem_nodes_self (e : Expr) : (e.id, e.span) ∈ e.nodes := by
  obtain ⟨front, hfront⟩ := e.exists_nodes_eq
  simp [hfront]

/-! ## Spans around a reader -/

/-- A property of spans that merging keeps and that the start of the source has. -/
structure Span.Spanning (P : Span → Prop) : Prop where
  zero : P .zero
  merge : ∀ {a b}, P a → P b → P (a.merge b)

namespace Reader

variable {P : Span → Prop} {r s : Reader}

/-- Merging keeps `P`, and the tokens around a reader and its problems have spans with `P`. -/
structure Marked (P : Span → Prop) (r : Reader) : Prop extends Span.Spanning P where
  last : ∀ t ∈ r.last, P t.span
  rest : ∀ t ∈ r.rest, P t.span
  diagnostics : ∀ d ∈ r.diagnostics, P d.span

namespace Marked

variable {r : Reader}

theorem span_peek (h : r.Marked P) : P r.peek.span := by
  unfold peek
  split
  · next t rest hrest => exact h.rest t (by simp [hrest])
  · cases hlast : r.last with
    | none => exact h.zero
    | some t => exact h.last t (by simp [hlast])

theorem prevSpan (h : r.Marked P) : P r.prevSpan := by
  unfold Reader.prevSpan
  cases hlast : r.last with
  | none => exact h.span_peek
  | some t => exact h.last t (by simp [hlast])

theorem report (h : r.Marked P) {span : Span} (hspan : P span) (problem : Problem) :
    (r.report span problem).Marked P := by
  refine { h with diagnostics := fun d hd => ?_ }
  rcases List.mem_append.1 hd with hd | hd
  · exact h.diagnostics d hd
  · obtain rfl := List.mem_singleton.1 hd
    exact hspan

theorem reportPrev (h : r.Marked P) (problem : Problem) : (r.reportPrev problem).Marked P :=
  { h.report h.prevSpan problem with }

theorem advance (h : r.Marked P) {t : Token} {rest : List Token} (hrest : r.rest = t :: rest) :
    (r.advance t rest).Marked P := by
  refine { h with last := ?_, rest := ?_ }
  · intro t' ht'
    obtain rfl : t = t' := by simpa [Reader.advance] using ht'
    exact h.rest t (by simp [hrest])
  · intro t' ht'
    exact h.rest t' (by simp [hrest, show t' ∈ rest from ht'])

theorem bump (h : r.Marked P) : r.bump.Marked P := by
  unfold Reader.bump
  split
  · next t rest hrest =>
    split
    · exact h
    · exact h.advance hrest
  · split
    · exact h
    · exact { h with }

theorem eat {s : Reader} (h : r.Marked P) {mark : Punct} (heat : r.eat mark = some s) :
    s.Marked P := by
  unfold Reader.eat at heat
  split at heat
  · next t rest hrest =>
    split at heat
    · obtain rfl : r.advance t rest = s := by simpa using heat
      exact h.advance hrest
    · simp at heat
  · simp at heat

theorem expect (h : r.Marked P) (mark : Punct) : (r.expect mark).Marked P := by
  unfold Reader.expect
  split
  · next heat => exact h.eat heat
  · exact h.report h.span_peek _

theorem number (h : r.Marked P) : r.number.2.Marked P :=
  { h with }

end Marked

/-! ## What reading does to labels -/

/-- Reading from `r` to `s` makes the nodes: it numbers them in order, and their spans have `P` like
all spans around `s`. -/
structure Labels (P : Span → Prop) (r s : Reader) (nodes : List (NodeId × Span)) : Prop where
  nextId : s.nextId = r.nextId + nodes.length
  ids : nodes.map Prod.fst = (List.range' r.nextId nodes.length).map NodeId.mk
  marked : s.Marked P
  spans : ∀ x ∈ nodes, P x.2

namespace Labels

variable {r s t : Reader}

theorem of_eq (hid : s.nextId = r.nextId) (h : s.Marked P) : Labels P r s [] :=
  ⟨hid, rfl, h, by simp⟩

theorem trans {nodes nodes' : List (NodeId × Span)} (h : Labels P r s nodes)
    (h' : Labels P s t nodes') : Labels P r t (nodes ++ nodes') := by
  refine ⟨?_, ?_, h'.marked, ?_⟩
  · rw [h'.nextId, h.nextId, List.length_append, Nat.add_assoc]
  · rw [List.map_append, h.ids, h'.ids, h.nextId, List.length_append, ← List.range'_append_1,
      List.map_append]
  · intro x hx
    rcases List.mem_append.1 hx with hx | hx
    · exact h.spans x hx
    · exact h'.spans x hx

theorem of_nextId {nodes : List (NodeId × Span)} (h : Labels P s t nodes)
    (hid : s.nextId = r.nextId) : Labels P r t nodes :=
  ⟨hid ▸ h.nextId, hid ▸ h.ids, h.marked, h.spans⟩

theorem onward {nodes : List (NodeId × Span)} (h : Labels P r s nodes) (ht : t.Marked P)
    (hid : t.nextId = s.nextId) : Labels P r t nodes :=
  ⟨hid.trans h.nextId, h.ids, ht, h.spans⟩

theorem number (h : r.Marked P) {span : Span} (hspan : P span) :
    Labels P r r.number.2 [(r.number.1, span)] :=
  ⟨rfl, rfl, h.number, by simpa using hspan⟩

theorem span {e : Expr} (h : Labels P r s e.nodes) : P e.span :=
  h.spans _ e.mem_nodes_self

end Labels

@[simp]
theorem nextId_bump (r : Reader) : r.bump.nextId = r.nextId := by
  unfold bump
  split <;> split <;> rfl

theorem nextId_of_eat {mark : Punct} (h : r.eat mark = some s) : s.nextId = r.nextId := by
  unfold eat at h
  split at h
  · split at h
    · simp [← Option.some.inj h, advance]
    · simp at h
  · simp at h

@[simp]
theorem nextId_expect (r : Reader) (mark : Punct) : (r.expect mark).nextId = r.nextId := by
  unfold expect
  split
  · next h => exact nextId_of_eat h
  · rfl

/-! ## Expressions -/

theorem literal_labels (h : s.Marked P) {span : Span} (hspan : P span) (hid : s.nextId = r.nextId)
    (v : Literal) :
    Labels P r (s.literal span v).2 (s.literal span v).1.nodes :=
  (Labels.number h hspan).of_nextId hid

theorem value_labels (h : r.Marked P) : Labels P r r.value.2 r.value.1.nodes := by
  have hspan := h.span_peek
  have hid := r.nextId_bump
  simp only [value]
  split
  case h_1 | h_2 => exact literal_labels (r := r) (h.report hspan _) hspan rfl _
  case h_7 => exact (Labels.number h.bump hspan).of_nextId hid
  case h_8 =>
    split
    · exact literal_labels h.bump hspan hid _
    · exact literal_labels (h.bump.reportPrev _) hspan hid _
  case h_9 | h_10 | h_11 => exact literal_labels (h.bump.reportPrev _) hspan hid _
  all_goals exact literal_labels h.bump hspan hid _

theorem operation_labels {lhs rhs : Expr} (hlhs : P lhs.span) (hrhs : Labels P r s rhs.nodes)
    (op : Operator) :
    Labels P r (s.operation op lhs rhs).2
      (rhs.nodes ++ [((s.operation op lhs rhs).1.id, (s.operation op lhs rhs).1.span)]) :=
  hrhs.trans (.number hrhs.marked (hrhs.marked.merge hlhs hrhs.span))

/-- Reading further factors makes their nodes after those of the first one. -/
theorem factors_labels (lhs : Expr) (h : r.Marked P) (hlhs : P lhs.span) :
    ∃ nodes, (factors lhs r).1.nodes = lhs.nodes ++ nodes ∧
      Labels P r (factors lhs r).2 nodes := by
  fun_induction factors lhs r with
  | case1 lhs r heat => exact ⟨[], by simp, .of_eq rfl h⟩
  | case2 lhs r r' heat hlt rhs product ih =>
    have hrhs := (value_labels (h.eat heat)).of_nextId (nextId_of_eat heat)
    have hproduct := operation_labels hlhs hrhs .multiply
    obtain ⟨nodes, hnodes, hmore⟩ := ih hproduct.marked
      (hproduct.spans _ (List.mem_append_right _ (List.mem_singleton_self _)))
    refine ⟨_, ?_, hproduct.trans hmore⟩
    rw [hnodes, ← List.append_assoc, ← List.append_assoc]
    rfl

theorem product_labels (h : r.Marked P) : Labels P r r.product.2 r.product.1.nodes := by
  have hfirst := value_labels h
  obtain ⟨nodes, hnodes, hmore⟩ := factors_labels r.value.1 hfirst.marked hfirst.span
  rw [product, hnodes]
  exact hfirst.trans hmore

theorem eatSum_labels {op : Operator} (h : r.Marked P) (heat : r.eatSum = some (op, s)) :
    Labels P r s [] := by
  unfold eatSum at heat
  split at heat
  · next hplus =>
    obtain ⟨-, rfl⟩ : Operator.add = op ∧ _ = s := by simpa using heat
    exact .of_eq (nextId_of_eat hplus) (h.eat hplus)
  · simp only [Option.map_eq_some_iff, Prod.mk.injEq] at heat
    obtain ⟨s', hminus, -, rfl⟩ := heat
    exact .of_eq (nextId_of_eat hminus) (h.eat hminus)

/-- Reading further terms makes their nodes after those of the first one. -/
theorem terms_labels (lhs : Expr) (h : r.Marked P) (hlhs : P lhs.span) :
    ∃ nodes, (terms lhs r).1.nodes = lhs.nodes ++ nodes ∧ Labels P r (terms lhs r).2 nodes := by
  fun_induction terms lhs r with
  | case1 lhs r heat => exact ⟨[], by simp, .of_eq rfl h⟩
  | case2 lhs r op r' heat hlt rhs sum ih =>
    have hmark := eatSum_labels h heat
    have hrhs := hmark.trans (product_labels hmark.marked)
    have hsum := operation_labels hlhs hrhs op
    obtain ⟨nodes, hnodes, hmore⟩ := ih hsum.marked
      (hsum.spans _ (List.mem_append_right _ (List.mem_singleton_self _)))
    refine ⟨_, ?_, hsum.trans hmore⟩
    rw [hnodes, ← List.append_assoc, ← List.append_assoc]
    rfl

theorem expr_labels (h : r.Marked P) : Labels P r r.expr.2 r.expr.1.nodes := by
  have hfirst := product_labels h
  obtain ⟨nodes, hnodes, hmore⟩ := terms_labels r.product.1 hfirst.marked hfirst.span
  rw [expr, hnodes]
  exact hfirst.trans hmore

/-! ## Statements -/

theorem expr_between_labels (h : r.Marked P) (first last : Punct) :
    Labels P r ((r.expect first).expr.2.expect last) (r.expect first).expr.1.nodes := by
  have hvalue := (expr_labels (h.expect first)).of_nextId (nextId_expect r first)
  exact hvalue.onward (hvalue.marked.expect last) (nextId_expect ..)

theorem assignment_labels (name : Ident) (h : r.Marked P) :
    Labels P r (assignment name r).2 (assignment name r).1.value.nodes :=
  expr_between_labels h .assign .semicolon

theorem declaration_labels (property : Ident) (h : r.Marked P) :
    Labels P r (declaration property r).2 (declaration property r).1.nodes :=
  expr_between_labels h .colon .semicolon

theorem condition_labels (h : r.Marked P) :
    Labels P r r.condition.2
      ((r.condition.1.1, r.condition.1.2.span) :: r.condition.1.2.nodes) := by
  have hvalue := (value_labels (h.number.expect .leftBracket)).of_nextId (nextId_expect ..)
  have hclose := hvalue.onward (hvalue.marked.expect .rightBracket) (nextId_expect ..)
  -- The conditional has its number before its condition, and is reported under its span.
  exact (Labels.number h hvalue.span).trans hclose

theorem eatElse_labels {span : Span} (h : r.Marked P) (heat : r.eatElse = some (span, s)) :
    Labels P r s [] := by
  unfold eatElse at heat
  split at heat
  · next t rest hrest =>
    split at heat
    · obtain ⟨-, rfl⟩ : t.span = span ∧ r.advance t rest = s := by simpa using heat
      exact .of_eq rfl (h.advance hrest)
    · simp at heat
  · simp at heat

theorem closeBlock_labels (h : r.Marked P) {opening : Span} (hopening : P opening)
    (body : List Statement) : Labels P r (closeBlock opening body r) [] := by
  have hclose := h.expect .rightBrace
  unfold closeBlock
  split
  · exact .of_eq (nextId_expect ..) (hclose.report (h.merge hopening hclose.prevSpan) _)
  · exact .of_eq (nextId_expect ..) hclose

theorem forall_skipStatement {Q : Token → Prop} (depth : Nat) {last : Option Token}
    {tokens : List Token} (hlast : ∀ t ∈ last, Q t) (htokens : ∀ t ∈ tokens, Q t) :
    (∀ t ∈ (skipStatement depth last tokens).1, Q t) ∧
      ∀ t ∈ (skipStatement depth last tokens).2, Q t := by
  fun_induction skipStatement depth last tokens <;> simp_all

theorem forall_skipItem {Q : Token → Prop} (depth : Nat) {last : Option Token}
    {tokens : List Token} (hlast : ∀ t ∈ last, Q t) (htokens : ∀ t ∈ tokens, Q t) :
    (∀ t ∈ (skipItem depth last tokens).1, Q t) ∧
      ∀ t ∈ (skipItem depth last tokens).2, Q t := by
  fun_induction skipItem depth last tokens <;> simp_all

theorem Marked.toStatement (h : r.Marked P) : r.toStatement.Marked P :=
  have hskip := forall_skipStatement 0 h.last h.rest
  { h with last := hskip.1, rest := hskip.2 }

theorem Marked.toItem (h : r.Marked P) : r.toItem.Marked P :=
  have hskip := forall_skipItem 0 h.last h.rest
  { h with last := hskip.1, rest := hskip.2 }

mutual

theorem block_labels {r : Reader} (h : r.Marked P) :
    Labels P r r.block.2 (Statement.nodesAll r.block.1) := by
  have hlen := length_expect_le r .leftBrace
  have hbody := (statements_labels (h.expect .leftBrace)).of_nextId (nextId_expect ..)
  rw [block_eq]
  simpa using hbody.trans (closeBlock_labels hbody.marked h.span_peek _)
termination_by 3 * r.rest.length + 1

theorem conditional_labels (start : Span) {r : Reader} (h : r.Marked P) :
    Labels P r (r.conditional start).2 (r.conditional start).1.nodes := by
  have hlen := length_condition_le r
  have hlen' := length_block_le r.condition.2
  have hhead := condition_labels h
  have hbody := hhead.trans (block_labels hhead.marked)
  rw [conditional_eq]
  dsimp only
  split
  · next helse => exact hbody
  · next elseStart r' helse =>
    have hlt := length_lt_of_eatElse helse
    have helse' := eatElse_labels hbody.marked helse
    exact hbody.trans (helse'.trans (block_labels helse'.marked))
termination_by 3 * r.rest.length + 2

theorem statements_labels {r : Reader} (h : r.Marked P) :
    Labels P r r.statements.2 (Statement.nodesAll r.statements.1) := by
  rw [statements_eq]
  split
  · exact .of_eq rfl h
  · next t rest hrest =>
    have hlen : r.rest.length = rest.length + 1 := by simp [hrest]
    have hafter := h.advance hrest
    dsimp only
    split
    · exact .of_eq rfl h
    · next name hlead =>
      have hfirst := declaration_labels ⟨name, t.span⟩ hafter
      have hle : (declaration ⟨name, t.span⟩ (r.advance t rest)).2.rest.length ≤ rest.length :=
        length_declaration_le _ _
      exact (hfirst.trans (statements_labels hfirst.marked)).of_nextId rfl
    · next name hlead =>
      have hfirst := assignment_labels ⟨name, t.span⟩ hafter
      have hle : (assignment ⟨name, t.span⟩ (r.advance t rest)).2.rest.length ≤ rest.length :=
        length_assignment_le _ _
      exact (hfirst.trans (statements_labels hfirst.marked)).of_nextId rfl
    · next hlead =>
      have hfirst := conditional_labels t.span hafter
      have hle : ((r.advance t rest).conditional t.span).2.rest.length ≤ rest.length :=
        (conditionalReads t.span (r.advance t rest)).2
      exact (hfirst.trans (statements_labels hfirst.marked)).of_nextId rfl
    · next hlead =>
      have hlt := length_stray_statement_lt hrest hlead
      have hreport := h.report (h.rest t (by simp [hrest])) (.statementExpected t.kind)
      exact (statements_labels hreport.toStatement).of_nextId rfl
termination_by 3 * r.rest.length

end

/-! ## Sheets -/

theorem items_labels {r : Reader} (h : r.Marked P) :
    Labels P r r.items.2 (r.items.1.flatMap Item.nodes) := by
  rw [items_eq]
  split
  · exact .of_eq rfl h
  · next t rest hrest =>
    have hlen : r.rest.length = rest.length + 1 := by simp [hrest]
    have hafter := h.advance hrest
    split
    · exact .of_eq rfl h
    · next name hlead =>
      have hfirst := assignment_labels ⟨name, t.span⟩ hafter
      have hle : (assignment ⟨name, t.span⟩ (r.advance t rest)).2.rest.length ≤ rest.length :=
        length_assignment_le _ _
      exact (hfirst.trans (items_labels hfirst.marked)).of_nextId rfl
    · next selector hlead =>
      have hfirst := block_labels hafter
      have hle : (r.advance t rest).block.2.rest.length ≤ rest.length := length_block_le _
      exact (hfirst.trans (items_labels hfirst.marked)).of_nextId rfl
    · next hlead =>
      have hlt := length_stray_item_lt hrest hlead
      have hreport := h.report (h.rest t (by simp [hrest])) (.itemExpected t.kind)
      exact (items_labels hreport.toItem).of_nextId rfl
termination_by r.rest.length

theorem sheet_labels (h : r.Marked P) : Labels P r r.sheet.2 r.sheet.1.nodes := by
  have hitems := items_labels h
  simp only [sheet]
  split
  · exact hitems.onward (hitems.marked.report hitems.marked.span_peek .noItems) rfl
  · exact hitems

/-! ## Identities -/

theorem labels_start (tokens : List Token) (diagnostics : List Diagnostic) :
    Labels (fun _ => True) (start tokens diagnostics) (start tokens diagnostics).sheet.2
      (start tokens diagnostics).sheet.1.nodes :=
  sheet_labels ⟨⟨trivial, fun _ _ => trivial⟩, by simp, by simp, by simp⟩

theorem ids_sheet (tokens : List Token) (diagnostics : List Diagnostic) :
    (start tokens diagnostics).sheet.1.ids =
      (List.range (start tokens diagnostics).sheet.1.nodes.length).map NodeId.mk := by
  rw [List.range_eq_range']
  exact (labels_start tokens diagnostics).ids

theorem nodup_ids_sheet (tokens : List Token) (diagnostics : List Diagnostic) :
    (start tokens diagnostics).sheet.1.ids.Nodup := by
  rw [ids_sheet]
  exact List.Pairwise.map _ (fun _ _ hne heq => hne (NodeId.mk.inj heq)) List.nodup_range

theorem mem_ids_sheet (tokens : List Token) (diagnostics : List Diagnostic) (id : NodeId) :
    id ∈ (start tokens diagnostics).sheet.1.ids ↔
      id.val < (start tokens diagnostics).sheet.1.nodes.length := by
  rw [ids_sheet, List.mem_map]
  constructor
  · rintro ⟨n, hn, rfl⟩
    exact List.mem_range.1 hn
  · intro h
    exact ⟨id.val, List.mem_range.2 h, rfl⟩

/-- Whatever the tokens, the `n` nodes of the sheet that is read from them have the numbers below
`n` as their identities, each once, in the order in which the nodes are made. The reader has given
out no other number, so no node that it made is missing from the tree; and no node is taken for the
dummy, as long as there are fewer nodes than its number. -/
theorem sheet_numbers (tokens : List Token) (diagnostics : List Diagnostic) :
    let read := (start tokens diagnostics).sheet
    let n := read.1.nodes.length
    read.1.ids = (List.range n).map NodeId.mk ∧ read.1.ids.Nodup ∧
      (∀ id, id ∈ read.1.ids ↔ id.val < n) ∧ read.2.nextId = n ∧
      (n < 4294967295 → NodeId.dummy ∉ read.1.ids) := by
  intro read n
  have hmem : ∀ id, id ∈ read.1.ids ↔ id.val < n := mem_ids_sheet tokens diagnostics
  have hnext : read.2.nextId = 0 + n := (labels_start tokens diagnostics).nextId
  refine ⟨ids_sheet tokens diagnostics, nodup_ids_sheet tokens diagnostics, hmem, ?_, ?_⟩
  · rw [hnext, Nat.zero_add]
  · intro hn hdummy
    exact absurd ((hmem .dummy).1 hdummy) (Nat.lt_asymm hn)

/-- `A := ; a { if [ ] { width : B + * 1px } else ]`: three values are missing, and two blocks are
not closed. -/
def gaps : List Token :=
  [.capital "A", .punct .assign, .punct .semicolon, .lower "a", .punct .leftBrace,
    .keyword .ifWord, .punct .leftBracket, .punct .rightBracket, .punct .leftBrace, .lower "width",
    .punct .colon, .capital "B", .punct .plus, .punct .star, .pixel 1, .punct .rightBrace,
    .keyword .elseWord, .punct .rightBracket, .eof].map fun kind => ⟨kind, .zero⟩

theorem sheet_numbers_gaps :
    let read := (start gaps []).sheet
    (∃ t ∈ gaps, t.kind = .eof) ∧ read.2.diagnostics.length = 9 ∧ read.1.nodes.length = 8 ∧
      read.1.ids.Nodup ∧ read.2.nextId = 8 ∧ NodeId.dummy ∉ read.1.ids := by
  obtain ⟨-, hnodup, -, hnext, hdummy⟩ := sheet_numbers gaps []
  have hlength : (start gaps []).sheet.1.nodes.length = 8 := by decide +kernel
  rw [hlength] at hnext hdummy
  exact ⟨by decide, by decide +kernel, hlength, hnodup, hnext, hdummy (by decide)⟩

end Reader

/-- A property of spans that merging keeps goes over from the tokens of a source, and from what
could not be read as a token, to the nodes of its sheet and to all problems. -/
theorem Sheet.spans_parse {P : Span → Prop} (hP : Span.Spanning P) {source : String}
    (htokens : ∀ t ∈ (Token.scan source.toList).tokens, P t.span)
    (hfaults : ∀ d ∈ (Token.scan source.toList).diagnostics, P d.span) :
    (∀ x ∈ (parse source).sheet.nodes, P x.2) ∧ ∀ d ∈ (parse source).diagnostics, P d.span := by
  have hstart : (Reader.start (Token.scan source.toList).tokens
      (Token.scan source.toList).diagnostics).Marked P :=
    { hP with last := by simp [Reader.start], rest := htokens, diagnostics := hfaults }
  have hlabels := Reader.sheet_labels hstart
  exact ⟨hlabels.spans, hlabels.marked.diagnostics⟩

end TypedStyle
