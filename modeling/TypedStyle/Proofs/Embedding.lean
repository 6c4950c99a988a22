import TypedStyle.Proofs.ParserCompleteness
import TypedStyle.Proofs.Nodes

/-!
# Reading tokens in another place

The same tokens may stand in two texts: at other positions, behind other nodes and problems, and in
front of other tokens. A reader does not notice any of this. It looks only at the kind of the token
in view, makes spans by merging those of tokens, and counts nodes one by one.

An `Embedding` says how tokens of the one text are found again in the other. `Mirrors m r r'` says
that two readers stand at the same token of the two texts, and every function of the reader takes
such readers to such readers and makes the same tree, up to the labels that the embedding changes.
This includes the way in which a reader goes on after a mistake. It holds as long as the reader has
the common tokens in view: behind them each text goes on in its own way.
-/

namespace TypedStyle

/-- How tokens of a text are found again in another one. -/
structure Embedding where
  /-- How many more nodes are made before. -/
  shift : Nat
  spans : Span → Span
  /-- Spans are merged the same way in both texts. -/
  merge : ∀ a b, spans (a.merge b) = (spans a).merge (spans b)
  /-- The problems that are met before in the other text. -/
  before : List Diagnostic
  /-- What follows on the tokens in their own text. -/
  tail : List Token
  more : List Token

namespace Embedding

variable (m : Embedding)

def id (i : NodeId) : NodeId :=
  ⟨i.val + m.shift⟩

def token (t : Token) : Token :=
  { t with span := m.spans t.span }

def diagnostic (d : Diagnostic) : Diagnostic :=
  { d with span := m.spans d.span, node := d.node.map m.id }

/-- The reader has one of the common tokens in view, or both texts end with them. -/
def Sees (r : Reader) : Prop :=
  m.tail.length < r.rest.length ∨ m.tail = [] ∧ m.more = []

variable {m}

theorem Sees.mono {r s : Reader} (h : m.Sees s) (hle : s.rest.length ≤ r.rest.length) :
    m.Sees r :=
  h.imp_left fun hlt => Nat.lt_of_lt_of_le hlt hle

end Embedding

namespace Reader

variable {m : Embedding} {r r' : Reader}

/-- The readers `r` and `r'` are in front of the same tokens of two texts, and have made and met the
same things. -/
structure Faces (m : Embedding) (r r' : Reader) : Prop where
  rest : ∃ front, r.rest = front ++ m.tail ∧ r'.rest = front.map m.token ++ m.more
  nextId : r'.nextId = r.nextId + m.shift
  diagnostics : r'.diagnostics = m.before ++ r.diagnostics.map m.diagnostic

/-- The readers are also behind the same token. -/
structure Mirrors (m : Embedding) (r r' : Reader) : Prop extends Faces m r r' where
  last : ∃ t, r.last = some t ∧ r'.last = some (m.token t)

/-! ## Single tokens -/

theorem Faces.report (h : Faces m r r') (span : Span) (problem : Problem) :
    Faces m (r.report span problem) (r'.report (m.spans span) problem) where
  rest := h.rest
  nextId := h.nextId
  diagnostics := by
    simp [Reader.report, h.diagnostics, Embedding.diagnostic, Diagnostic.ofText]

theorem Faces.rest_cases (h : Faces m r r') (hview : m.Sees r) :
    (r.rest = [] ∧ r'.rest = []) ∨ ∃ t rest rest', r.rest = t :: rest ∧
      r'.rest = m.token t :: rest' ∧ Mirrors m (r.advance t rest) (r'.advance (m.token t) rest') := by
  obtain ⟨front, hrest, hrest'⟩ := h.rest
  cases front with
  | nil =>
    obtain hlt | ⟨htail, hmore⟩ := hview
    · simp [hrest] at hlt
    · exact .inl ⟨by simpa [htail] using hrest, by simpa [hmore] using hrest'⟩
  | cons t front =>
    refine .inr ⟨t, front ++ m.tail, front.map m.token ++ m.more, hrest, hrest', ?_⟩
    exact ⟨⟨⟨front, rfl, rfl⟩, h.nextId, h.diagnostics⟩, ⟨t, rfl, rfl⟩⟩

namespace Mirrors

theorem peek (h : Mirrors m r r') (hview : m.Sees r) : r'.peek = m.token r.peek := by
  obtain ⟨hrest, hrest'⟩ | ⟨t, rest, rest', hrest, hrest', -⟩ := h.rest_cases hview
  · obtain ⟨t, hlast, hlast'⟩ := h.last
    simp [Reader.peek, hrest, hrest', hlast, hlast']
  · simp [Reader.peek, hrest, hrest']

theorem prevSpan (h : Mirrors m r r') : r'.prevSpan = m.spans r.prevSpan := by
  obtain ⟨t, hlast, hlast'⟩ := h.last
  simp [Reader.prevSpan, hlast, hlast', Embedding.token]

theorem report (h : Mirrors m r r') (span : Span) (problem : Problem) :
    Mirrors m (r.report span problem) (r'.report (m.spans span) problem) :=
  ⟨h.toFaces.report span problem, h.last⟩

theorem reportPrev (h : Mirrors m r r') (problem : Problem) :
    Mirrors m (r.reportPrev problem) (r'.reportPrev problem) := by
  have hreport := h.report r.prevSpan problem
  rw [← h.prevSpan] at hreport
  exact ⟨⟨hreport.rest, hreport.nextId, hreport.diagnostics⟩, hreport.last⟩

theorem bump (h : Mirrors m r r') (hview : m.Sees r) : Mirrors m r.bump r'.bump := by
  obtain ⟨hrest, hrest'⟩ | ⟨t, rest, rest', hrest, hrest', hadvance⟩ := h.rest_cases hview
  · have hkind : r'.peek.kind = r.peek.kind := by rw [h.peek hview, Embedding.token]
    unfold Reader.bump
    rw [hrest, hrest', hkind]
    dsimp only
    split
    · exact h
    · exact ⟨⟨by simpa [hrest, hrest'] using h.rest, h.nextId, h.diagnostics⟩, h.last⟩
  · simp only [Reader.bump, hrest, hrest', Embedding.token]
    split
    · exact h
    · exact hadvance

theorem eat (h : Mirrors m r r') (hview : m.Sees r) (mark : Punct) :
    (r.eat mark = none ∧ r'.eat mark = none) ∨
      ∃ s s', r.eat mark = some s ∧ r'.eat mark = some s' ∧ Mirrors m s s' := by
  obtain ⟨hrest, hrest'⟩ | ⟨t, rest, rest', hrest, hrest', hadvance⟩ := h.rest_cases hview
  · exact .inl ⟨by simp [Reader.eat, hrest], by simp [Reader.eat, hrest']⟩
  · by_cases hkind : t.kind = .punct mark
    · exact .inr ⟨_, _, eat_of_rest hrest hkind, eat_of_rest hrest' hkind, hadvance⟩
    · exact .inl ⟨eat_eq_none hrest hkind, eat_eq_none hrest' hkind⟩

theorem expect (h : Mirrors m r r') (hview : m.Sees r) (mark : Punct) :
    Mirrors m (r.expect mark) (r'.expect mark) := by
  obtain ⟨heat, heat'⟩ | ⟨s, s', heat, heat', hs⟩ := h.eat hview mark
  · simp only [Reader.expect, heat, heat', h.peek hview]
    exact h.report _ _
  · simpa only [Reader.expect, heat, heat'] using hs

theorem eatElse (h : Mirrors m r r') (hview : m.Sees r) :
    (r.eatElse = none ∧ r'.eatElse = none) ∨ ∃ span s s', r.eatElse = some (span, s) ∧
      r'.eatElse = some (m.spans span, s') ∧ Mirrors m s s' := by
  obtain ⟨hrest, hrest'⟩ | ⟨t, rest, rest', hrest, hrest', hadvance⟩ := h.rest_cases hview
  · exact .inl ⟨by simp [Reader.eatElse, hrest], by simp [Reader.eatElse, hrest']⟩
  · by_cases hkind : t.kind = .keyword .elseWord
    · exact .inr ⟨_, _, _, eatElse_of_rest hrest hkind, eatElse_of_rest hrest' hkind, hadvance⟩
    · refine .inl ⟨?_, ?_⟩ <;> simp [Reader.eatElse, hrest, hrest', Embedding.token, hkind]

theorem number (h : Mirrors m r r') :
    r'.number.1 = m.id r.number.1 ∧ Mirrors m r.number.2 r'.number.2 := by
  have hid := h.nextId
  refine ⟨congrArg NodeId.mk hid, ⟨h.rest, ?_, h.diagnostics⟩, h.last⟩
  simp only [Reader.number, hid]
  omega

/-! ## Expressions -/

theorem literal (h : Mirrors m r r') (span : Span) (v : Literal) :
    (r'.literal (m.spans span) v).1 = (r.literal span v).1.relabel m.id m.spans ∧
      Mirrors m (r.literal span v).2 (r'.literal (m.spans span) v).2 := by
  obtain ⟨hid, hnext⟩ := h.number
  exact ⟨by simp [Reader.literal, Expr.relabel, hid], hnext⟩

theorem reference (h : Mirrors m r r') (span : Span) (name : String) :
    (r'.reference (m.spans span) name).1 = (r.reference span name).1.relabel m.id m.spans ∧
      Mirrors m (r.reference span name).2 (r'.reference (m.spans span) name).2 := by
  obtain ⟨hid, hnext⟩ := h.number
  exact ⟨by simp [Reader.reference, Expr.relabel, hid], hnext⟩

theorem operation (h : Mirrors m r r') (op : Operator) (lhs rhs : Expr) :
    (r'.operation op (lhs.relabel m.id m.spans) (rhs.relabel m.id m.spans)).1 =
        (r.operation op lhs rhs).1.relabel m.id m.spans ∧
      Mirrors m (r.operation op lhs rhs).2
        (r'.operation op (lhs.relabel m.id m.spans) (rhs.relabel m.id m.spans)).2 := by
  obtain ⟨hid, hnext⟩ := h.number
  have hspan (e : Expr) : (e.relabel m.id m.spans).span = m.spans e.span := by
    cases e <;> rfl
  exact ⟨by simp [Reader.operation, Expr.relabel, hid, hspan, m.merge], hnext⟩

theorem value (h : Mirrors m r r') (hview : m.Sees r) :
    r'.value.1 = r.value.1.relabel m.id m.spans ∧ Mirrors m r.value.2 r'.value.2 := by
  have hbump := h.bump hview
  simp only [Reader.value, h.peek hview, Embedding.token]
  cases r.peek.kind with
  | punct mark => exact (h.report ..).literal ..
  | eof => exact (h.report ..).literal ..
  | pixel n => exact hbump.literal ..
  | percentage n => exact hbump.literal ..
  | scalar n => exact hbump.literal ..
  | bool b => exact hbump.literal ..
  | capital name => exact hbump.reference ..
  | hash digits =>
    dsimp only
    split
    · exact hbump.literal ..
    · exact (hbump.reportPrev _).literal ..
  | lower name => exact (hbump.reportPrev _).literal ..
  | dotted name => exact (hbump.reportPrev _).literal ..
  | keyword word => exact (hbump.reportPrev _).literal ..

theorem factors {r r' : Reader} (h : Mirrors m r r') (lhs : Expr)
    (hview : m.Sees (Reader.factors lhs r).2) :
    (Reader.factors (lhs.relabel m.id m.spans) r').1 =
        (Reader.factors lhs r).1.relabel m.id m.spans ∧
      Mirrors m (Reader.factors lhs r).2
        (Reader.factors (lhs.relabel m.id m.spans) r').2 := by
  -- What is left is never more than before, so the reader sees all the way through.
  have hmark := hview.mono (length_factors_le lhs r)
  obtain ⟨heat, heat'⟩ | ⟨s, s', heat, heat', hs⟩ := h.eat hmark .star
  · rw [factors_of_eat_none heat, factors_of_eat_none heat']
    exact ⟨rfl, h⟩
  · have hlt := length_lt_of_eat heat
    have hle := length_value_le s
    rw [factors_of_eat heat] at hview ⊢
    have hvalue := hview.mono (Nat.le_trans (length_factors_le ..) hle)
    obtain ⟨hrhs, hnext⟩ := hs.value hvalue
    obtain ⟨hproduct, hafter⟩ := hnext.operation .multiply lhs s.value.1
    rw [factors_of_eat heat', hrhs, hproduct]
    exact hafter.factors _ hview
termination_by r.rest.length
decreasing_by exact Nat.lt_of_le_of_lt hle hlt

theorem product (h : Mirrors m r r') (hview : m.Sees r.product.2) :
    r'.product.1 = r.product.1.relabel m.id m.spans ∧ Mirrors m r.product.2 r'.product.2 := by
  obtain ⟨hfirst, hnext⟩ := h.value (hview.mono (length_product_le r))
  rw [Reader.product, Reader.product, hfirst]
  exact hnext.factors _ hview

theorem eatSum (h : Mirrors m r r') (hview : m.Sees r) :
    (r.eatSum = none ∧ r'.eatSum = none) ∨
      ∃ op s s', r.eatSum = some (op, s) ∧ r'.eatSum = some (op, s') ∧ Mirrors m s s' := by
  obtain ⟨hplus, hplus'⟩ | ⟨s, s', hplus, hplus', hs⟩ := h.eat hview .plus
  · obtain ⟨hminus, hminus'⟩ | ⟨s, s', hminus, hminus', hs⟩ := h.eat hview .minus
    · exact .inl ⟨by simp [Reader.eatSum, hplus, hminus], by simp [Reader.eatSum, hplus', hminus']⟩
    · exact .inr ⟨.subtract, s, s', by simp [Reader.eatSum, hplus, hminus],
        by simp [Reader.eatSum, hplus', hminus'], hs⟩
  · exact .inr ⟨.add, s, s', by simp [Reader.eatSum, hplus], by simp [Reader.eatSum, hplus'], hs⟩

theorem terms {r r' : Reader} (h : Mirrors m r r') (lhs : Expr)
    (hview : m.Sees (Reader.terms lhs r).2) :
    (Reader.terms (lhs.relabel m.id m.spans) r').1 =
        (Reader.terms lhs r).1.relabel m.id m.spans ∧
      Mirrors m (Reader.terms lhs r).2 (Reader.terms (lhs.relabel m.id m.spans) r').2 := by
  have hmark := hview.mono (length_terms_le lhs r)
  obtain ⟨heat, heat'⟩ | ⟨op, s, s', heat, heat', hs⟩ := h.eatSum hmark
  · rw [terms_of_eatSum_none heat, terms_of_eatSum_none heat']
    exact ⟨rfl, h⟩
  · have hlt := length_lt_of_eatSum heat
    have hle := length_product_le s
    rw [terms_of_eatSum heat] at hview ⊢
    obtain ⟨hrhs, hnext⟩ := hs.product (hview.mono (length_terms_le ..))
    obtain ⟨hsum, hafter⟩ := hnext.operation op lhs s.product.1
    rw [terms_of_eatSum heat', hrhs, hsum]
    exact hafter.terms _ hview
termination_by r.rest.length
decreasing_by exact Nat.lt_of_le_of_lt hle hlt

theorem expr (h : Mirrors m r r') (hview : m.Sees r.expr.2) :
    r'.expr.1 = r.expr.1.relabel m.id m.spans ∧ Mirrors m r.expr.2 r'.expr.2 := by
  obtain ⟨hfirst, hnext⟩ := h.product (hview.mono (length_terms_le ..))
  rw [Reader.expr, Reader.expr, hfirst]
  exact hnext.terms _ hview

/-! ## Statements -/

theorem expr_between (h : Mirrors m r r') (first last : Punct)
    (hview : m.Sees (r.expect first).expr.2) :
    (r'.expect first).expr.1 = (r.expect first).expr.1.relabel m.id m.spans ∧
      Mirrors m ((r.expect first).expr.2.expect last) ((r'.expect first).expr.2.expect last) := by
  have hmark := hview.mono (Nat.le_trans (length_expr_le _) (length_expect_le r first))
  obtain ⟨hvalue, hnext⟩ := (h.expect hmark first).expr hview
  exact ⟨hvalue, hnext.expect hview last⟩

theorem assignment (h : Mirrors m r r') (name : Ident) (hview : m.Sees (r.expect .assign).expr.2) :
    (Reader.assignment (name.relabel m.spans) r').1 =
        (Reader.assignment name r).1.relabel m.id m.spans ∧
      Mirrors m (Reader.assignment name r).2 (Reader.assignment (name.relabel m.spans) r').2 := by
  obtain ⟨hvalue, hnext⟩ := h.expr_between .assign .semicolon hview
  refine ⟨?_, hnext⟩
  simp [Reader.assignment, Assignment.relabel, Ident.relabel, hvalue, hnext.prevSpan, m.merge]

theorem declaration (h : Mirrors m r r') (property : Ident)
    (hview : m.Sees (r.expect .colon).expr.2) :
    (Reader.declaration (property.relabel m.spans) r').1 =
        (Reader.declaration property r).1.relabel m.id m.spans ∧
      Mirrors m (Reader.declaration property r).2
        (Reader.declaration (property.relabel m.spans) r').2 := by
  obtain ⟨hvalue, hnext⟩ := h.expr_between .colon .semicolon hview
  refine ⟨?_, hnext⟩
  simp [Reader.declaration, Statement.relabel, Ident.relabel, hvalue, hnext.prevSpan, m.merge]

theorem condition (h : Mirrors m r r') (hview : m.Sees r.condition.2) :
    r'.condition.1.1 = m.id r.condition.1.1 ∧
      r'.condition.1.2 = r.condition.1.2.relabel m.id m.spans ∧
      Mirrors m r.condition.2 r'.condition.2 := by
  obtain ⟨hid, hnumber⟩ := h.number
  have hclose : m.Sees (r.number.2.expect .leftBracket).value.2 := hview.mono (length_expect_le ..)
  have hvalue := hclose.mono (length_value_le _)
  have hopen : m.Sees r.number.2 := hvalue.mono (length_expect_le ..)
  obtain ⟨hexpr, hnext⟩ := (hnumber.expect hopen .leftBracket).value hvalue
  exact ⟨hid, hexpr, hnext.expect hclose .rightBracket⟩

theorem closeBlock (h : Mirrors m r r') (hview : m.Sees r) (opening : Span)
    (body : List Statement) :
    Mirrors m (Reader.closeBlock opening body r)
      (Reader.closeBlock (m.spans opening) (Statement.relabelAll m.id m.spans body) r') := by
  have hnext := h.expect hview .rightBrace
  cases body with
  | nil =>
    have hreport := hnext.report (opening.merge (r.expect .rightBrace).prevSpan) .emptyBlock
    rw [m.merge, ← hnext.prevSpan] at hreport
    exact hreport
  | cons s rest => exact hnext

end Mirrors

theorem length_block_le_statements (r : Reader) :
    r.block.2.rest.length ≤ (r.expect .leftBrace).statements.2.rest.length := by
  rw [block_eq]
  exact length_closeBlock_le ..

theorem length_conditional_le_block (start : Span) (r : Reader) :
    (r.conditional start).2.rest.length ≤ r.condition.2.block.2.rest.length := by
  rw [conditional_eq]
  dsimp only
  split
  · exact Nat.le_refl _
  · next helse =>
    exact Nat.le_trans (length_block_le _) (Nat.le_of_lt (length_lt_of_eatElse helse))

/-- Skipping a statement stops at the same token, if it stops where both texts agree. -/
theorem skipStatement_mirrors {depth : Nat} {last : Token} {front : List Token}
    (hview : m.tail.length < (skipStatement depth (some last) (front ++ m.tail)).2.length ∨
      m.tail = [] ∧ m.more = []) :
    ∃ last' front',
      skipStatement depth (some last) (front ++ m.tail) = (some last', front' ++ m.tail) ∧
        skipStatement depth (some (m.token last)) (front.map m.token ++ m.more) =
          (some (m.token last'), front'.map m.token ++ m.more) := by
  induction front generalizing depth last with
  | nil =>
    obtain hlt | ⟨htail, hmore⟩ := hview
    · exact absurd (length_skipStatement_le depth (some last) m.tail) (by simpa using hlt)
    · exact ⟨last, [], by simp [htail, skipStatement], by simp [hmore, skipStatement]⟩
  | cons t front ih =>
    simp only [List.cons_append, List.map_cons, skipStatement, Embedding.token] at hview ⊢
    split at hview
    · exact ⟨last, t :: front, rfl, rfl⟩
    · exact ih hview
    · exact ⟨last, t :: front, rfl, rfl⟩
    · exact ih hview
    · exact ⟨t, front, rfl, rfl⟩
    · exact ih hview

namespace Mirrors

theorem toStatement (h : Mirrors m r r') (hview : m.Sees r.toStatement) :
    Mirrors m r.toStatement r'.toStatement := by
  obtain ⟨front, hrest, hrest'⟩ := h.rest
  obtain ⟨last, hlast, hlast'⟩ := h.last
  simp only [Embedding.Sees, Reader.toStatement, hrest, hlast] at hview
  obtain ⟨last', front', hskip, hskip'⟩ := skipStatement_mirrors hview
  simp only [Reader.toStatement, hrest, hrest', hlast, hlast', hskip, hskip']
  exact ⟨⟨⟨front', rfl, rfl⟩, h.nextId, h.diagnostics⟩, ⟨last', rfl, rfl⟩⟩

mutual

theorem block {r r' : Reader} (h : Mirrors m r r')
    (hview : m.Sees (r.expect .leftBrace).statements.2) :
    r'.block.1 = Statement.relabelAll m.id m.spans r.block.1 ∧ Mirrors m r.block.2 r'.block.2 := by
  have hlen := length_expect_le r .leftBrace
  have hopen : m.Sees r := hview.mono (Nat.le_trans (statementsReads _).2 hlen)
  obtain ⟨hbody, hnext⟩ := (h.expect hopen .leftBrace).statements hview
  have hclose := hnext.closeBlock hview r.peek.span (r.expect .leftBrace).statements.1
  rw [block_eq, block_eq]
  refine ⟨hbody, ?_⟩
  dsimp only
  rw [hbody, h.peek hopen]
  exact hclose
termination_by 3 * r.rest.length + 1

theorem conditional {r r' : Reader} (h : Mirrors m r r') (start : Span)
    (hview : m.Sees (r.conditional start).2) :
    (r'.conditional (m.spans start)).1 = (r.conditional start).1.relabel m.id m.spans ∧
      Mirrors m (r.conditional start).2 (r'.conditional (m.spans start)).2 := by
  have hlen := length_condition_le r
  have hlen' := length_block_le r.condition.2
  have hbody : m.Sees r.condition.2.block.2 := hview.mono (length_conditional_le_block start r)
  obtain ⟨hid, hcondition, hhead⟩ := h.condition (hbody.mono hlen')
  obtain ⟨hblock, hafter⟩ := hhead.block (hbody.mono (length_block_le_statements _))
  obtain ⟨helse, helse'⟩ | ⟨elseStart, s, s', helse, helse', hs⟩ := hafter.eatElse hbody
  · simp only [conditional_eq, helse, helse']
    refine ⟨?_, hafter⟩
    simp [Statement.relabel, hid, hcondition, hblock, hafter.prevSpan, m.merge]
  · have hlt := length_lt_of_eatElse helse
    simp only [conditional_eq, helse] at hview
    obtain ⟨halternative, hend⟩ := hs.block (hview.mono (length_block_le_statements _))
    simp only [conditional_eq, helse, helse']
    refine ⟨?_, hend⟩
    simp [Statement.relabel, hid, hcondition, hblock, halternative, hend.prevSpan, m.merge]
termination_by 3 * r.rest.length + 2

theorem statements {r r' : Reader} (h : Mirrors m r r') (hview : m.Sees r.statements.2) :
    r'.statements.1 = Statement.relabelAll m.id m.spans r.statements.1 ∧
      Mirrors m r.statements.2 r'.statements.2 := by
  have hall : m.Sees r := hview.mono (statementsReads r).2
  obtain ⟨hrest, hrest'⟩ | ⟨t, rest, rest', hrest, hrest', hadvance⟩ := h.rest_cases hall
  · simp only [statements_eq r, statements_eq r', hrest, hrest']
    exact ⟨rfl, h⟩
  · have hlen : r.rest.length = rest.length + 1 := by simp [hrest]
    simp only [statements_eq r, hrest] at hview
    simp only [statements_eq r, statements_eq r', hrest, hrest', Embedding.token]
    cases hlead : StatementLead.of t.kind with
    | stop => exact ⟨rfl, h⟩
    | property name =>
      simp only [hlead] at hview
      have hmore := hview.mono (statementsReads _).2
      obtain ⟨hfirst, hnext⟩ := hadvance.declaration ⟨name, t.span⟩
        (hmore.mono (length_expect_le ..))
      have hle : (Reader.declaration ⟨name, t.span⟩ (r.advance t rest)).2.rest.length ≤
          rest.length := length_declaration_le _ _
      obtain ⟨hstatements, hend⟩ := hnext.statements hview
      exact ⟨congr (congrArg List.cons hfirst) hstatements, hend⟩
    | «variable» name =>
      simp only [hlead] at hview
      have hmore := hview.mono (statementsReads _).2
      obtain ⟨hfirst, hnext⟩ := hadvance.assignment ⟨name, t.span⟩
        (hmore.mono (length_expect_le ..))
      have hle : (Reader.assignment ⟨name, t.span⟩ (r.advance t rest)).2.rest.length ≤
          rest.length := length_assignment_le _ _
      obtain ⟨hstatements, hend⟩ := hnext.statements hview
      have hassign := congrArg Statement.assign hfirst
      exact ⟨congr (congrArg List.cons hassign) hstatements, hend⟩
    | conditional =>
      simp only [hlead] at hview
      obtain ⟨hfirst, hnext⟩ := hadvance.conditional t.span (hview.mono (statementsReads _).2)
      have hle : ((r.advance t rest).conditional t.span).2.rest.length ≤ rest.length :=
        (conditionalReads t.span (r.advance t rest)).2
      obtain ⟨hstatements, hend⟩ := hnext.statements hview
      exact ⟨congr (congrArg List.cons hfirst) hstatements, hend⟩
    | nothing =>
      simp only [hlead] at hview
      have hlt := length_toStatement_lt hrest (StatementLead.ne_eof hlead)
        (StatementLead.ne_close hlead)
      have hskip := (h.report t.span (.statementExpected t.kind)).toStatement
        (hview.mono (statementsReads _).2)
      exact hskip.statements hview
termination_by 3 * r.rest.length

end

end Mirrors

/-! ## Sheets -/

/-- Skipping a member of a sheet stops at the same token, if it stops where both texts agree. -/
theorem skipItem_faces {depth : Nat} {last last' : Option Token} {front : List Token}
    (hview : m.tail.length < (skipItem depth last (front ++ m.tail)).2.length ∨
      m.tail = [] ∧ m.more = []) :
    ∃ front', (skipItem depth last (front ++ m.tail)).2 = front' ++ m.tail ∧
      (skipItem depth last' (front.map m.token ++ m.more)).2 = front'.map m.token ++ m.more := by
  induction front generalizing depth last last' with
  | nil =>
    obtain hlt | ⟨htail, hmore⟩ := hview
    · exact absurd (length_skipItem_le depth last m.tail) (by simpa using hlt)
    · exact ⟨[], by simp [htail, skipItem], by simp [hmore, skipItem]⟩
  | cons t front ih =>
    simp only [List.cons_append, List.map_cons, skipItem, Embedding.token] at hview ⊢
    split at hview
    · exact ⟨t :: front, rfl, rfl⟩
    · exact ih hview
    · exact ih hview
    · exact ⟨front, rfl, rfl⟩
    · exact ⟨front, rfl, rfl⟩
    · exact ih hview

namespace Faces

theorem toItem (h : Faces m r r') (hview : m.Sees r.toItem) : Faces m r.toItem r'.toItem := by
  obtain ⟨front, hrest, hrest'⟩ := h.rest
  simp only [Embedding.Sees, Reader.toItem, hrest] at hview
  refine ⟨?_, h.nextId, h.diagnostics⟩
  simp only [Reader.toItem, hrest, hrest']
  exact skipItem_faces hview

/-- The members of a sheet are the same in both texts, if both end with the common tokens. -/
theorem items {r r' : Reader} (h : Faces m r r') (hend : m.tail = [] ∧ m.more = []) :
    r'.items.1 = r.items.1.map (Item.relabel m.id m.spans) ∧ Faces m r.items.2 r'.items.2 := by
  have hview (s : Reader) : m.Sees s := .inr hend
  obtain ⟨hrest, hrest'⟩ | ⟨t, rest, rest', hrest, hrest', hadvance⟩ := h.rest_cases (hview r)
  · simp only [items_eq r, items_eq r', hrest, hrest']
    exact ⟨rfl, h⟩
  · have hlen : r.rest.length = rest.length + 1 := by simp [hrest]
    simp only [items_eq r, items_eq r', hrest, hrest', Embedding.token]
    cases hlead : ItemLead.of t.kind with
    | stop => exact ⟨rfl, h⟩
    | «variable» name =>
      obtain ⟨hfirst, hnext⟩ := hadvance.assignment ⟨name, t.span⟩ (hview _)
      have hle : (Reader.assignment ⟨name, t.span⟩ (r.advance t rest)).2.rest.length ≤
          rest.length := length_assignment_le _ _
      obtain ⟨hitems, hlast⟩ := hnext.toFaces.items hend
      have hassign := congrArg Item.assign hfirst
      exact ⟨congr (congrArg List.cons hassign) hitems, hlast⟩
    | selector selector =>
      obtain ⟨hbody, hnext⟩ := hadvance.block (hview _)
      have hle : (r.advance t rest).block.2.rest.length ≤ rest.length := length_block_le _
      obtain ⟨hitems, hlast⟩ := hnext.toFaces.items hend
      refine ⟨?_, hlast⟩
      simp only [List.map_cons, Item.relabel, m.merge]
      rw [← hbody, ← hnext.prevSpan, ← hitems]
      rfl
    | nothing =>
      have hlt := length_toItem_lt hrest (ItemLead.ne_eof hlead)
      exact ((h.report t.span (.itemExpected t.kind)).toItem (hview _)).items hend
termination_by r.rest.length

end Faces

/-- A reader that has found neither a member of the sheet nor a problem has not moved. -/
theorem items_of_nothing (hitems : r.items.1 = []) (hdiagnostics : r.items.2.diagnostics = []) :
    r.items.2 = r := by
  rw [items_eq] at hitems hdiagnostics ⊢
  split at hitems
  · rfl
  · next t rest hrest =>
    cases hlead : ItemLead.of t.kind with
    | stop => simp
    | «variable» name => simp [hlead] at hitems
    | selector selector => simp [hlead] at hitems
    | nothing =>
      -- The token was reported, and problems are never taken back.
      simp only [hrest, hlead] at hdiagnostics
      have hle := (items_consumes (r.report t.span (.itemExpected t.kind)).toItem).found_le
      have hmet : (r.report t.span (.itemExpected t.kind)).toItem.found = r.found + 1 :=
        found_report ..
      have hnone := congrArg List.length hdiagnostics
      rw [hmet, found, found, hnone] at hle
      exact absurd hle (Nat.not_succ_le_zero _)

/-- A whole sheet is the same in both texts, if nothing else stands in them. -/
theorem Faces.sheet (h : Faces m r r') (hbefore : m.before = []) (hend : m.tail = [] ∧ m.more = [])
    (hne : r.rest ≠ []) :
    r'.sheet.1 = r.sheet.1.relabel m.id m.spans ∧
      r'.sheet.2.diagnostics = r.sheet.2.diagnostics.map m.diagnostic := by
  obtain ⟨hitems, hlast⟩ := h.items hend
  have hdiagnostics : r'.items.2.diagnostics = r.items.2.diagnostics.map m.diagnostic := by
    simpa [hbefore] using hlast.diagnostics
  refine ⟨by simp [Reader.sheet, Sheet.relabel, hitems], ?_⟩
  simp only [Reader.sheet, hitems, hdiagnostics, List.isEmpty_map]
  split
  · next hnothing =>
    -- Neither reader has moved, so that both report the token they started at.
    rw [Bool.and_eq_true, List.isEmpty_iff, List.isEmpty_iff] at hnothing
    have hstart := items_of_nothing hnothing.1 hnothing.2
    have hstart' := items_of_nothing (r := r') (by simp [hitems, hnothing.1])
      (by simp [hdiagnostics, hnothing.2])
    obtain ⟨hrest, -⟩ | ⟨t, rest, rest', hrest, hrest', -⟩ := h.rest_cases (.inr hend)
    · exact absurd hrest hne
    · have hpeek : r'.peek.span = m.spans r.peek.span := by
        rw [peek_of_rest hrest, peek_of_rest hrest', Embedding.token]
      rw [hstart, hstart', hpeek]
      simpa [hbefore] using (h.report r.peek.span .noItems).diagnostics
  · exact hdiagnostics

end Reader

end TypedStyle
