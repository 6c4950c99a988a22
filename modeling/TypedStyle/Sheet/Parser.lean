import TypedStyle.Sheet.Reader
import TypedStyle.Token.Lexeme

/-!
# Reading sheets

Tokens are read into a sheet by recursive descent. A mistake is reported and reading goes on, so
there is always a sheet. Every function takes the reader in front of what it reads and gives the
reader behind it.

Blocks nest, so reading one is bounded by what is left to read. `Reads` carries that bound, and
`block`, `statements` and `conditional` are the readings without it.
-/

namespace TypedStyle.Reader

/-! ## Expressions -/

def isHexDigit (c : Char) : Bool :=
  c.isDigit || ('a' ≤ c && c ≤ 'f') || ('A' ≤ c && c ≤ 'F')

/-- Whether the text after a hash is a colour: six hexadecimal digits. -/
def isColor (digits : String) : Bool :=
  digits.length == 6 && digits.toList.all isHexDigit

def literal (r : Reader) (span : Span) (value : Literal) : Expr × Reader :=
  let (id, r) := r.number
  (.literal id span value, r)

def reference (r : Reader) (span : Span) (name : String) : Expr × Reader :=
  let (id, r) := r.number
  (.reference id span name, r)

/-- A new operation on two expressions that have been read. -/
def operation (r : Reader) (op : Operator) (lhs rhs : Expr) : Expr × Reader :=
  let (id, r) := r.number
  (.operation id (lhs.span.merge rhs.span) op lhs rhs, r)

/-- Reads one value. Where there is none, zero takes its place; a mark or the end of the source
is left where it is, any other token is passed over. -/
def value (r : Reader) : Expr × Reader :=
  let t := r.peek
  match t.kind with
  | .punct _ | .eof => (r.report t.span (.valueExpected t.kind)).literal t.span (.scalar 0)
  | .pixel n => r.bump.literal t.span (.pixel n)
  | .percentage n => r.bump.literal t.span (.percentage n)
  | .scalar n => r.bump.literal t.span (.scalar n)
  | .bool b => r.bump.literal t.span (.bool b)
  | .capital name => r.bump.reference t.span name
  | .hash digits =>
    let r := if isColor digits then r.bump else r.bump.reportPrev (.badColor digits)
    r.literal t.span (.color ("#" ++ digits))
  | .lower _ | .dotted _ | .keyword _ =>
    (r.bump.reportPrev (.valueExpected t.kind)).literal t.span (.scalar 0)

@[simp]
theorem rest_literal (r : Reader) (span : Span) (v : Literal) :
    (r.literal span v).2.rest = r.rest := rfl

@[simp]
theorem rest_reference (r : Reader) (span : Span) (name : String) :
    (r.reference span name).2.rest = r.rest := rfl

@[simp]
theorem rest_operation (r : Reader) (op : Operator) (lhs rhs : Expr) :
    (r.operation op lhs rhs).2.rest = r.rest := rfl

theorem length_value_le (r : Reader) : r.value.2.rest.length ≤ r.rest.length := by
  have hbump := length_bump_le r
  simp only [value]
  split
  case h_8 => split <;> simpa using hbump
  all_goals simp [hbump]

/-- Reads the factors that follow a first one, `(* value)*`. -/
def factors (lhs : Expr) (r : Reader) : Expr × Reader :=
  match h : r.eat .star with
  | none => (lhs, r)
  | some r' =>
    have := length_lt_of_eat h
    let rhs := r'.value
    let product := rhs.2.operation .multiply lhs rhs.1
    factors product.1 product.2
termination_by r.rest.length
decreasing_by exact Nat.lt_of_le_of_lt (length_value_le r') this

def product (r : Reader) : Expr × Reader :=
  let first := r.value
  factors first.1 first.2

/-- Moves past a plus or a minus. -/
def eatSum (r : Reader) : Option (Operator × Reader) :=
  match r.eat .plus with
  | some r => some (.add, r)
  | none => (r.eat .minus).map fun r => (.subtract, r)

theorem length_factors_le (lhs : Expr) (r : Reader) :
    (factors lhs r).2.rest.length ≤ r.rest.length := by
  fun_induction factors lhs r with
  | case1 => exact Nat.le_refl _
  | case2 lhs r r' _ hlt rhs product ih =>
    exact Nat.le_trans ih (Nat.le_of_lt (Nat.lt_of_le_of_lt (length_value_le r') hlt))

theorem length_product_le (r : Reader) : r.product.2.rest.length ≤ r.rest.length :=
  Nat.le_trans (length_factors_le ..) (length_value_le r)

theorem length_lt_of_eatSum {r s : Reader} {op : Operator} (h : r.eatSum = some (op, s)) :
    s.rest.length < r.rest.length := by
  unfold eatSum at h
  split at h
  · next hplus =>
    simp only [Option.some.injEq, Prod.mk.injEq] at h
    exact h.2 ▸ length_lt_of_eat hplus
  · simp only [Option.map_eq_some_iff, Prod.mk.injEq] at h
    obtain ⟨s', hminus, -, rfl⟩ := h
    exact length_lt_of_eat hminus

/-- Reads the terms that follow a first one, `((+|-) product)*`. -/
def terms (lhs : Expr) (r : Reader) : Expr × Reader :=
  match h : r.eatSum with
  | none => (lhs, r)
  | some (op, r') =>
    have := length_lt_of_eatSum h
    let rhs := r'.product
    let sum := rhs.2.operation op lhs rhs.1
    terms sum.1 sum.2
termination_by r.rest.length
decreasing_by exact Nat.lt_of_le_of_lt (length_product_le r') this

/-- Reads an expression, `product ((+|-) product)*`. -/
def expr (r : Reader) : Expr × Reader :=
  let first := r.product
  terms first.1 first.2

theorem length_terms_le (lhs : Expr) (r : Reader) :
    (terms lhs r).2.rest.length ≤ r.rest.length := by
  fun_induction terms lhs r with
  | case1 => exact Nat.le_refl _
  | case2 lhs r op r' _ hlt rhs sum ih =>
    exact Nat.le_trans ih (Nat.le_of_lt (Nat.lt_of_le_of_lt (length_product_le r') hlt))

theorem length_expr_le (r : Reader) : r.expr.2.rest.length ≤ r.rest.length :=
  Nat.le_trans (length_terms_le ..) (length_product_le r)

def exprs : Nat → Reader → List Expr × Reader
  | 0, r => ([], r)
  | n + 1, r =>
    let first := r.expr
    let more := exprs n first.2
    (first.1 :: more.1, more.2)

/-! ## Statements -/

/-- Reads an assignment whose name has just been read: `:= expr ;`. -/
def assignment (name : Ident) (r : Reader) : Assignment × Reader :=
  let value := (r.expect .assign).expr
  let r := value.2.expect .semicolon
  ({ name, value := value.1, span := name.span.merge r.prevSpan }, r)

/-- Reads a declaration whose property has just been read: `: expr ;`. -/
def declaration (property : Ident) (r : Reader) : Statement × Reader :=
  let value := (r.expect .colon).expr
  let r := value.2.expect .semicolon
  (.declare property value.1 (property.span.merge r.prevSpan), r)

/-- Reads the head of a conditional whose keyword has just been read: `[ value ]`. -/
def condition (r : Reader) : (NodeId × Expr) × Reader :=
  let (id, r) := r.number
  let condition := (r.expect .leftBracket).value
  ((id, condition.1), condition.2.expect .rightBracket)

/-- Moves past the keyword `else`, and says where it stands. -/
def eatElse (r : Reader) : Option (Span × Reader) :=
  match r.rest with
  | t :: rest => if t.kind = .keyword .elseWord then some (t.span, r.advance t rest) else none
  | [] => none

/-- Moves past the brace that closes a block whose opening brace is at `opening`, and reports a
block without statements. -/
def closeBlock (opening : Span) (body : List Statement) (r : Reader) : Reader :=
  let r := r.expect .rightBrace
  if body.isEmpty then r.report (opening.merge r.prevSpan) .emptyBlock else r

theorem length_assignment_le (name : Ident) (r : Reader) :
    (assignment name r).2.rest.length ≤ r.rest.length :=
  Nat.le_trans (length_expect_le ..) (Nat.le_trans (length_expr_le _) (length_expect_le ..))

theorem length_declaration_le (property : Ident) (r : Reader) :
    (declaration property r).2.rest.length ≤ r.rest.length :=
  Nat.le_trans (length_expect_le ..) (Nat.le_trans (length_expr_le _) (length_expect_le ..))

theorem length_condition_le (r : Reader) : r.condition.2.rest.length ≤ r.rest.length :=
  Nat.le_trans (length_expect_le ..) (Nat.le_trans (length_value_le _) (length_expect_le ..))

theorem length_lt_of_eatElse {r s : Reader} {span : Span} (h : r.eatElse = some (span, s)) :
    s.rest.length < r.rest.length := by
  unfold eatElse at h
  split at h
  · next hrest =>
    split at h
    · simp only [Option.some.injEq, Prod.mk.injEq] at h
      simp [← h.2, hrest]
    · simp at h
  · simp at h

theorem length_closeBlock_le (opening : Span) (body : List Statement) (r : Reader) :
    (closeBlock opening body r).rest.length ≤ r.rest.length := by
  unfold closeBlock
  split <;> exact length_expect_le ..

/-- What a token starts inside a block. -/
inductive StatementLead where
  | stop
  | property (name : String)
  | variable (name : String)
  | conditional
  | nothing

/-- What a token of the given kind starts inside a block. -/
def StatementLead.of : Token.Kind → StatementLead
  | .eof => .stop
  | .punct mark => if mark = .rightBrace then .stop else .nothing
  | .lower name => .property name
  | .capital name => .variable name
  | .keyword .ifWord => .conditional
  | _ => .nothing

theorem StatementLead.ne_eof {kind : Token.Kind} (h : of kind = .nothing) : kind ≠ .eof := by
  rintro rfl
  simp [of] at h

theorem StatementLead.ne_close {kind : Token.Kind} (h : of kind = .nothing) :
    kind ≠ .punct .rightBrace := by
  rintro rfl
  simp [of] at h

theorem length_stray_statement_lt {r : Reader} {t : Token} {rest : List Token}
    (hrest : r.rest = t :: rest) (hlead : StatementLead.of t.kind = .nothing) :
    (r.report t.span (.statementExpected t.kind)).toStatement.rest.length < r.rest.length :=
  length_toStatement_lt hrest (StatementLead.ne_eof hlead) (StatementLead.ne_close hlead)

/-- What is read from `r`: a value, and the reader behind it, which has no more left to read. -/
abbrev Reads (α : Type) (r : Reader) : Type :=
  { x : α × Reader // x.2.rest.length ≤ r.rest.length }

mutual

/-- Reads a block, `{ statement+ }`, with the bound on what is left. -/
def blockReads (r : Reader) : Reads (List Statement) r :=
  let opened := r.expect .leftBrace
  have hopen : opened.rest.length ≤ r.rest.length := length_expect_le r .leftBrace
  let body := statementsReads opened
  ⟨(body.1.1, closeBlock r.peek.span body.1.1 body.1.2),
    Nat.le_trans (length_closeBlock_le ..) (Nat.le_trans body.2 hopen)⟩
termination_by 3 * r.rest.length + 1
decreasing_by
  have := length_expect_le r .leftBrace
  omega

/-- Reads the rest of a conditional whose keyword at `start` has just been read, with the bound on
what is left. -/
def conditionalReads (start : Span) (r : Reader) : Reads Statement r :=
  let head := r.condition
  have hhead : head.2.rest.length ≤ r.rest.length := length_condition_le r
  let body := blockReads head.2
  have hbody := body.2
  match helse : body.1.2.eatElse with
  | none =>
    ⟨(.ifThen head.1.1 head.1.2 body.1.1 (start.merge body.1.2.prevSpan), body.1.2),
      Nat.le_trans hbody hhead⟩
  | some (elseStart, r') =>
    have hlt : r'.rest.length < body.1.2.rest.length := length_lt_of_eatElse helse
    let alternative := blockReads r'
    ⟨(.ifElse head.1.1 head.1.2 body.1.1 alternative.1.1
        (elseStart.merge alternative.1.2.prevSpan) (start.merge alternative.1.2.prevSpan),
        alternative.1.2),
      Nat.le_trans alternative.2 (Nat.le_trans (Nat.le_of_lt hlt) (Nat.le_trans hbody hhead))⟩
termination_by 3 * r.rest.length + 2
decreasing_by
  · have := length_condition_le r
    omega
  · omega

/-- Reads statements up to the brace that closes their block, with the bound on what is left. -/
def statementsReads (r : Reader) : Reads (List Statement) r :=
  match hrest : r.rest with
  | [] => ⟨([], r), Nat.le_refl _⟩
  | t :: rest =>
    have hlen : r.rest.length = rest.length + 1 := by simp [hrest]
    have hle : rest.length ≤ r.rest.length := by omega
    let after := r.advance t rest
    match hlead : StatementLead.of t.kind with
    | .stop => ⟨([], r), Nat.le_refl _⟩
    | .property name =>
      let first := declaration ⟨name, t.span⟩ after
      have hfirst : first.2.rest.length ≤ rest.length := length_declaration_le _ after
      let more := statementsReads first.2
      ⟨(first.1 :: more.1.1, more.1.2), Nat.le_trans more.2 (Nat.le_trans hfirst hle)⟩
    | .variable name =>
      let first := assignment ⟨name, t.span⟩ after
      have hfirst : first.2.rest.length ≤ rest.length := length_assignment_le _ after
      let more := statementsReads first.2
      ⟨(.assign first.1 :: more.1.1, more.1.2), Nat.le_trans more.2 (Nat.le_trans hfirst hle)⟩
    | .conditional =>
      let first := conditionalReads t.span after
      have hfirst : first.1.2.rest.length ≤ rest.length := first.2
      let more := statementsReads first.1.2
      ⟨(first.1.1 :: more.1.1, more.1.2), Nat.le_trans more.2 (Nat.le_trans hfirst hle)⟩
    | .nothing =>
      let skipped := (r.report t.span (.statementExpected t.kind)).toStatement
      have hskip : skipped.rest.length < r.rest.length :=
        length_toStatement_lt hrest (StatementLead.ne_eof hlead) (StatementLead.ne_close hlead)
      let more := statementsReads skipped
      ⟨more.1, Nat.le_trans more.2 (Nat.le_of_lt hskip)⟩
termination_by 3 * r.rest.length
decreasing_by
  · show 3 * first.2.rest.length < _
    omega
  · show 3 * first.2.rest.length < _
    omega
  · show 3 * rest.length + 2 < _
    omega
  · show 3 * first.1.2.rest.length < _
    omega
  · show 3 * skipped.rest.length < _
    omega

end

def block (r : Reader) : List Statement × Reader :=
  (blockReads r).1

/-- Reads the rest of a conditional whose keyword at `start` has just been read:
`[ value ] block (else block)?`. -/
def conditional (start : Span) (r : Reader) : Statement × Reader :=
  (conditionalReads start r).1

/-- Reads statements up to the brace that closes their block. -/
def statements (r : Reader) : List Statement × Reader :=
  (statementsReads r).1

theorem block_eq (r : Reader) :
    r.block =
      let body := (r.expect .leftBrace).statements
      (body.1, closeBlock r.peek.span body.1 body.2) := by
  rw [block, blockReads]
  rfl

theorem conditional_eq (start : Span) (r : Reader) :
    r.conditional start =
      let head := r.condition
      let body := head.2.block
      match body.2.eatElse with
      | none =>
        (.ifThen head.1.1 head.1.2 body.1 (start.merge body.2.prevSpan), body.2)
      | some (elseStart, r') =>
        let alternative := r'.block
        (.ifElse head.1.1 head.1.2 body.1 alternative.1
          (elseStart.merge alternative.2.prevSpan) (start.merge alternative.2.prevSpan),
          alternative.2) := by
  rw [conditional, conditionalReads]
  simp only [block]
  split <;> simp_all

theorem statements_eq (r : Reader) :
    r.statements =
      match r.rest with
      | [] => ([], r)
      | t :: rest =>
        let after := r.advance t rest
        match StatementLead.of t.kind with
        | .stop => ([], r)
        | .property name =>
          let first := declaration ⟨name, t.span⟩ after
          let more := first.2.statements
          (first.1 :: more.1, more.2)
        | .variable name =>
          let first := assignment ⟨name, t.span⟩ after
          let more := first.2.statements
          (.assign first.1 :: more.1, more.2)
        | .conditional =>
          let first := after.conditional t.span
          let more := first.2.statements
          (first.1 :: more.1, more.2)
        | .nothing => (r.report t.span (.statementExpected t.kind)).toStatement.statements := by
  rw [statements, statementsReads]
  simp only [statements, conditional]
  split
  · simp_all
  · split <;> simp_all

theorem length_block_le (r : Reader) : r.block.2.rest.length ≤ r.rest.length :=
  (blockReads r).2

/-! ## Sheets -/

/-- What a token starts outside of blocks. -/
inductive ItemLead where
  | stop
  | variable (name : String)
  | selector (selector : Selector)
  /-- It starts no member of a sheet. -/
  | nothing

/-- What a token of the given kind starts outside of blocks. -/
def ItemLead.of : Token.Kind → ItemLead
  | .eof => .stop
  | .capital name => .variable name
  | .lower name => .selector (.tag name)
  | .dotted name => .selector (.className name)
  | .hash name => .selector (.id name)
  | _ => .nothing

theorem ItemLead.ne_eof {kind : Token.Kind} (h : of kind = .nothing) : kind ≠ .eof := by
  rintro rfl
  simp [of] at h

theorem length_stray_item_lt {r : Reader} {t : Token} {rest : List Token}
    (hrest : r.rest = t :: rest) (hlead : ItemLead.of t.kind = .nothing) :
    (r.report t.span (.itemExpected t.kind)).toItem.rest.length < r.rest.length :=
  length_toItem_lt hrest (ItemLead.ne_eof hlead)

/-- Reads the members of a sheet up to the end of the source. -/
def items (r : Reader) : List Item × Reader :=
  match hrest : r.rest with
  | [] => ([], r)
  | t :: rest =>
    have hlen : r.rest.length = rest.length + 1 := by simp [hrest]
    let after := r.advance t rest
    match hlead : ItemLead.of t.kind with
    | .stop => ([], r)
    | .variable name =>
      let first := assignment ⟨name, t.span⟩ after
      have hfirst : first.2.rest.length ≤ rest.length := length_assignment_le _ after
      let more := items first.2
      (.assign first.1 :: more.1, more.2)
    | .selector selector =>
      let body := after.block
      have hbody : body.2.rest.length ≤ rest.length := length_block_le after
      let more := items body.2
      (.rule { selector, body := body.1, span := t.span.merge body.2.prevSpan } :: more.1, more.2)
    | .nothing =>
      let skipped := (r.report t.span (.itemExpected t.kind)).toItem
      have hskip : skipped.rest.length < r.rest.length :=
        length_toItem_lt hrest (ItemLead.ne_eof hlead)
      items skipped
termination_by r.rest.length
decreasing_by
  · show first.2.rest.length < _
    omega
  · show body.2.rest.length < _
    omega
  · exact hskip

/-- Reads a whole sheet. A sheet without members is reported when nothing else was. -/
def sheet (r : Reader) : Sheet × Reader :=
  let found := r.items
  let r := found.2
  (⟨found.1⟩,
    if found.1.isEmpty && r.diagnostics.isEmpty then r.report r.peek.span .noItems else r)

end TypedStyle.Reader

namespace TypedStyle

/-- A sheet and the problems met in reading it. -/
structure Parsed where
  /-- The sheet, as far as it could be read. -/
  sheet : Sheet
  /-- The problems: those of the text first, then those of the tokens. -/
  diagnostics : List Diagnostic

def Sheet.parse (source : String) : Parsed :=
  let scan := Token.scan source.toList
  let read := (Reader.start scan.tokens scan.diagnostics).sheet
  { sheet := read.1, diagnostics := read.2.diagnostics }

end TypedStyle
