import TypedStyle.Proofs.ParserSoundness

/-!
# Reading by position

A reader holds what is left of the tokens, so it cannot look outside of them, and its functions
recurse on what is left, so they end. A parser can as well keep the whole list and a position in
it, and go on as long as the token in view tells it to. Then nothing of this is clear: such a
parser may ask for a token that the list does not have, step over the end of the source, or go
round in circles on a token that every function leaves where it is.

`Cursor` is that parser. Its walks stop with a `Fault` where one of these happens; a loop or a
nested block costs one of the steps that a walk is granted. `Follows` says that a walk goes as a
reader does: it stops without a fault, with the same result, in front of the same tokens. This
module has the parser and the walks that read single tokens.
-/

namespace TypedStyle

/-- The position of the first end of the source among tokens, or behind all of them. -/
def Token.firstEnd (tokens : List Token) : Nat :=
  tokens.findIdx fun t => t.kind = .eof

theorem Token.firstEnd_append {seen : List Token} (h : ∀ t ∈ seen, t.kind ≠ .eof)
    (rest : List Token) : firstEnd (seen ++ rest) = firstEnd rest + seen.length := by
  have hseen : seen.findIdx (fun t => t.kind = .eof) = seen.length := by
    rw [List.findIdx_eq_length]
    simpa using h
  rw [firstEnd, List.findIdx_append, hseen, if_neg (Nat.lt_irrefl _), firstEnd]

/-- A position in a list of tokens, with what has been made and found on the way. -/
structure Cursor where
  tokens : List Token
  /-- How many of them have been read. -/
  pos : Nat
  nextId : Nat
  /-- The problems met so far, in order. -/
  diagnostics : List Diagnostic

namespace Cursor

variable {r s : Reader} {mark : Punct}

/-- Why a walk stops before its end. -/
inductive Fault where
  | exhausted
  /-- The token before the cursor is not in the list. -/
  | outside
  /-- The cursor would move past the first end of the source. -/
  | passed
deriving DecidableEq

/-- Moves of a cursor that give a result or a fault. -/
abbrev Walk := StateT Cursor (Except Fault)

/-- The cursor in front of some tokens, with the problems found before. -/
def start (tokens : List Token) (diagnostics : List Diagnostic) : Cursor :=
  { tokens, pos := 0, nextId := 0, diagnostics }

/-! ## Tokens -/

/-- The token in view: the one at the position, behind the list the last one, and without any
tokens the end of an empty source. -/
def peek : Walk Token := do
  let c ← get
  return (c.tokens[c.pos]?.or c.tokens.getLast?).getD ⟨.eof, .zero⟩

/-- Takes the token in view, and moves past it unless it is the end of the source. -/
def bump : Walk Token := do
  let t ← peek
  let c ← get
  if t.kind = .eof then return t
  else if c.pos < Token.firstEnd c.tokens then
    set { c with pos := c.pos + 1 }
    return t
  else throw .passed

/-- The span of the token before the cursor, or of the token in view at the first position. -/
def prevSpan : Walk Span := do
  let c ← get
  if c.pos = 0 then return (← peek).span
  else match c.tokens[c.pos - 1]? with
    | some t => return t.span
    | none => throw .outside

def report (span : Span) (problem : Problem) : Walk Unit :=
  modify fun c => { c with diagnostics := c.diagnostics ++ [.ofText span problem] }

/-- Notes a problem with the token in view. -/
def reportHere (problem : Problem) : Walk Unit := do
  report (← peek).span problem

/-- Notes a problem with the token before the cursor. -/
def reportPrev (problem : Problem) : Walk Unit := do
  report (← prevSpan) problem

/-- The number of a new node. -/
def fresh : Walk NodeId := do
  let c ← get
  set { c with nextId := c.nextId + 1 }
  return ⟨c.nextId⟩

/-- Whether the token in view is of the given kind. -/
def sees (kind : Token.Kind) : Walk Bool := do
  return (← peek).kind = kind

/-- Moves past the given punctuation mark, if it is in view. -/
def eat (mark : Punct) : Walk Bool := do
  if ← sees (.punct mark) then
    let _ ← bump
    return true
  else return false

/-- Moves past the given punctuation mark, or reports that it is missing. Says where it stands or
should stand. -/
def expect (mark : Punct) : Walk Span := do
  if ← eat mark then prevSpan
  else
    let t ← peek
    reportHere (.punctExpected mark t.kind)
    return t.span

/-- Moves past the given keyword, or reports that it is missing. -/
def keyword (word : Keyword) : Walk Unit := do
  if ← sees (.keyword word) then
    let _ ← bump
  else reportHere (.other ("expected `" ++ word.text ++ "`"))

def property : Walk Ident := do
  match (← bump).kind with
  | .lower name => return ⟨name, ← prevSpan⟩
  | _ =>
    reportPrev (.other "expected a property name")
    return ⟨"_", ← prevSpan⟩

def variableName : Walk Ident := do
  match (← bump).kind with
  | .capital name => return ⟨name, ← prevSpan⟩
  | _ =>
    reportPrev (.other "expected a variable name")
    return ⟨"_", ← prevSpan⟩

def selector : Walk Selector := do
  match (← bump).kind with
  | .lower name => return .tag name
  | .dotted name => return .className name
  | .hash name => return .id name
  | _ =>
    reportPrev (.other "expected a selector")
    return .tag "_"

/-! ## Expressions -/

def value : Walk Expr := do
  match (← peek).kind with
  | .punct mark =>
    reportHere (.valueExpected (.punct mark))
    return .literal (← fresh) (← peek).span (.scalar 0)
  | .eof =>
    reportHere (.valueExpected .eof)
    return .literal (← fresh) (← peek).span (.scalar 0)
  | _ =>
    let t ← bump
    match t.kind with
    | .pixel n => return .literal (← fresh) t.span (.pixel n)
    | .percentage n => return .literal (← fresh) t.span (.percentage n)
    | .scalar n => return .literal (← fresh) t.span (.scalar n)
    | .bool b => return .literal (← fresh) t.span (.bool b)
    | .capital name => return .reference (← fresh) t.span name
    | .hash digits =>
      color digits
      return .literal (← fresh) t.span (.color ("#" ++ digits))
    | kind =>
      reportPrev (.valueExpected kind)
      return .literal (← fresh) t.span (.scalar 0)
where
  color (digits : String) : Walk Unit :=
    if Reader.isColor digits then return () else reportPrev (.badColor digits)

/-- A new operation on two expressions that have been read. -/
def operation (op : Operator) (lhs rhs : Expr) : Walk Expr := do
  return .operation (← fresh) (lhs.span.merge rhs.span) op lhs rhs

/-- Reads the factors that follow a first one. -/
def factors : Nat → Expr → Walk Expr
  | 0, _ => throw .exhausted
  | steps + 1, lhs => do
    if ← eat .star then
      let rhs ← value
      factors steps (← operation .multiply lhs rhs)
    else return lhs

def product (steps : Nat) : Walk Expr := do
  factors steps (← value)

/-- Moves past a plus or a minus. -/
def eatSum : Walk (Option Operator) := do
  if ← eat .plus then return some .add
  else if ← eat .minus then return some .subtract
  else return none

/-- Reads the terms that follow a first one. -/
def terms : Nat → Expr → Walk Expr
  | 0, _ => throw .exhausted
  | steps + 1, lhs => do
    match ← eatSum with
    | some op =>
      let rhs ← product steps
      terms steps (← operation op lhs rhs)
    | none => return lhs

def expr (steps : Nat) : Walk Expr := do
  terms steps (← product steps)

def exprs (steps : Nat) : Nat → Walk (List Expr)
  | 0 => return []
  | n + 1 => do
    let first ← expr steps
    return first :: (← exprs steps n)

/-! ## Recovery -/

/-- Moves past a braced part, `depth` braces of which are open. -/
def skipBraced : Nat → Nat → Walk Unit
  | 0, _ => throw .exhausted
  | steps + 1, depth => do
    if ← sees .eof then return ()
    else match (← bump).kind with
      | .punct .leftBrace => skipBraced steps (depth + 1)
      | .punct .rightBrace => if depth - 1 = 0 then return () else skipBraced steps (depth - 1)
      | _ => skipBraced steps depth

/-- Moves on to where the next statement may start. -/
def toStatement : Nat → Walk Unit
  | 0 => throw .exhausted
  | steps + 1 => do
    if (← sees .eof) || (← sees (.punct .rightBrace)) then return ()
    else if ← sees (.punct .leftBrace) then
      skipBraced steps 0
      toStatement steps
    else if (← bump).kind = .punct .semicolon then return ()
    else toStatement steps

/-- Moves on to where the next member of the sheet may start. -/
def toItem : Nat → Walk Unit
  | 0 => throw .exhausted
  | steps + 1 => do
    if ← sees .eof then return ()
    else if ← sees (.punct .leftBrace) then skipBraced steps 0
    else match (← bump).kind with
      | .punct .semicolon | .punct .rightBrace => return ()
      | _ => toItem steps

/-! ## Statements -/

def declaration (steps : Nat) : Walk Statement := do
  let first ← peek
  let property ← property
  let _ ← expect .colon
  let value ← expr steps
  let _ ← expect .semicolon
  return .declare property value (first.span.merge (← prevSpan))

def assignment (steps : Nat) : Walk Assignment := do
  let first ← peek
  let name ← variableName
  let _ ← expect .assign
  let value ← expr steps
  let _ ← expect .semicolon
  return ⟨name, value, first.span.merge (← prevSpan)⟩

def reportEmpty (opening : Span) (body : List Statement) : Walk Unit := do
  if body.isEmpty then report (opening.merge (← prevSpan)) .emptyBlock
  else return ()

mutual

def block : Nat → Walk (List Statement)
  | 0 => throw .exhausted
  | steps + 1 => do
    let first ← peek
    let _ ← expect .leftBrace
    let body ← statements steps
    let _ ← expect .rightBrace
    reportEmpty first.span body
    return body

/-- Reads statements up to the brace that closes their block. -/
def statements : Nat → Walk (List Statement)
  | 0 => throw .exhausted
  | steps + 1 => do
    if (← sees (.punct .rightBrace)) || (← sees .eof) then return []
    else match ← statement steps with
      | some s => return s :: (← statements steps)
      | none =>
        toStatement steps
        statements steps

def statement : Nat → Walk (Option Statement)
  | 0 => throw .exhausted
  | steps + 1 => do
    match (← peek).kind with
    | .lower _ => return some (← declaration steps)
    | .capital _ => return some (.assign (← assignment steps))
    | .keyword .ifWord => return some (← conditional steps)
    | kind =>
      reportHere (.statementExpected kind)
      return none

def conditional : Nat → Walk Statement
  | 0 => throw .exhausted
  | steps + 1 => do
    let first ← peek
    keyword .ifWord
    let id ← fresh
    let _ ← expect .leftBracket
    let condition ← value
    let _ ← expect .rightBracket
    let body ← block steps
    if ← sees (.keyword .elseWord) then
      let elseToken ← bump
      let alternative ← block steps
      let elseSpan := elseToken.span.merge (← prevSpan)
      return .ifElse id condition body alternative elseSpan (first.span.merge (← prevSpan))
    else return .ifThen id condition body (first.span.merge (← prevSpan))

end

/-! ## Sheets -/

def rule (steps : Nat) : Walk Rule := do
  let first ← peek
  let selector ← selector
  let body ← block steps
  return ⟨selector, body, first.span.merge (← prevSpan)⟩

/-- Reads a member of a sheet, if one starts here. -/
def item (steps : Nat) : Walk (Option Item) := do
  match (← peek).kind with
  | .capital _ => return some (.assign (← assignment steps))
  | .lower _ | .dotted _ | .hash _ => return some (.rule (← rule steps))
  | kind =>
    reportHere (.itemExpected kind)
    return none

/-- Reads the members of a sheet. -/
def items : Nat → Walk (List Item)
  | 0 => throw .exhausted
  | steps + 1 => do
    if ← sees .eof then return []
    else match ← item steps with
      | some i => return i :: (← items steps)
      | none =>
        toItem steps
        items steps

/-- Reports a sheet without members, unless something else was reported. -/
def reportNoItems (found : List Item) : Walk Unit := do
  if found.isEmpty && (← get).diagnostics.isEmpty then reportHere .noItems
  else return ()

def sheet (steps : Nat) : Walk Sheet := do
  let found ← items steps
  reportNoItems found
  return ⟨found⟩

/-! ## Cursors and readers -/

/-- A cursor stands in the tokens `ts` where a reader does: what the reader has left comes behind
the position, and no end of the source before it. -/
structure Views (ts : List Token) (c : Cursor) (r : Reader) : Prop where
  tokens : c.tokens = ts
  nextId : c.nextId = r.nextId
  diagnostics : c.diagnostics = r.diagnostics
  overrun : r.overrun = false
  stray : r.stray = false
  split : ∃ seen, ts = seen ++ r.rest ∧ c.pos = seen.length ∧ r.last = seen.getLast? ∧
    ∀ t ∈ seen, t.kind ≠ .eof
  ended : ts = [] ∨ ∃ t ∈ ts, t.kind = .eof

/-- From every cursor that views `r`, the walk gives `a` and a cursor that views `s`. -/
def Follows {α : Type} (ts : List Token) (m : Walk α) (r : Reader) (a : α) (s : Reader) : Prop :=
  ∀ c, Views ts c r → ∃ c', m.run c = .ok (a, c') ∧ Views ts c' s

variable {ts : List Token} {α β : Type}

namespace Views

variable {c : Cursor} {r : Reader}

theorem eq_nil (h : Views ts c r) (hrest : r.rest = []) : ts = [] := by
  obtain ⟨seen, rfl, -, -, hseen⟩ := h.split
  rcases h.ended with hnil | ⟨t, ht, hend⟩
  · exact hnil
  · rw [hrest, List.append_nil] at ht
    exact absurd hend (hseen t ht)

theorem last_eq_none (h : Views ts c r) (hrest : r.rest = []) : r.last = none := by
  obtain ⟨seen, hts, -, hlast, -⟩ := h.split
  rw [h.eq_nil hrest] at hts
  rw [hlast, (List.append_eq_nil_iff.1 hts.symm).1, List.getLast?_nil]

theorem peek_kind_of_nil (h : Views ts c r) (hrest : r.rest = []) : r.peek.kind = .eof := by
  simp [Reader.peek, hrest, h.last_eq_none hrest]

theorem exists_rest (h : Views ts c r) (hkind : r.peek.kind ≠ .eof) :
    ∃ rest, r.rest = r.peek :: rest := by
  cases hrest : r.rest with
  | nil => exact absurd (h.peek_kind_of_nil hrest) hkind
  | cons t rest => exact ⟨rest, by rw [Reader.peek_of_rest hrest]⟩

theorem getElem?_pos (h : Views ts c r) : ts[c.pos]? = r.rest.head? := by
  obtain ⟨seen, rfl, hpos, -, -⟩ := h.split
  rw [hpos, List.getElem?_append_right (Nat.le_refl _), Nat.sub_self, List.head?_eq_getElem?]

theorem advance (h : Views ts c r) {t : Token} {rest : List Token} (hrest : r.rest = t :: rest)
    (hkind : t.kind ≠ .eof) :
    c.pos < Token.firstEnd ts ∧ Views ts { c with pos := c.pos + 1 } (r.advance t rest) := by
  obtain ⟨seen, hts, hpos, hlast, hseen⟩ := h.split
  have hts' : ts = seen ++ [t] ++ rest := by simp [hts, hrest]
  have hread : ∀ t' ∈ seen ++ [t], t'.kind ≠ .eof := by
    intro t' ht'
    rcases List.mem_append.1 ht' with ht' | ht'
    · exact hseen t' ht'
    · rwa [List.mem_singleton.1 ht']
  constructor
  · rw [hts', Token.firstEnd_append hread, hpos, List.length_append, List.length_singleton]
    omega
  · exact { h with split := ⟨seen ++ [t], hts', by simp [hpos], by simp [Reader.advance], hread⟩ }

end Views

namespace Follows

theorem pure (a : α) (r : Reader) : Follows ts (pure a) r a r :=
  fun c h => ⟨c, rfl, h⟩

theorem bind {m : Walk α} {f : α → Walk β} {r s t : Reader} {a : α} {b : β}
    (hm : Follows ts m r a s) (hf : Follows ts (f a) s b t) : Follows ts (m >>= f) r b t := by
  intro c hc
  obtain ⟨c', hrun, hc'⟩ := hm c hc
  obtain ⟨c'', hrun', hc''⟩ := hf c' hc'
  refine ⟨c'', ?_, hc''⟩
  rw [StateT.run_bind, hrun]
  exact hrun'

theorem of_views {m : Walk α} {r s : Reader} {a : α}
    (h : ∀ c, Views ts c r → Follows ts m r a s) : Follows ts m r a s :=
  fun c hc => h c hc c hc

end Follows

/-! ## Walks over single tokens -/

theorem follows_peek (r : Reader) : Follows ts peek r r.peek r := by
  intro c hc
  refine ⟨c, ?_, hc⟩
  have hview : (c.tokens[c.pos]?.or c.tokens.getLast?).getD ⟨.eof, .zero⟩ = r.peek := by
    rw [hc.tokens, hc.getElem?_pos]
    cases hrest : r.rest with
    | nil => simp [Reader.peek, hrest, hc.last_eq_none hrest, hc.eq_nil hrest]
    | cons t rest => simp [Reader.peek, hrest]
  exact congrArg (fun t => Except.ok (t, c)) hview

theorem follows_bump (r : Reader) : Follows ts bump r r.peek r.bump := by
  refine (follows_peek r).bind fun c hc => ?_
  by_cases hkind : r.peek.kind = .eof
  · have hbump : r.bump = r := by
      unfold Reader.bump
      split
      · next t rest hrest => rw [if_pos (Reader.peek_of_rest hrest ▸ hkind)]
      · rw [if_pos hkind]
    refine ⟨c, ?_, by rwa [hbump]⟩
    change StateT.run (if r.peek.kind = .eof then _ else _) c = _
    rw [if_pos hkind]
    rfl
  · obtain ⟨rest, hrest⟩ := hc.exists_rest hkind
    obtain ⟨hlt, hviews⟩ := hc.advance hrest hkind
    have hbump : r.bump = r.advance r.peek rest := Reader.bump_of_rest hrest hkind
    refine ⟨{ c with pos := c.pos + 1 }, ?_, hbump ▸ hviews⟩
    change StateT.run (if r.peek.kind = .eof then _ else _) c = _
    rw [if_neg hkind, hc.tokens, if_pos hlt]
    rfl

theorem follows_prevSpan (r : Reader) : Follows ts prevSpan r r.prevSpan r := by
  intro c hc
  obtain ⟨seen, hts, hpos, hlast, -⟩ := hc.split
  change ∃ c', StateT.run (if c.pos = 0 then _ else _) c = _ ∧ _
  by_cases hzero : c.pos = 0
  · have hnone : r.last = none := by
      rw [hlast, List.length_eq_zero_iff.1 (hpos.symm.trans hzero), List.getLast?_nil]
    have hpeek : Follows ts (do return (← peek).span) r r.peek.span r :=
      (follows_peek r).bind (.pure _ r)
    rw [if_pos hzero, Reader.prevSpan, hnone]
    exact hpeek c hc
  · have hget : c.tokens[c.pos - 1]? = r.last := by
      rw [hc.tokens, hts, hpos, hlast, List.getLast?_eq_getElem?,
        List.getElem?_append_left (by omega)]
    rw [if_neg hzero, hget]
    cases hsome : r.last with
    | none =>
      rw [hlast, List.getLast?_eq_none_iff] at hsome
      simp [hpos, hsome] at hzero
    | some t =>
      rw [Reader.prevSpan, hsome]
      exact ⟨c, rfl, hc⟩

theorem follows_report (r : Reader) (span : Span) (problem : Problem) :
    Follows ts (report span problem) r () (r.report span problem) :=
  fun _ hc => ⟨_, rfl, { hc with diagnostics := congrArg (· ++ [_]) hc.diagnostics }⟩

theorem follows_reportHere (r : Reader) (problem : Problem) :
    Follows ts (reportHere problem) r () (r.report r.peek.span problem) :=
  (follows_peek r).bind (follows_report r _ problem)

theorem follows_reportPrev (r : Reader) (problem : Problem) :
    Follows ts (reportPrev problem) r () (r.reportPrev problem) := by
  refine .of_views fun c hc => ?_
  -- A reader that overran would be marked, but one in view of a cursor never did.
  have hmark : r.reportPrev problem = r.report r.prevSpan problem := by
    simp [Reader.reportPrev, Reader.report, hc.overrun]
  rw [hmark]
  exact (follows_prevSpan r).bind (follows_report r _ problem)

theorem follows_fresh (r : Reader) : Follows ts fresh r r.number.1 r.number.2 := by
  intro c hc
  refine ⟨{ c with nextId := c.nextId + 1 }, ?_, { hc with nextId := congrArg (· + 1) hc.nextId }⟩
  rw [Reader.number, ← hc.nextId]
  rfl

theorem follows_sees (r : Reader) (kind : Token.Kind) :
    Follows ts (sees kind) r (decide (r.peek.kind = kind)) r :=
  (follows_peek r).bind (.pure _ r)

theorem Follows.ite_sees {kind : Token.Kind} {m m' : Walk α} {a : α}
    (hyes : r.peek.kind = kind → Follows ts m r a s)
    (hno : r.peek.kind ≠ kind → Follows ts m' r a s) :
    Follows ts (do if ← sees kind then m else m') r a s := by
  refine (follows_sees r kind).bind ?_
  by_cases hkind : r.peek.kind = kind
  · rw [if_pos (decide_eq_true hkind)]
    exact hyes hkind
  · rw [if_neg (by simpa using hkind)]
    exact hno hkind

theorem follows_eat_some (h : r.eat mark = some s) : Follows ts (eat mark) r true s := by
  unfold Reader.eat at h
  split at h
  · next t rest hrest =>
    split at h
    · next hkind =>
      obtain rfl := Option.some.inj h
      have hpeek : r.peek.kind = .punct mark := by rw [Reader.peek_of_rest hrest, hkind]
      rw [← Reader.bump_of_rest hrest (by simp [hkind])]
      exact .ite_sees (fun _ => (follows_bump r).bind (.pure true _)) fun hne => absurd hpeek hne
    · cases h
  · cases h

theorem follows_eat_none (h : r.eat mark = none) : Follows ts (eat mark) r false r := by
  refine .of_views fun c hc => .ite_sees (fun hkind => ?_) fun _ => .pure false r
  obtain ⟨rest, hrest⟩ := hc.exists_rest (by simp [hkind])
  simp [Reader.eat, hrest, hkind] at h

theorem follows_expect (r : Reader) (mark : Punct) :
    ∃ span, Follows ts (expect mark) r span (r.expect mark) := by
  unfold Reader.expect
  split
  · next s hmark => exact ⟨s.prevSpan, (follows_eat_some hmark).bind (follows_prevSpan s)⟩
  · next hmark =>
    refine ⟨r.peek.span, (follows_eat_none hmark).bind ((follows_peek r).bind ?_)⟩
    exact (follows_reportHere r _).bind (.pure _ _)

theorem Follows.expect_bind {f : Span → Walk α} {a : α}
    (h : ∀ span, Follows ts (f span) (r.expect mark) a s) :
    Follows ts (expect mark >>= f) r a s := by
  obtain ⟨span, hexpect⟩ := follows_expect r mark
  exact hexpect.bind (h span)

end Cursor

end TypedStyle
