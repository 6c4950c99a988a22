import TypedStyle.Diagnostic

/-!
# Readers

A reader stands somewhere in a list of tokens. It knows the token it read last and those still to
come, numbers the nodes it makes, and collects the problems it meets. It never moves past the end
of the source. A list that does not say where the source ends can be overrun: then the last token
stays in view, and the token before the reader is no longer known.
-/

namespace TypedStyle

/-- A place in a list of tokens, with what has been made and found on the way. -/
structure Reader where
  last : Option Token
  rest : List Token
  nextId : Nat
  /-- The problems met so far, in order. -/
  diagnostics : List Diagnostic
  /-- Whether a token was read after all tokens of the list had been. -/
  overrun : Bool
  /-- Whether the token before the reader was asked for after an overrun. -/
  stray : Bool

namespace Reader

/-- The reader in front of some tokens, with the problems found before. -/
def start (tokens : List Token) (diagnostics : List Diagnostic) : Reader :=
  { last := none, rest := tokens, nextId := 0, diagnostics, overrun := false, stray := false }

/-- The token in view: the next one, after the last one the last one, and without any tokens the
end of an empty source. -/
def peek (r : Reader) : Token :=
  match r.rest with
  | t :: _ => t
  | [] => r.last.getD ⟨.eof, Span.zero⟩

/-- The span of the token read last, or of the token in view when none has been read. -/
def prevSpan (r : Reader) : Span :=
  (r.last.getD r.peek).span

def report (r : Reader) (span : Span) (problem : Problem) : Reader :=
  { r with diagnostics := r.diagnostics ++ [.ofText span problem] }

/-- Notes a problem with the token read last. -/
def reportPrev (r : Reader) (problem : Problem) : Reader :=
  { r.report r.prevSpan problem with stray := r.stray || r.overrun }

/-- Moves past the next token, which is `t` with `rest` after it. -/
def advance (r : Reader) (t : Token) (rest : List Token) : Reader :=
  { r with last := some t, rest }

/-- Moves past the token in view, unless it is the end of the source. -/
def bump (r : Reader) : Reader :=
  match r.rest with
  | t :: rest => if t.kind = .eof then r else r.advance t rest
  | [] => if r.peek.kind = .eof then r else { r with overrun := true }

/-- Moves past the next token if it is the given punctuation mark. -/
def eat (r : Reader) (mark : Punct) : Option Reader :=
  match r.rest with
  | t :: rest => if t.kind = .punct mark then some (r.advance t rest) else none
  | [] => none

/-- Moves past the given punctuation mark, or reports that it is missing. -/
def expect (r : Reader) (mark : Punct) : Reader :=
  match r.eat mark with
  | some r => r
  | none => r.report r.peek.span (.punctExpected mark r.peek.kind)

def number (r : Reader) : NodeId × Reader :=
  (⟨r.nextId⟩, { r with nextId := r.nextId + 1 })

/-- The rest after a statement that could not be read: past the next semicolon, or in front of the
brace that closes the block. Braces opened on the way, `depth` of them, are passed over. -/
def skipStatement (depth : Nat) (last : Option Token) : List Token → Option Token × List Token
  | [] => (last, [])
  | t :: rest =>
    match t.kind, depth with
    | .eof, _ => (last, t :: rest)
    | .punct .leftBrace, _ => skipStatement (depth + 1) (some t) rest
    | .punct .rightBrace, 0 => (last, t :: rest)
    | .punct .rightBrace, depth + 1 => skipStatement depth (some t) rest
    | .punct .semicolon, 0 => (some t, rest)
    | _, _ => skipStatement depth (some t) rest

/-- The rest after a member of a sheet that could not be read: past the next semicolon, closing
brace or braced part. `depth` braces are open. -/
def skipItem (depth : Nat) (last : Option Token) : List Token → Option Token × List Token
  | [] => (last, [])
  | t :: rest =>
    match t.kind, depth with
    | .eof, _ => (last, t :: rest)
    | .punct .leftBrace, _ => skipItem (depth + 1) (some t) rest
    | .punct .rightBrace, depth + 2 => skipItem (depth + 1) (some t) rest
    | .punct .rightBrace, _ => (some t, rest)
    | .punct .semicolon, 0 => (some t, rest)
    | _, _ => skipItem depth (some t) rest

/-- Moves on to where the next statement may start. -/
def toStatement (r : Reader) : Reader :=
  let (last, rest) := skipStatement 0 r.last r.rest
  { r with last, rest }

/-- Moves on to where the next member of the sheet may start. -/
def toItem (r : Reader) : Reader :=
  let (last, rest) := skipItem 0 r.last r.rest
  { r with last, rest }

/-! ## What is left to read -/

@[simp]
theorem rest_report (r : Reader) (span : Span) (problem : Problem) :
    (r.report span problem).rest = r.rest := rfl

@[simp]
theorem rest_reportPrev (r : Reader) (problem : Problem) :
    (r.reportPrev problem).rest = r.rest := rfl

@[simp]
theorem rest_advance (r : Reader) (t : Token) (rest : List Token) :
    (r.advance t rest).rest = rest := rfl

@[simp]
theorem rest_number (r : Reader) : r.number.2.rest = r.rest := rfl

theorem length_bump_le (r : Reader) : r.bump.rest.length ≤ r.rest.length := by
  unfold bump
  split
  · next h => split <;> simp [h]
  · split <;> simp

theorem length_lt_of_eat {r s : Reader} {mark : Punct} (h : r.eat mark = some s) :
    s.rest.length < r.rest.length := by
  unfold eat at h
  split at h
  · next hrest =>
    split at h
    · simp only [Option.some.injEq] at h
      simp [← h, hrest]
    · simp at h
  · simp at h

theorem length_expect_le (r : Reader) (mark : Punct) :
    (r.expect mark).rest.length ≤ r.rest.length := by
  unfold expect
  split
  · next h => exact Nat.le_of_lt (length_lt_of_eat h)
  · simp

theorem length_skipStatement_le (depth : Nat) (last : Option Token) (tokens : List Token) :
    (skipStatement depth last tokens).2.length ≤ tokens.length := by
  fun_induction skipStatement depth last tokens <;> simp_all <;> omega

theorem length_skipItem_le (depth : Nat) (last : Option Token) (tokens : List Token) :
    (skipItem depth last tokens).2.length ≤ tokens.length := by
  fun_induction skipItem depth last tokens <;> simp_all <;> omega

theorem length_skipStatement_lt {t : Token} (last : Option Token) (rest : List Token)
    (heof : t.kind ≠ .eof) (hclose : t.kind ≠ .punct .rightBrace) :
    (skipStatement 0 last (t :: rest)).2.length < (t :: rest).length := by
  unfold skipStatement
  split
  case h_1 h => exact absurd h heof
  case h_3 h _ => exact absurd h hclose
  case h_5 => simp
  all_goals exact Nat.lt_succ_of_le (length_skipStatement_le ..)

theorem length_skipItem_lt {t : Token} (last : Option Token) (rest : List Token)
    (heof : t.kind ≠ .eof) : (skipItem 0 last (t :: rest)).2.length < (t :: rest).length := by
  unfold skipItem
  split
  case h_1 h => exact absurd h heof
  case h_4 => simp
  case h_5 => simp
  all_goals exact Nat.lt_succ_of_le (length_skipItem_le ..)

theorem length_toStatement_lt {r : Reader} {t : Token} {rest : List Token} (h : r.rest = t :: rest)
    (heof : t.kind ≠ .eof) (hclose : t.kind ≠ .punct .rightBrace) :
    r.toStatement.rest.length < r.rest.length := by
  simpa [toStatement, h] using length_skipStatement_lt r.last rest heof hclose

theorem length_toItem_lt {r : Reader} {t : Token} {rest : List Token} (h : r.rest = t :: rest)
    (heof : t.kind ≠ .eof) : r.toItem.rest.length < r.rest.length := by
  simpa [toItem, h] using length_skipItem_lt r.last rest heof

end Reader

end TypedStyle
