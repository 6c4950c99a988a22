import TypedStyle.Text.Blank
import TypedStyle.Diagnostic

/-!
# Lexemes

A source is read as a sequence of lexemes: pieces of text that are a token, a blank, a comment or
a fault. `Lexeme.next` reads one lexeme off a text that is not empty, and `lexemes` reads them all.
The pieces cover the source (`flatMap_text_lexemes`), so the byte span of each follows from those
before it, and `Token.scan` keeps the tokens and the diagnostics.
-/

namespace TypedStyle

/-- What a lexeme was read as. -/
inductive Lexeme.Reading where
  | skipped
  | token (kind : Token.Kind)
  /-- A number above the largest allowed one, read as the given token. -/
  | clipped (kind : Token.Kind)
  | fault (problem : Problem)
deriving DecidableEq

/-- A piece of the source. -/
structure Lexeme where
  text : List Char
  reading : Lexeme.Reading
deriving DecidableEq

namespace Lexeme

/-- Whether a character goes on a name that started with a small letter. -/
def isNameChar (c : Char) : Bool :=
  c.isLower || c.isDigit || c == '-' || c == '_'

/-- Whether a character goes on a name after a dot or a hash. -/
def isMarkedChar (c : Char) : Bool :=
  isNameChar c || c.isUpper

/-- Whether a character goes on a name that started with a capital. -/
def isVariableChar (c : Char) : Bool :=
  c.isAlphanum || c == '_'

/-- The largest number that a token holds. -/
def largest : Nat := 9223372036854775807

def decimal (digits : List Char) : Nat :=
  digits.foldl (fun n d => 10 * n + (d.toNat - '0'.toNat)) 0

/-- The text up to and including the first `*/`, and what follows. -/
def closing? : List Char → Option (List Char × List Char)
  | [] => none
  | '*' :: '/' :: rest => some (['*', '/'], rest)
  | c :: rest => (closing? rest).map fun (text, rest) => (c :: text, rest)

/-- A comment, if one starts here. A comment that is never closed takes the whole rest. -/
def comment? : Char → List Char → Option (Lexeme × List Char)
  | '/', '*' :: rest =>
    match closing? rest with
    | some (text, rest) => some (⟨'/' :: '*' :: text, .skipped⟩, rest)
    | none => some (⟨'/' :: '*' :: rest, .fault .unterminatedComment⟩, [])
  | _, _ => none

/-- The token that a word starting with a small letter is. -/
def wordKind (text : String) : Token.Kind :=
  match Keyword.ofText? text with
  | some word => .keyword word
  | none => .lower text

/-- The token that a word starting with a capital is. -/
def variableKind (text : String) : Token.Kind :=
  if text = "TRUE" then .bool true
  else if text = "FALSE" then .bool false
  else .capital text

/-- The unit at the front of a text: the kind of number it makes, its own text, and the rest. -/
def unit : List Char → (Int → Token.Kind) × List Char × List Char
  | 'p' :: 'x' :: rest => (.pixel, ['p', 'x'], rest)
  | '%' :: rest => (.percentage, ['%'], rest)
  | rest => (.scalar, [], rest)

/-- A number with its unit, the first digit given. -/
def number (c : Char) (rest : List Char) : Lexeme × List Char :=
  let digits := c :: rest.takeWhile Char.isDigit
  let (kind, suffix, rest) := unit (rest.dropWhile Char.isDigit)
  let value := decimal digits
  let reading := if value ≤ largest then .token (kind value) else .clipped (kind 0)
  (⟨digits ++ suffix, reading⟩, rest)

/-- A name after a dot or a hash. -/
def marked (c : Char) (rest : List Char) : Lexeme × List Char :=
  match rest.takeWhile isMarkedChar with
  | [] => (⟨[c], .fault (.nameExpected c)⟩, rest)
  | name =>
    let text := String.ofList name
    (⟨c :: name, .token (if c = '.' then .dotted text else .hash text)⟩,
      rest.dropWhile isMarkedChar)

/-- The punctuation mark at the front of a text, its own text, and the rest. The longer mark
`:=` wins over `:`. -/
def punct? : Char → List Char → Option (Punct × List Char × List Char)
  | '\x7b', rest => some (.leftBrace, ['\x7b'], rest)
  | '\x7d', rest => some (.rightBrace, ['\x7d'], rest)
  | '[', rest => some (.leftBracket, ['['], rest)
  | ']', rest => some (.rightBracket, [']'], rest)
  | ':', '=' :: rest => some (.assign, [':', '='], rest)
  | ':', rest => some (.colon, [':'], rest)
  | ';', rest => some (.semicolon, [';'], rest)
  | '+', rest => some (.plus, ['+'], rest)
  | '-', rest => some (.minus, ['-'], rest)
  | '*', rest => some (.star, ['*'], rest)
  | _, _ => none

/-- The first lexeme of the text `c :: rest`, and what follows it. -/
def next (c : Char) (rest : List Char) : Lexeme × List Char :=
  if Text.isBlank c then (⟨[c], .skipped⟩, rest)
  else match comment? c rest with
  | some found => found
  | none =>
    if c.isLower then
      let text := c :: rest.takeWhile isNameChar
      (⟨text, .token (wordKind (String.ofList text))⟩, rest.dropWhile isNameChar)
    else if c.isUpper then
      let text := c :: rest.takeWhile isVariableChar
      (⟨text, .token (variableKind (String.ofList text))⟩, rest.dropWhile isVariableChar)
    else if c.isDigit then number c rest
    else if c = '.' ∨ c = '#' then marked c rest
    else match punct? c rest with
    | some (mark, text, rest) => (⟨text, .token (.punct mark)⟩, rest)
    | none => (⟨[c], .fault .unexpectedCharacter⟩, rest)

theorem append_of_closing? {text found rest : List Char}
    (h : closing? text = some (found, rest)) : found ++ rest = text := by
  induction text using closing?.induct generalizing found with
  | case1 => simp [closing?] at h
  | case2 =>
    simp only [closing?, Option.some.injEq, Prod.mk.injEq] at h
    obtain ⟨rfl, rfl⟩ := h
    rfl
  | case3 c text hne ih =>
    rw [closing?.eq_3 _ _ hne] at h
    simp only [Option.map_eq_some_iff, Prod.mk.injEq] at h
    obtain ⟨⟨found', rest'⟩, hclose, rfl, rfl⟩ := h
    simp [ih hclose]

theorem append_of_comment? {c : Char} {text rest : List Char} {l : Lexeme}
    (h : comment? c text = some (l, rest)) : l.text ++ rest = c :: text := by
  unfold comment? at h
  split at h
  · split at h
    · next hclose =>
      simp only [Option.some.injEq, Prod.mk.injEq] at h
      obtain ⟨rfl, rfl⟩ := h
      simp [append_of_closing? hclose]
    · simp only [Option.some.injEq, Prod.mk.injEq] at h
      obtain ⟨rfl, rfl⟩ := h
      simp
  · simp at h

theorem append_unit (text : List Char) : (unit text).2.1 ++ (unit text).2.2 = text := by
  unfold unit
  split <;> simp

theorem append_of_punct? {c : Char} {text found rest : List Char} {mark : Punct}
    (h : punct? c text = some (mark, found, rest)) : found ++ rest = c :: text := by
  unfold punct? at h
  split at h
  case h_11 => simp at h
  all_goals
    simp only [Option.some.injEq, Prod.mk.injEq] at h
    obtain ⟨-, rfl, rfl⟩ := h
    rfl

/-- A lexeme and what follows it give back the text. -/
theorem append_next (c : Char) (rest : List Char) :
    (next c rest).1.text ++ (next c rest).2 = c :: rest := by
  unfold next
  split
  · simp
  · split
    · next found hcomment => exact append_of_comment? hcomment
    · split
      · simp
      · split
        · simp
        · split
          · simp [number, append_unit]
          · split
            · simp only [marked]
              split
              · simp
              · simp
            · split
              · next hpunct => exact append_of_punct? hpunct
              · simp

theorem comment?_text_ne_nil {c : Char} {text rest : List Char} {l : Lexeme}
    (h : comment? c text = some (l, rest)) : l.text ≠ [] := by
  unfold comment? at h
  split at h
  · split at h <;> simp only [Option.some.injEq, Prod.mk.injEq] at h <;> simp [← h.1]
  · simp at h

theorem punct?_text_ne_nil {c : Char} {text found rest : List Char} {mark : Punct}
    (h : punct? c text = some (mark, found, rest)) : found ≠ [] := by
  unfold punct? at h
  split at h
  case h_11 => simp at h
  all_goals
    simp only [Option.some.injEq, Prod.mk.injEq] at h
    simp [← h.2.1]

theorem next_text_ne_nil (c : Char) (rest : List Char) : (next c rest).1.text ≠ [] := by
  unfold next
  split
  · simp
  · split
    · next found hcomment => exact comment?_text_ne_nil hcomment
    · split
      · simp
      · split
        · simp
        · split
          · simp [number]
          · split
            · simp only [marked]
              split <;> simp
            · split
              · next hpunct => exact punct?_text_ne_nil hpunct
              · simp

theorem length_next_lt (c : Char) (rest : List Char) :
    (next c rest).2.length < (c :: rest).length := by
  have happend := congrArg List.length (append_next c rest)
  have hpos := List.length_pos_iff.2 (next_text_ne_nil c rest)
  simp only [List.length_append] at happend
  omega

end Lexeme

def lexemes : List Char → List Lexeme
  | [] => []
  | c :: rest => (Lexeme.next c rest).1 :: lexemes (Lexeme.next c rest).2
termination_by text => text.length
decreasing_by exact Lexeme.length_next_lt c rest

theorem flatMap_text_lexemes (text : List Char) : (lexemes text).flatMap Lexeme.text = text := by
  fun_induction lexemes text with
  | case1 => rfl
  | case2 c rest ih => simp [ih, Lexeme.append_next]

namespace Lexeme

def place (start : Nat) : List Lexeme → List (Lexeme × Span)
  | [] => []
  | l :: rest =>
    let stop := start + Text.byteSize l.text
    (l, ⟨start, stop⟩) :: place stop rest

def token? : Lexeme × Span → Option Token
  | (⟨_, .token kind⟩, span) | (⟨_, .clipped kind⟩, span) => some ⟨kind, span⟩
  | _ => none

/-- The diagnostic that a placed lexeme calls for, if there is one. -/
def diagnostic? : Lexeme × Span → Option Diagnostic
  | (⟨_, .clipped _⟩, span) => some (.ofText span .numberTooLarge)
  | (⟨_, .fault problem⟩, span) => some (.ofText span problem)
  | _ => none

end Lexeme

/-- The tokens of a source and what could not be read. -/
structure Scan where
  /-- The tokens in order; the last one is the end of the source. -/
  tokens : List Token
  diagnostics : List Diagnostic
deriving DecidableEq

def Token.scan (source : List Char) : Scan :=
  let placed := Lexeme.place 0 (lexemes source)
  let size := Text.byteSize source
  { tokens := placed.filterMap Lexeme.token? ++ [⟨.eof, ⟨size, size⟩⟩]
    diagnostics := placed.filterMap Lexeme.diagnostic? }

end TypedStyle
