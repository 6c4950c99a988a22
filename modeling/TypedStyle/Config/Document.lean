import TypedStyle.Config.Node

/-!
# Configuration documents

Reads a TOML document into its table. A reading function takes what it reads off the front of a
text and gives the value and what follows, or `none` when the text is not well formed. Values nest,
so reading one is bounded by a number of steps; the length of the document is always enough. How
deep values nest and how many parts a key has is limited: `mostLevels` and `mostParts`.
-/

namespace TypedStyle.Config

/-! ## Blanks and line ends -/

/-- What follows blanks within a line. -/
def skipBlanks (text : List Char) : List Char :=
  text.dropWhile fun c => c == ' ' || c == '\t'

/-- Whether a character may not stand in a text as it is. -/
def isForbidden (c : Char) : Bool :=
  (c.toNat < 0x20 && c != '\t') || c.toNat == 0x7F

/-- What follows the end of a line. -/
def newline? : List Char → Option (List Char)
  | '\n' :: rest => some rest
  | '\r' :: '\n' :: rest => some rest
  | _ => none

/-- What follows the text of a comment: the end of its line. -/
def skipComment? : List Char → Option (List Char)
  | [] => some []
  | '\n' :: rest => some ('\n' :: rest)
  | '\r' :: '\n' :: rest => some ('\r' :: '\n' :: rest)
  | c :: rest => if isForbidden c then none else skipComment? rest

def optionalComment? : List Char → Option (List Char)
  | '#' :: rest => skipComment? rest
  | text => some text

/-- What follows the rest of a line that holds nothing more. -/
def endLine? (text : List Char) : Option (List Char) := do
  let text ← optionalComment? (skipBlanks text)
  match text with
  | [] => some []
  | text => newline? text

def skipLines? : Nat → List Char → Option (List Char)
  | 0, text => some text
  | steps + 1, text => do
    let text ← optionalComment? (skipBlanks text)
    match newline? text with
    | some rest => skipLines? steps rest
    | none => some text

/-! ## Strings -/

def hexDigit? (c : Char) : Option Nat :=
  if c.isDigit then some (c.toNat - '0'.toNat)
  else if 'a' ≤ c ∧ c ≤ 'f' then some (c.toNat - 'a'.toNat + 10)
  else if 'A' ≤ c ∧ c ≤ 'F' then some (c.toNat - 'A'.toNat + 10)
  else none

def number? (base : Nat) (digits : List Char) : Option Nat :=
  digits.foldl (fun n c => do
    let n ← n
    let d ← hexDigit? c
    if d < base then some (base * n + d) else none) (some 0)

def scalar? (n : Nat) : Option Char :=
  if n.isValidChar then some (Char.ofNat n) else none

/-- The character that an escape stands for, and what follows it. -/
def escape? : List Char → Option (Char × List Char)
  | 'b' :: rest => some ('\x08', rest)
  | 't' :: rest => some ('\t', rest)
  | 'n' :: rest => some ('\n', rest)
  | 'f' :: rest => some ('\x0c', rest)
  | 'r' :: rest => some ('\r', rest)
  | '"' :: rest => some ('"', rest)
  | '\\' :: rest => some ('\\', rest)
  | 'u' :: rest => code? 4 rest
  | 'U' :: rest => code? 8 rest
  | _ => none
where
  /-- A character given by its number in so many hexadecimal digits. -/
  code? (width : Nat) (text : List Char) : Option (Char × List Char) := do
    if (text.take width).length < width then none
    else return (← scalar? (← number? 16 (text.take width)), text.drop width)

/-- The rest of a string in quotation marks, which may hold escapes. -/
def basic? : Nat → List Char → Option (List Char × List Char)
  | 0, _ => none
  | _, [] => none
  | _, '"' :: rest => some ([], rest)
  | steps + 1, '\\' :: rest => do
    let (c, rest) ← escape? rest
    let (more, rest) ← basic? steps rest
    return (c :: more, rest)
  | steps + 1, c :: rest => do
    if isForbidden c then none
    else
      let (more, rest) ← basic? steps rest
      return (c :: more, rest)

/-- The rest of a string in apostrophes, which is taken as it is. -/
def verbatim? : List Char → Option (List Char × List Char)
  | [] => none
  | '\'' :: rest => some ([], rest)
  | c :: rest =>
    if isForbidden c then none
    else (verbatim? rest).map fun (more, rest) => (c :: more, rest)

/-- The end of a string over several lines: three marks, with up to two more that belong to the
string. -/
def closeLong? (mark : Char) (text : List Char) : Option (List Char × List Char) :=
  let count := min 5 (text.takeWhile (· == mark)).length
  if count < 3 then none else some (List.replicate (count - 3) mark, text.drop count)

/-- The rest of a string over several lines in triple quotation marks. A backslash at the end of a
line takes away the line end and the blanks after it. -/
def longBasic? : Nat → List Char → Option (List Char × List Char)
  | 0, _ => none
  | _, [] => none
  | steps + 1, '\\' :: rest =>
    match newline? (skipBlanks rest) with
    | some rest => longBasic? steps
        (rest.dropWhile fun c => c == ' ' || c == '\t' || c == '\n' || c == '\r')
    | none => do
      let (c, rest) ← escape? rest
      let (more, rest) ← longBasic? steps rest
      return (c :: more, rest)
  | steps + 1, c :: rest =>
    match closeLong? '"' (c :: rest), newline? (c :: rest) with
    | some found, _ => some found
    | none, some rest => do
      let (more, rest) ← longBasic? steps rest
      return ('\n' :: more, rest)
    | none, none => do
      if isForbidden c then none
      else
        let (more, rest) ← longBasic? steps rest
        return (c :: more, rest)

/-- The rest of a string over several lines in triple apostrophes. -/
def longVerbatim? : Nat → List Char → Option (List Char × List Char)
  | 0, _ => none
  | _, [] => none
  | steps + 1, c :: rest =>
    match closeLong? '\'' (c :: rest), newline? (c :: rest) with
    | some found, _ => some found
    | none, some rest => do
      let (more, rest) ← longVerbatim? steps rest
      return ('\n' :: more, rest)
    | none, none => do
      if isForbidden c then none
      else
        let (more, rest) ← longVerbatim? steps rest
        return (c :: more, rest)

/-- The line end right after the opening of a string over several lines does not belong to it. -/
def trimOpening (text : List Char) : List Char :=
  (newline? text).getD text

def string? (text : List Char) : Option (String × List Char) := do
  let steps := text.length + 1
  let (found, rest) ← match text with
    | '"' :: '"' :: '"' :: rest => longBasic? steps (trimOpening rest)
    | '\'' :: '\'' :: '\'' :: rest => longVerbatim? steps (trimOpening rest)
    | '"' :: rest => basic? steps rest
    | '\'' :: rest => verbatim? rest
    | _ => none
  return (String.ofList found, rest)

/-! ## Keys -/

/-- Whether a character may stand in a key without quotation marks. -/
def isBareChar (c : Char) : Bool :=
  c.isAlphanum || c == '_' || c == '-'

def keyPart? (text : List Char) : Option (String × List Char) := do
  let (found, rest) ← match text with
    | '"' :: rest => basic? (rest.length + 1) rest
    | '\'' :: rest => verbatim? rest
    | text =>
      match text.takeWhile isBareChar with
      | [] => none
      | part => some (part, text.dropWhile isBareChar)
  return (String.ofList found, rest)

/-- How many parts a key may have. -/
def mostParts : Nat := 79

/-- A key of at most so many parts: the parts before the last one, the last one, and what
follows. -/
def parts? : Nat → List Char → Option (List String × String × List Char)
  | 0, _ => none
  | room + 1, text => do
    let (part, rest) ← keyPart? text
    match skipBlanks rest with
    | '.' :: rest =>
      let (path, last, rest) ← parts? room (skipBlanks rest)
      return (part :: path, last, rest)
    | rest => return ([], part, rest)

/-- A key: the parts before the last one, the last one, and what follows. -/
def key? (text : List Char) : Option (List String × String × List Char) :=
  parts? mostParts text

/-! ## Values -/

/-- The digits of a number without the underscores, each of which stands between two digits. -/
def digits? (isDigit : Char → Bool) : List Char → Option (List Char)
  | [] => none
  | [c] => if isDigit c then some [c] else none
  | c :: '_' :: rest => if isDigit c then (digits? isDigit rest).map (c :: ·) else none
  | c :: rest => if isDigit c then (digits? isDigit rest).map (c :: ·) else none

/-- The digits of a decimal number, which does not start with a needless zero. -/
def decimal? (text : List Char) : Option (List Char) := do
  let digits ← digits? Char.isDigit text
  if digits.length > 1 ∧ digits.head? = some '0' then none else some digits

def sign : List Char → Int × List Char
  | '-' :: rest => (-1, rest)
  | '+' :: rest => (1, rest)
  | text => (1, text)

def integer? (text : List Char) : Option Int := do
  let n ← match text with
    | '0' :: 'x' :: rest => based 16 rest
    | '0' :: 'o' :: rest => based 8 rest
    | '0' :: 'b' :: rest => based 2 rest
    | text =>
      let (s, rest) := sign text
      (number? 10 (← decimal? rest)).map fun (n : Nat) => s * n
  if -9223372036854775808 ≤ n ∧ n ≤ 9223372036854775807 then some n else none
where
  based (base : Nat) (text : List Char) : Option Int := do
    let digits ← digits? (fun c => (hexDigit? c).isSome) text
    (number? base digits).map fun (n : Nat) => (n : Int)

/-- Whether a text is a number with a fraction or an exponent, or one that is not finite. -/
def isFloat (text : List Char) : Bool :=
  let (_, text) := sign text
  if text = ['i', 'n', 'f'] ∨ text = ['n', 'a', 'n'] then true
  else
    let whole := text.takeWhile fun c => c.isDigit || c == '_'
    let rest := text.dropWhile fun c => c.isDigit || c == '_'
    (decimal? whole).isSome && match rest with
    | '.' :: rest =>
      let fraction := rest.takeWhile fun c => c.isDigit || c == '_'
      (digits? Char.isDigit fraction).isSome &&
        exponent (rest.dropWhile fun c => c.isDigit || c == '_') true
    | rest => exponent rest false
where
  exponent (text : List Char) (optional : Bool) : Bool :=
    match text with
    | [] => optional
    | c :: rest => (c == 'e' || c == 'E') && (digits? Char.isDigit (sign rest).2).isSome

/-- The number of exactly so many digits at the front of a text, within bounds, and what
follows. -/
def field? (width low high : Nat) (text : List Char) : Option (Nat × List Char) := do
  let digits := text.take width
  if digits.length = width ∧ digits.all Char.isDigit then
    let n ← number? 10 digits
    if low ≤ n ∧ n ≤ high then some (n, text.drop width) else none
  else none

def after? (c : Char) : List Char → Option (List Char)
  | d :: rest => if c = d then some rest else none
  | [] => none

def daysInMonth (year month : Nat) : Nat :=
  if month = 2 then
    if year % 4 = 0 ∧ (year % 100 ≠ 0 ∨ year % 400 = 0) then 29 else 28
  else if month ∈ [4, 6, 9, 11] then 30
  else 31

def date? (text : List Char) : Option (List Char) := do
  let (year, text) ← field? 4 0 9999 text
  let (month, text) ← field? 2 1 12 (← after? '-' text)
  let (_, text) ← field? 2 1 (daysInMonth year month) (← after? '-' text)
  return text

def time? (text : List Char) : Option (List Char) := do
  let (_, text) ← field? 2 0 23 text
  let (_, text) ← field? 2 0 59 (← after? ':' text)
  let (_, text) ← field? 2 0 60 (← after? ':' text)
  match text with
  | '.' :: rest =>
    if (rest.takeWhile Char.isDigit).isEmpty then none else some (rest.dropWhile Char.isDigit)
  | text => some text

/-- What follows the distance of a time from the standard one. -/
def zone? (text : List Char) : Option (List Char) :=
  match text with
  | [] => none
  | c :: rest =>
    if c = 'Z' ∨ c = 'z' then some rest
    else if c = '+' ∨ c = '-' then do
      let (_, rest) ← field? 2 0 23 rest
      let (_, rest) ← field? 2 0 59 (← after? ':' rest)
      return rest
    else none

/-- What follows a date, a time, or both. -/
def moment? (text : List Char) : Option (List Char) :=
  match date? text with
  | none => time? text
  | some [] => some []
  | some (c :: rest) =>
    if c = 'T' ∨ c = 't' ∨ c = ' ' then
      match time? rest with
      | some rest => some ((zone? rest).getD rest)
      | none => some (c :: rest)
    else some (c :: rest)

/-- Whether a character goes on a value without quotation marks. -/
def isWordChar (c : Char) : Bool :=
  c.isAlphanum || c == '_' || c == '-' || c == '+' || c == '.'

/-- A truth value or a number. -/
def word? (text : List Char) : Option Node :=
  if text = ['t', 'r', 'u', 'e'] then some (.boolean true)
  else if text = ['f', 'a', 'l', 's', 'e'] then some (.boolean false)
  else match integer? text with
  | some n => some (.integer n)
  | none => if isFloat text then some .other else none

/-- How many arrays and tables between braces may stand around a value. -/
def mostLevels : Nat := 79

mutual

/-- A value inside which there is room for so many more levels of values, and what follows. -/
def value? : Nat → Nat → List Char → Option (Node × List Char)
  | 0, _, _ => none
  | _, 0, '[' :: _ => none
  | _, 0, '\x7b' :: _ => none
  | steps + 1, room + 1, '[' :: rest => do
    let (values, rest) ← elements? steps room rest
    return (.array values, rest)
  | steps + 1, room + 1, '\x7b' :: rest => do
    match skipBlanks rest with
    | '\x7d' :: rest => return (.inline [], rest)
    | rest =>
      let (members, rest) ← pairs? steps room [] rest
      return (.inline members, rest)
  | _, _, text =>
    match string? text, moment? text with
    | some (value, rest), _ => some (.text value, rest)
    | none, some rest => some (.other, rest)
    | none, none => do
      let value ← word? (text.takeWhile isWordChar)
      return (value, text.dropWhile isWordChar)

/-- The values of an array up to its closing bracket, and what follows. -/
def elements? : Nat → Nat → List Char → Option (List Node × List Char)
  | 0, _, _ => none
  | steps + 1, room, text => do
    match ← skipLines? text.length text with
    | ']' :: rest => return ([], rest)
    | text =>
      let (first, rest) ← value? steps room text
      match ← skipLines? rest.length rest with
      | ',' :: rest =>
        let (more, rest) ← elements? steps room rest
        return (first :: more, rest)
      | ']' :: rest => return ([first], rest)
      | _ => none

/-- The members of a table between braces up to its closing brace, and what follows. -/
def pairs? : Nat → Nat → Members → List Char → Option (Members × List Char)
  | 0, _, _, _ => none
  | steps + 1, room, members, text => do
    let (path, key, rest) ← key? text
    let rest ← after? '=' rest
    let (value, rest) ← value? steps room (skipBlanks rest)
    let members ← members.insert path key value
    match skipBlanks rest with
    | ',' :: rest => pairs? steps room members (skipBlanks rest)
    | '\x7d' :: rest => return (members, rest)
    | _ => none

end

/-! ## Documents -/

/-- The name of a header up to its closing brackets, and what follows its line. -/
def header? (close text : List Char) : Option (List String × String × List Char) := do
  let (path, key, rest) ← key? (skipBlanks text)
  if close.isPrefixOf rest then
    return (path, key, ← endLine? (rest.drop close.length))
  else none

/-- The lines of a document, in the table of the last header, added to what has been read. -/
def lines? : Nat → List String → Members → List Char → Option Members
  | 0, _, _, _ => none
  | steps + 1, header, members, text =>
    match skipBlanks text with
    | [] => some members
    | '[' :: '[' :: rest => do
      let (path, key, rest) ← header? [']', ']'] rest
      lines? steps (path ++ [key]) (← members.openNext path key) rest
    | '[' :: rest => do
      let (path, key, rest) ← header? [']'] rest
      lines? steps (path ++ [key]) (← members.openTable path key) rest
    | text =>
      match endLine? text with
      | some rest => lines? steps header members rest
      | none => do
        let (path, key, rest) ← key? text
        let rest ← after? '=' rest
        let (value, rest) ← value? text.length mostLevels (skipBlanks rest)
        lines? steps header (← members.insertUnder header path key value) (← endLine? rest)

/-- The table that a document holds, or `none` when the document is not well formed. -/
def document? (text : String) : Option Members :=
  let text := match text.toList with
    | '\uFEFF' :: rest => rest
    | text => text
  lines? (text.length + 1) [] [] text

end TypedStyle.Config
