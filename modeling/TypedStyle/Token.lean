import TypedStyle.Span

/-!
# Tokens

The words of the language: names, values with their units, two keywords and punctuation. A token
is a kind together with the span of the source it was read from. `Token.Kind.show` is how a
message names a token.
-/

namespace TypedStyle

/-- The two reserved words. -/
inductive Keyword where
  | ifWord
  | elseWord
deriving DecidableEq

namespace Keyword

def text : Keyword → String
  | ifWord => "if"
  | elseWord => "else"

/-- The keyword written in this way, if there is one. -/
def ofText? (text : String) : Option Keyword :=
  if text = "if" then some ifWord
  else if text = "else" then some elseWord
  else none

@[simp]
theorem ofText?_text (k : Keyword) : ofText? k.text = some k := by
  cases k <;> simp [ofText?, text]

end Keyword

/-- Punctuation, operators included. -/
inductive Punct where
  | leftBrace
  | rightBrace
  | leftBracket
  | rightBracket
  | colon
  | semicolon
  | assign
  | plus
  | minus
  | star
deriving DecidableEq

namespace Punct

def text : Punct → String
  | leftBrace => "\x7b"
  | rightBrace => "\x7d"
  | leftBracket => "["
  | rightBracket => "]"
  | colon => ":"
  | semicolon => ";"
  | assign => ":="
  | plus => "+"
  | minus => "-"
  | star => "*"

def all : List Punct :=
  [leftBrace, rightBrace, leftBracket, rightBracket, colon, semicolon, assign, plus, minus, star]

/-- The punctuation mark written in this way, if there is one. -/
def ofText? (text : String) : Option Punct :=
  all.find? fun p => p.text == text

end Punct

/-- What a token is, apart from where it stands. -/
inductive Token.Kind where
  /-- A name that starts with a small letter: a tag or a property. -/
  | lower (name : String)
  | capital (name : String)
  /-- A name after a dot, kept without the dot. -/
  | dotted (name : String)
  /-- A name after a hash, kept without the hash: an id or a colour. -/
  | hash (name : String)
  | pixel (value : Int)
  | percentage (value : Int)
  | scalar (value : Int)
  | bool (value : Bool)
  | keyword (word : Keyword)
  | punct (mark : Punct)
  | eof
deriving DecidableEq

/-- A token and its place in the source. -/
structure Token where
  kind : Token.Kind
  span : Span
deriving DecidableEq

namespace Token

/-- How a message names a token: its text between backquotes, or `end of input`. -/
def Kind.show : Kind → String
  | lower name | capital name => "`" ++ name ++ "`"
  | dotted name => "`." ++ name ++ "`"
  | hash name => "`#" ++ name ++ "`"
  | pixel value => "`" ++ toString value ++ "px`"
  | percentage value => "`" ++ toString value ++ "%`"
  | scalar value => "`" ++ toString value ++ "`"
  | bool true => "`TRUE`"
  | bool false => "`FALSE`"
  | keyword word => "`" ++ word.text ++ "`"
  | punct mark => "`" ++ mark.text ++ "`"
  | eof => "end of input"

end Token

end TypedStyle
