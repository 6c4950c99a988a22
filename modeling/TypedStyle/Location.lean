import TypedStyle.Text.Bytes

/-!
# Locations

Where a byte position of the source is, for a reader: its line, its column and the line's text.
Lines end at a newline, columns count characters, and both start at one.
-/

namespace TypedStyle

/-- A place in the source as a reader finds it. -/
structure Location where
  line : Nat
  /-- Number of the character in the line, from one. -/
  column : Nat
  /-- The line without its newline and without carriage returns at its end. -/
  text : List Char
deriving DecidableEq

namespace Location

/-- What stands after the last newline. -/
def lastLine (text : List Char) : List Char :=
  (text.reverse.takeWhile (· != '\n')).reverse

/-- What stands before the first newline. -/
def firstLine (text : List Char) : List Char :=
  text.takeWhile (· != '\n')

/-- A line without the carriage returns at its end. -/
def trimReturns (line : List Char) : List Char :=
  (line.reverse.dropWhile (· == '\r')).reverse

/-- The location of a byte position, or `none` when the position lies inside a character. A
position past the end counts as the end. -/
def ofOffset? (source : List Char) (offset : Nat) : Option Location :=
  (Text.cut? source offset).map fun (before, after) =>
    let start := lastLine before
    { line := before.count '\n' + 1
      column := start.length + 1
      text := trimReturns (start ++ firstLine after) }

end Location

end TypedStyle
