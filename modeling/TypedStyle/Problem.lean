import TypedStyle.Token
import TypedStyle.Sheet

/-!
# Problems

Everything that can be wrong with a source, by cause, and the sentence that reports it.
-/

namespace TypedStyle

/-- A mistake in a source. -/
inductive Problem where
  | unexpectedCharacter
  /-- A dot or a hash that no name follows. -/
  | nameExpected (mark : Char)
  | unterminatedComment
  | numberTooLarge
  | noItems
  /-- A token that starts no member of a sheet. -/
  | itemExpected (found : Token.Kind)
  | statementExpected (found : Token.Kind)
  | valueExpected (found : Token.Kind)
  | punctExpected (mark : Punct) (found : Token.Kind)
  | badColor (digits : String)
  | emptyBlock
  | unboundVariable (name : String)
  | badOperands
  /-- A property with a value of the wrong type. -/
  | badProperty (property : String)
  | badCondition
  | overflow (op : Operator)
  /-- A problem that someone else found and worded. -/
  | other (message : String)
deriving DecidableEq

def Problem.message : Problem → String
  | unexpectedCharacter => "unexpected character"
  | nameExpected mark => "expected a name after '" ++ mark.toString ++ "'"
  | unterminatedComment => "unterminated comment"
  | numberTooLarge => "integer literal out of range"
  | noItems => "expected at least one style rule"
  | itemExpected found => "expected a style rule or variable assignment, found " ++ found.show
  | statementExpected found =>
    "expected a declaration, if-clause or variable assignment, found " ++ found.show
  | valueExpected found => "expected a value, found " ++ found.show
  | punctExpected mark found => "expected `" ++ mark.text ++ "`, found " ++ found.show
  | badColor digits => "invalid color literal `#" ++ digits ++ "`: expected six hex digits"
  | emptyBlock => "expected at least one statement in block"
  | unboundVariable name => "Variable '" ++ name ++ "' is not defined"
  | badOperands => "One property of the operation has invalid type"
  | badProperty property => "Property '" ++ property ++ "' has invalid type"
  | badCondition => "conditionalExpression of the ifClause has invalid type"
  | overflow op => "Arithmetic overflow in '" ++ op.text ++ "' operation"
  | other message => message

end TypedStyle
