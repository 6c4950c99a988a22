import TypedStyle.Sheet

/-!
# Types

The types of values, the type of an operation's result, and the types that a property accepts.
-/

namespace TypedStyle

/-- The type of an expression. -/
inductive Ty where
  | bool
  | color
  | pixel
  | percentage
  | scalar
  /-- The type of a variable that was assigned another variable. -/
  | undefined
  /-- The type of an expression with a mistake in it. No rule applies to it, so one mistake is
  reported once. -/
  | unknown
deriving DecidableEq

namespace Ty

/-- How a message names a type. -/
def text : Ty → String
  | bool => "Bool"
  | color => "Color"
  | pixel => "Pixel"
  | percentage => "Percentage"
  | scalar => "Scalar"
  | undefined => "Undefined"
  | unknown => "_"

/-- The type named in this way, if there is one. -/
def ofText? (text : String) : Option Ty :=
  [bool, color, pixel, percentage, scalar, undefined, unknown].find? fun ty => ty.text == text

def ofLiteral : Literal → Ty
  | .bool _ => bool
  | .color _ => color
  | .pixel _ => pixel
  | .percentage _ => percentage
  | .scalar _ => scalar

/-- Whether a type is that of an expression with a mistake in it. -/
def isUnknown (ty : Ty) : Bool :=
  ty == unknown

def isMeasurement : Ty → Bool
  | pixel | percentage => true
  | _ => false

/-- The types that a property accepts; `none` when it accepts every type. -/
def allowed? (property : String) : Option (List Ty) :=
  if property = "width" ∨ property = "height" then some [pixel, percentage]
  else if property = "color" ∨ property = "background-color" then some [color]
  else none

end Ty

/-- The type of an operation's result, or `none` when the operands do not fit: two lengths of one
unit are added and subtracted, a number and a length are multiplied. -/
def Operator.result? : Operator → Ty → Ty → Option Ty
  | .add, .pixel, .pixel | .subtract, .pixel, .pixel => some .pixel
  | .add, .percentage, .percentage | .subtract, .percentage, .percentage => some .percentage
  | .multiply, .scalar, ty => if ty.isMeasurement then some ty else none
  | .multiply, ty, .scalar => if ty.isMeasurement then some ty else none
  | _, _, _ => none

end TypedStyle
