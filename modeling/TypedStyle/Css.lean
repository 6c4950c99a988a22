import TypedStyle.Sheet

/-!
# Generated text

The text of a sheet: a rule is its selector, a line for each declaration, and a closing brace. A
declaration is indented by one tab for each block around it. Assignments leave nothing.
-/

namespace TypedStyle

def Css.line (depth : Nat) (property : String) (value : Expr) : String :=
  String.ofList (List.replicate depth '\t') ++ property ++ ": " ++ value.text ++ ";\n"

namespace Statement

mutual

def css (depth : Nat) : Statement → String
  | declare property value _ => Css.line depth property.name value
  | assign _ => ""
  | ifThen _ _ body _ => cssAll (depth + 1) body
  | ifElse _ _ body alternative _ _ => cssAll (depth + 1) body ++ cssAll (depth + 1) alternative

def cssAll (depth : Nat) : List Statement → String
  | [] => ""
  | s :: rest => s.css depth ++ cssAll depth rest

end

end Statement

def Rule.css (rule : Rule) : String :=
  rule.selector.text ++ " \x7b\n" ++ Statement.cssAll 1 rule.body ++ "\x7d\n"

def Sheet.css (sheet : Sheet) : String :=
  String.join (sheet.rules.map Rule.css)

end TypedStyle
