import TypedStyle.Proofs.Relabel
import TypedStyle.Token

/-!
# The grammar of sheets

Which sequences of tokens make a sheet, and which sheet they make:

    sheet = item+            item  = assign | rule        assign = Capital := expr ;
    rule  = selector block   block = { statement+ }
    statement = lower : expr ; | assign | if [ value ] block (else block)?
    expr  = term ((+|-) term)*                            term   = value (* value)*

Each nonterminal is a relation between the kinds of the tokens and the bare tree they stand for.
The two repetitions of operators are left recursive here: an operator takes all that stands before
it in its sum or product as its left operand. `kinds` writes a tree back as the kinds of its
tokens, and `Grammar.Sheet.kinds` says that this undoes a derivation.
-/

namespace TypedStyle

namespace Grammar

/-- Exactly six hexadecimal digits. -/
def SixHexDigits (digits : String) : Prop :=
  digits.length = 6 ∧ ∀ c ∈ digits.toList, c ∈ "0123456789abcdefABCDEF".toList

def literal (value : Literal) : Expr :=
  .literal .dummy .zero value

def operation (op : Operator) (lhs rhs : Expr) : Expr :=
  .operation .dummy .zero op lhs rhs

/-- `value = Pixel | Percentage | Scalar | Bool | Capital | six hexadecimal digits after a hash` -/
inductive Value : Token.Kind → Expr → Prop
  | pixel (n : Int) : Value (.pixel n) (literal (.pixel n))
  | percentage (n : Int) : Value (.percentage n) (literal (.percentage n))
  | scalar (n : Int) : Value (.scalar n) (literal (.scalar n))
  | bool (b : Bool) : Value (.bool b) (literal (.bool b))
  | variable (name : String) : Value (.capital name) (.reference .dummy .zero name)
  | color {digits : String} (h : SixHexDigits digits) :
      Value (.hash digits) (literal (.color ("#" ++ digits)))

/-- `term = value (* value)*` -/
inductive Term : List Token.Kind → Expr → Prop
  | value {k : Token.Kind} {e : Expr} (h : Value k e) : Term [k] e
  | times {ks : List Token.Kind} {k : Token.Kind} {lhs rhs : Expr} (hlhs : Term ks lhs)
      (hrhs : Value k rhs) : Term (ks ++ [.punct .star, k]) (operation .multiply lhs rhs)

/-- The mark of an operator of sums. -/
inductive SumMark : Punct → Operator → Prop
  | plus : SumMark .plus .add
  | minus : SumMark .minus .subtract

/-- `expr = term ((+|-) term)*` -/
inductive Sum : List Token.Kind → Expr → Prop
  | term {ks : List Token.Kind} {e : Expr} (h : Term ks e) : Sum ks e
  | operation {ks ks' : List Token.Kind} {mark : Punct} {op : Operator} {lhs rhs : Expr}
      (hlhs : Sum ks lhs) (hmark : SumMark mark op) (hrhs : Term ks' rhs) :
      Sum (ks ++ .punct mark :: ks') (operation op lhs rhs)

/-- `assign = Capital := expr ;` -/
inductive Assign : List Token.Kind → Assignment → Prop
  | mk {ks : List Token.Kind} {e : Expr} (name : String) (h : Sum ks e) :
      Assign (.capital name :: .punct .assign :: (ks ++ [.punct .semicolon]))
        { name := ⟨name, .zero⟩, value := e, span := .zero }

mutual

/-- `statement = lower : expr ; | assign | if [ value ] block (else block)?` -/
inductive Member : List Token.Kind → Statement → Prop
  | declare {ks : List Token.Kind} {e : Expr} (name : String) (h : Sum ks e) :
      Member (.lower name :: .punct .colon :: (ks ++ [.punct .semicolon]))
        (.declare ⟨name, .zero⟩ e .zero)
  | assign {ks : List Token.Kind} {a : Assignment} (h : Assign ks a) : Member ks (.assign a)
  | ifThen {k : Token.Kind} {condition : Expr} {ks : List Token.Kind} {body : List Statement}
      (hcondition : Value k condition) (hbody : Block ks body) :
      Member (.keyword .ifWord :: .punct .leftBracket :: k :: .punct .rightBracket :: ks)
        (.ifThen .dummy condition body .zero)
  | ifElse {k : Token.Kind} {condition : Expr} {ks ks' : List Token.Kind}
      {body alternative : List Statement} (hcondition : Value k condition)
      (hbody : Block ks body) (halternative : Block ks' alternative) :
      Member (.keyword .ifWord :: .punct .leftBracket :: k :: .punct .rightBracket ::
          (ks ++ .keyword .elseWord :: ks'))
        (.ifElse .dummy condition body alternative .zero .zero)

/-- `statement+` -/
inductive Members : List Token.Kind → List Statement → Prop
  | one {ks : List Token.Kind} {s : Statement} (h : Member ks s) : Members ks [s]
  | cons {ks ks' : List Token.Kind} {s : Statement} {rest : List Statement} (hfirst : Member ks s)
      (hrest : Members ks' rest) : Members (ks ++ ks') (s :: rest)

/-- `block = { statement+ }` -/
inductive Block : List Token.Kind → List Statement → Prop
  | mk {ks : List Token.Kind} {body : List Statement} (h : Members ks body) :
      Block (.punct .leftBrace :: (ks ++ [.punct .rightBrace])) body

end

/-- A selector: a small name, a name after a dot or a name after a hash. -/
inductive Select : Token.Kind → Selector → Prop
  | tag (name : String) : Select (.lower name) (.tag name)
  | className (name : String) : Select (.dotted name) (.className name)
  | id (name : String) : Select (.hash name) (.id name)

/-- `item = assign | selector block` -/
inductive Item : List Token.Kind → TypedStyle.Item → Prop
  | assign {ks : List Token.Kind} {a : Assignment} (h : Assign ks a) : Item ks (.assign a)
  | rule {k : Token.Kind} {selector : Selector} {ks : List Token.Kind} {body : List Statement}
      (hselector : Select k selector) (hbody : Block ks body) :
      Item (k :: ks) (.rule { selector, body, span := .zero })

/-- `item+` -/
inductive Items : List Token.Kind → List TypedStyle.Item → Prop
  | one {ks : List Token.Kind} {i : TypedStyle.Item} (h : Item ks i) : Items ks [i]
  | cons {ks ks' : List Token.Kind} {i : TypedStyle.Item} {rest : List TypedStyle.Item}
      (hfirst : Item ks i) (hrest : Items ks' rest) : Items (ks ++ ks') (i :: rest)

/-- `sheet = item+` -/
def Sheet (ks : List Token.Kind) (sheet : TypedStyle.Sheet) : Prop :=
  Items ks sheet.items

end Grammar

/-! ## Writing a tree back -/

def Literal.kind : Literal → Token.Kind
  | bool value => .bool value
  | color text => .hash (String.ofList text.toList.tail)
  | pixel value => .pixel value
  | percentage value => .percentage value
  | scalar value => .scalar value

def Operator.mark : Operator → Punct
  | add => .plus
  | subtract => .minus
  | multiply => .star

def Selector.kind : Selector → Token.Kind
  | tag name => .lower name
  | className name => .dotted name
  | id name => .hash name

def Expr.kinds : Expr → List Token.Kind
  | literal _ _ value => [value.kind]
  | reference _ _ name => [.capital name]
  | operation _ _ op lhs rhs => lhs.kinds ++ .punct op.mark :: rhs.kinds

def Assignment.kinds (a : Assignment) : List Token.Kind :=
  .capital a.name.name :: .punct .assign :: (a.value.kinds ++ [.punct .semicolon])

namespace Statement

/-- The kinds of a block's tokens, around those of its statements. -/
def braced (ks : List Token.Kind) : List Token.Kind :=
  .punct .leftBrace :: (ks ++ [.punct .rightBrace])

/-- The kinds of the tokens at the head of a conditional, before those of its block. -/
def headed (condition : Expr) (ks : List Token.Kind) : List Token.Kind :=
  .keyword .ifWord :: .punct .leftBracket :: (condition.kinds ++ .punct .rightBracket :: ks)

mutual

def kinds : Statement → List Token.Kind
  | declare property value _ =>
    .lower property.name :: .punct .colon :: (value.kinds ++ [.punct .semicolon])
  | assign a => a.kinds
  | ifThen _ condition body _ => headed condition (braced (kindsAll body))
  | ifElse _ condition body alternative _ _ =>
    headed condition (braced (kindsAll body) ++
      .keyword .elseWord :: braced (kindsAll alternative))

def kindsAll : List Statement → List Token.Kind
  | [] => []
  | s :: rest => s.kinds ++ kindsAll rest

end

end Statement

/-- The kinds of the tokens of a member of a sheet. -/
def Item.kinds : Item → List Token.Kind
  | assign a => a.kinds
  | rule r => r.selector.kind :: Statement.braced (Statement.kindsAll r.body)

def Sheet.kinds (sheet : Sheet) : List Token.Kind :=
  sheet.items.flatMap Item.kinds

/-! Labels do not matter to the tokens. -/

section Relabel

variable (ids : NodeId → NodeId) (spans : Span → Span)

@[simp]
theorem Expr.kinds_relabel (e : Expr) : (e.relabel ids spans).kinds = e.kinds := by
  induction e with
  | literal => rfl
  | reference => rfl
  | operation id span op lhs rhs ihl ihr => simp [relabel, kinds, ihl, ihr]

@[simp]
theorem Assignment.kinds_relabel (a : Assignment) : (a.relabel ids spans).kinds = a.kinds := by
  simp [kinds, relabel, Ident.relabel]

mutual

theorem Statement.kinds_relabel : ∀ s : Statement, (s.relabel ids spans).kinds = s.kinds
  | .declare .. => by simp [relabel, kinds, Ident.relabel]
  | .assign a => a.kinds_relabel ids spans
  | .ifThen _ _ body _ => by simp [relabel, kinds, headed, kindsAll_relabelAll body]
  | .ifElse _ _ body alternative _ _ => by
    simp [relabel, kinds, headed, kindsAll_relabelAll body, kindsAll_relabelAll alternative]

theorem Statement.kindsAll_relabelAll :
    ∀ body : List Statement, kindsAll (relabelAll ids spans body) = kindsAll body
  | [] => rfl
  | s :: rest => by simp [relabelAll, kindsAll, kinds_relabel s, kindsAll_relabelAll rest]

end

@[simp]
theorem Item.kinds_relabel (i : Item) : (i.relabel ids spans).kinds = i.kinds := by
  cases i with
  | assign a => exact a.kinds_relabel ids spans
  | rule r => simp [relabel, kinds, Statement.kindsAll_relabelAll]

@[simp]
theorem Sheet.kinds_bare (sheet : Sheet) : sheet.bare.kinds = sheet.kinds := by
  simp [bare, relabel, kinds, List.flatMap_map]

end Relabel

namespace Grammar

variable {e : Expr} {ks : List Token.Kind}

theorem Value.kinds {k : Token.Kind} (h : Value k e) : e.kinds = [k] := by
  -- A colour is kept with its hash, which is no part of the token.
  cases h <;> simp [literal, Expr.kinds, Literal.kind]

theorem Term.kinds (h : Term ks e) : e.kinds = ks := by
  induction h with
  | value h => exact h.kinds
  | times hlhs hrhs ih => simp [operation, Expr.kinds, Operator.mark, ih, hrhs.kinds]

theorem Sum.kinds (h : Sum ks e) : e.kinds = ks := by
  induction h with
  | term h => exact h.kinds
  | operation hlhs hmark hrhs ih =>
    cases hmark <;> simp [Grammar.operation, Expr.kinds, Operator.mark, ih, hrhs.kinds]

theorem Assign.kinds {a : Assignment} (h : Assign ks a) : a.kinds = ks := by
  cases h with
  | mk name h => simp [Assignment.kinds, h.kinds]

mutual

theorem Member.kinds {ks : List Token.Kind} {s : Statement} : Member ks s → s.kinds = ks
  | .declare name h => by simp [Statement.kinds, h.kinds]
  | .assign h => h.kinds
  | .ifThen hcondition hbody => by
    simp [Statement.kinds, Statement.headed, hcondition.kinds, hbody.kinds]
  | .ifElse hcondition hbody halternative => by
    simp [Statement.kinds, Statement.headed, hcondition.kinds, hbody.kinds, halternative.kinds]

theorem Members.kinds {ks : List Token.Kind} {body : List Statement} :
    Members ks body → Statement.kindsAll body = ks
  | .one h => by simp [Statement.kindsAll, h.kinds]
  | .cons hfirst hrest => by simp [Statement.kindsAll, hfirst.kinds, hrest.kinds]

theorem Block.kinds {ks : List Token.Kind} {body : List Statement} :
    Block ks body → Statement.braced (Statement.kindsAll body) = ks
  | .mk h => by simp [Statement.braced, h.kinds]

end

theorem Item.kinds {i : TypedStyle.Item} (h : Item ks i) : i.kinds = ks := by
  cases h with
  | assign h => exact h.kinds
  | rule hselector hbody =>
    cases hselector <;> simp [TypedStyle.Item.kinds, Selector.kind, hbody.kinds]

theorem Sheet.kinds {sheet : TypedStyle.Sheet} (h : Sheet ks sheet) : sheet.kinds = ks := by
  -- The induction is on the derivation of the members.
  obtain ⟨items⟩ := sheet
  change Items ks items at h
  induction h with
  | one h => simp [TypedStyle.Sheet.kinds, h.kinds]
  | cons hfirst hrest ih =>
    simpa [TypedStyle.Sheet.kinds, hfirst.kinds] using ih

end Grammar

end TypedStyle
