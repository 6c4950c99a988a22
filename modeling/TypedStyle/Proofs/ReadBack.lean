import TypedStyle.Proofs.Layout
import TypedStyle.Proofs.Spacing

/-!
# Reading an expression back

An expression is written without brackets, so its text says which values and operators there are
and in which order, but not how they are grouped. Reading groups them in its own way: products
before sums, and both from the left. So an expression is read back as it was if and only if it is
grouped in this way, and otherwise as another one that is.

The text is taken apart by `Expr.spelling`, the lexemes that it is made of. Their tokens are those
of some derivation (`Expr.Readable.exists_sum`), whatever the grouping, because another operator and
another value prolong every derivation (`Grammar.Sum.extend`). They are those of the expression
itself just if it is grouped.
-/

namespace TypedStyle

open Lexeme

/-! ## Leaves and operators -/

/-- A literal that is read as it is written. A truth value is not: it is written in small letters
and read in capitals. -/
def Literal.Readable : Literal → Prop
  | bool _ => False
  | color text => ∃ digits, Grammar.SixHexDigits digits ∧ text = "#" ++ digits
  | pixel n | percentage n | scalar n => IsNumber n

namespace Expr

/-- All literals and variables of an expression are read as they are written. -/
def Readable : Expr → Prop
  | literal _ _ value => value.Readable
  | reference _ _ name => IsVariable name
  | operation _ _ _ lhs rhs => lhs.Readable ∧ rhs.Readable

/-- The literals and variables of an expression, without labels, in the order of its text. -/
def leaves : Expr → List Expr
  | literal _ _ value => [Grammar.literal value]
  | reference _ _ name => [.reference .dummy .zero name]
  | operation _ _ _ lhs rhs => lhs.leaves ++ rhs.leaves

/-- The operators of an expression, in the order of its text. -/
def operators : Expr → List Operator
  | operation _ _ op lhs rhs => lhs.operators ++ op :: rhs.operators
  | _ => []

/-! ## Grouping -/

def isOperation : Expr → Bool
  | operation .. => true
  | _ => false

/-- Whether an expression is a sum or a difference. -/
def isSum : Expr → Bool
  | operation _ _ .multiply _ _ => false
  | operation .. => true
  | _ => false

/-- An expression is grouped as by reading: a factor is no sum, and on the right not even a product;
and what stands on the right in a sum is no sum. -/
def Grouped : Expr → Prop
  | operation _ _ .multiply lhs rhs => lhs.Grouped ∧ lhs.isSum = false ∧ rhs.isOperation = false
  | operation _ _ _ lhs rhs => lhs.Grouped ∧ rhs.Grouped ∧ rhs.isSum = false
  | _ => True

instance decidableGrouped : (e : Expr) → Decidable e.Grouped
  | literal .. | reference .. => .isTrue trivial
  | operation _ _ .multiply lhs rhs =>
    have := decidableGrouped lhs
    inferInstanceAs (Decidable (lhs.Grouped ∧ lhs.isSum = false ∧ rhs.isOperation = false))
  | operation _ _ .add lhs rhs | operation _ _ .subtract lhs rhs =>
    have := decidableGrouped lhs
    have := decidableGrouped rhs
    inferInstanceAs (Decidable (lhs.Grouped ∧ rhs.Grouped ∧ rhs.isSum = false))

/-! ### Labels do not matter -/

theorem isOperation_bare (e : Expr) : e.bare.isOperation = e.isOperation := by
  cases e <;> rfl

theorem isSum_bare (e : Expr) : e.bare.isSum = e.isSum := by
  cases e with
  | operation id span op lhs rhs => cases op <;> rfl
  | _ => rfl

theorem leaves_bare (e : Expr) : e.bare.leaves = e.leaves := by
  induction e with
  | operation id span op lhs rhs ihl ihr => exact congrArg₂ (· ++ ·) ihl ihr
  | _ => rfl

theorem operators_bare (e : Expr) : e.bare.operators = e.operators := by
  induction e with
  | operation id span op lhs rhs ihl ihr => exact congrArg₂ (· ++ op :: ·) ihl ihr
  | _ => rfl

theorem grouped_bare (e : Expr) : e.bare.Grouped ↔ e.Grouped := by
  induction e with
  | operation id span op lhs rhs ihl ihr =>
    have hbare : (operation id span op lhs rhs).bare =
        operation .dummy .zero op lhs.bare rhs.bare := rfl
    cases op <;> simp only [hbare, Grouped, ihl, ihr, isSum_bare, isOperation_bare]
  | _ => rfl

end Expr

/-! ## Lexemes -/

theorem Operator.text_mark (op : Operator) : op.mark.text = op.text := by
  cases op <;> rfl

namespace Literal.Readable

variable {value : Literal}

theorem grammar (h : value.Readable) : Grammar.Value value.kind (Grammar.literal value) := by
  cases value with
  | bool b => exact h.elim
  | color text =>
    obtain ⟨digits, hdigits, rfl⟩ := h
    simpa [kind] using Grammar.Value.color hdigits
  | pixel n => exact .pixel n
  | percentage n => exact .percentage n
  | scalar n => exact .scalar n

theorem spellable (h : value.Readable) : value.kind.Spellable := by
  cases value with
  | bool b => exact h.elim
  | color text =>
    obtain ⟨digits, hdigits, rfl⟩ := h
    simpa [kind] using show (Token.Kind.hash digits).Spellable from
      Css.isMarked_of_sixHexDigits hdigits
  | _ => exact h

theorem text_kind (h : value.Readable) : value.kind.text = value.text := by
  cases value with
  | bool b => exact h.elim
  | color text =>
    obtain ⟨digits, hdigits, rfl⟩ := h
    simp [kind, Token.Kind.text, text]
  | _ => rfl

end Literal.Readable

namespace Expr

def spelling : Expr → List Lexeme
  | literal _ _ value => [⟨value.text.toList, .token value.kind⟩]
  | reference _ _ name => [⟨name.toList, .token (.capital name)⟩]
  | operation _ _ op lhs rhs =>
    lhs.spelling ++ ⟨[' '], .skipped⟩ :: ⟨op.text.toList, .token (.punct op.mark)⟩ ::
      ⟨[' '], .skipped⟩ :: rhs.spelling

theorem flatMap_text_spelling (e : Expr) : e.spelling.flatMap Lexeme.text = e.text.toList := by
  induction e with
  | operation id span op lhs rhs ihl ihr => simp [spelling, text, ihl, ihr]
  | _ => simp [spelling, text]

theorem filterMap_kind?_spelling (e : Expr) : e.spelling.filterMap kind? = e.kinds := by
  induction e with
  | operation id span op lhs rhs ihl ihr =>
    rw [spelling, List.filterMap_append, ihl, kinds]
    exact congrArg (lhs.kinds ++ .punct op.mark :: ·) ihr
  | _ => rfl

theorem isClean_spelling (e : Expr) : ∀ l ∈ e.spelling, l.IsClean := by
  induction e with
  | operation id span op lhs rhs ihl ihr =>
    simp only [spelling, List.forall_mem_append, List.forall_mem_cons]
    exact ⟨ihl, .inl rfl, .inr ⟨_, rfl⟩, .inl rfl, ihr⟩
  | _ => exact List.forall_mem_singleton.2 (.inr ⟨_, rfl⟩)

/-- The text of a readable expression is taken apart into its lexemes, in front of space. -/
theorem Readable.reread {e : Expr} (h : e.Readable) {after : List Char} (hafter : IsSpaced after) :
    Reread e.spelling after := by
  induction e generalizing after with
  | literal id span value =>
    have hspelled := Token.Kind.spelledAs_text h.spellable
    rw [h.text_kind] at hspelled
    exact .cons (hspelled.ahead (hafter.endsBefore _)) (.nil after)
  | reference id span name =>
    exact .cons ((Token.Kind.SpelledAs.capital h).ahead (hafter.endsBefore _)) (.nil after)
  | operation id span op lhs rhs ihl ihr =>
    obtain ⟨hlhs, hrhs⟩ := h
    have hspace (text : List Char) : IsSpaced (' ' :: text) := by
      simp [IsSpaced, Text.isBlank]
    -- There is a blank on both sides of the operator.
    refine .append (ihl hlhs (hspace _)) (.cons (ahead_blank rfl _) (.cons ?_ (.cons
      (ahead_blank rfl _) (ihr hrhs hafter))))
    rw [← op.text_mark]
    exact ahead_punct ((hspace _).endsBefore _)

end Expr

theorem Token.scan_text {e : Expr} (h : e.Readable) :
    (scan e.text.toList).diagnostics = [] ∧
      ∃ last, Reader.Spells (scan e.text.toList).tokens e.kinds [last] ∧ last.kind = .eof := by
  have hlexemes : lexemes e.text.toList = e.spelling := by
    have hspaced : IsSpaced [] := by simp [IsSpaced]
    have hreread := h.reread hspaced
    rwa [Reread, e.flatMap_text_spelling, List.append_nil, lexemes, List.append_nil] at hreread
  refine ⟨diagnostics_scan (hlexemes ▸ e.isClean_spelling), ?_⟩
  obtain ⟨body, last, htokens, hlast, hkinds, -⟩ := legible_scan e.text.toList
  rw [hlexemes, e.filterMap_kind?_spelling] at hkinds
  exact ⟨last, ⟨body, htokens, hkinds⟩, hlast⟩

/-! ## Derivations -/

namespace Grammar

variable {k : Token.Kind} {e : Expr} {ks : List Token.Kind}

theorem Value.isOperation (h : Value k e) : e.isOperation = false := by
  cases h <;> rfl

theorem Value.operators (h : Value k e) : e.operators = [] := by
  cases h <;> rfl

theorem Term.grouped (h : Term ks e) : e.Grouped ∧ e.isSum = false := by
  induction h with
  | value h => cases h <;> exact ⟨trivial, rfl⟩
  | times hlhs hrhs ih => exact ⟨⟨ih.1, ih.2, hrhs.isOperation⟩, rfl⟩

theorem Sum.grouped (h : Sum ks e) : e.Grouped := by
  induction h with
  | term h => exact h.grouped.1
  | operation hlhs hmark hrhs ih => cases hmark <;> exact ⟨ih, hrhs.grouped⟩

/-- A derivation is prolonged by an operator and a value. A product takes the last term, and a sum
all that there is. -/
theorem Sum.extend {lhs : Expr} (h : Sum ks lhs) (op : Operator) {v : Expr} (hv : Value k v) :
    ∃ e, Sum (ks ++ [.punct op.mark, k]) e ∧ e.leaves = lhs.leaves ++ v.leaves ∧
      e.operators = lhs.operators ++ [op] := by
  have hoperators (op : Operator) (e : Expr) :
      (Grammar.operation op e v).operators = e.operators ++ [op] := by
    simp [Grammar.operation, Expr.operators, hv.operators]
  cases op with
  | add => exact ⟨_, .operation h .plus (.value hv), rfl, hoperators _ _⟩
  | subtract => exact ⟨_, .operation h .minus (.value hv), rfl, hoperators _ _⟩
  | multiply =>
    cases h with
    | term h => exact ⟨_, .term (h.times hv), rfl, hoperators _ _⟩
    | @operation ks ks' mark op lhs rhs hlhs hmark hrhs =>
      -- The sum was complete without the new factor, and has to be taken apart again.
      refine ⟨Grammar.operation op lhs (Grammar.operation .multiply rhs v), ?_, ?_, ?_⟩
      · simpa [Operator.mark] using Sum.operation hlhs hmark (hrhs.times hv)
      · simp [Grammar.operation, Expr.leaves]
      · simp [Grammar.operation, Expr.operators, hv.operators]

/-- A derivation is prolonged by an operator and the tokens of an expression. -/
theorem Sum.extend_kinds {lhs : Expr} (h : Sum ks lhs) (op : Operator) {rhs : Expr}
    (hrhs : rhs.Readable) :
    ∃ e, Sum (ks ++ .punct op.mark :: rhs.kinds) e ∧ e.leaves = lhs.leaves ++ rhs.leaves ∧
      e.operators = lhs.operators ++ op :: rhs.operators := by
  induction rhs generalizing ks lhs op with
  | literal id span value => exact h.extend op (v := literal value) hrhs.grammar
  | reference id span name =>
    exact h.extend op (v := .reference .dummy .zero name) (.variable name)
  | operation id span op' first last ihfirst ihlast =>
    -- The tokens of the operands follow one after the other, with the operator between them.
    obtain ⟨e, he, hleaves, hoperators⟩ := ihfirst h op hrhs.1
    obtain ⟨e', he', hleaves', hoperators'⟩ := ihlast he op' hrhs.2
    refine ⟨e', ?_, ?_, ?_⟩
    · simpa [Expr.kinds] using he'
    · rw [hleaves', hleaves, List.append_assoc, Expr.leaves]
    · rw [hoperators', hoperators, List.append_assoc, Expr.operators, List.cons_append]

end Grammar

namespace Expr

variable {e : Expr}

theorem Readable.exists_sum (h : e.Readable) :
    ∃ e', Grammar.Sum e.kinds e' ∧ e'.leaves = e.leaves ∧ e'.operators = e.operators := by
  induction e with
  | literal id span value => exact ⟨_, .term (.value h.grammar), rfl, rfl⟩
  | reference id span name => exact ⟨_, .term (.value (.variable name)), rfl, rfl⟩
  | operation id span op lhs rhs ihl ihr =>
    obtain ⟨e, he, hleaves, hoperators⟩ := ihl h.1
    obtain ⟨e', he', hleaves', hoperators'⟩ := he.extend_kinds op h.2
    exact ⟨e', he', by rw [hleaves', hleaves, leaves], by rw [hoperators', hoperators, operators]⟩

theorem Readable.exists_value (h : e.Readable) (hleaf : e.isOperation = false) :
    ∃ k, e.kinds = [k] ∧ Grammar.Value k e.bare := by
  cases e with
  | literal id span value => exact ⟨value.kind, rfl, h.grammar⟩
  | reference id span name => exact ⟨.capital name, rfl, .variable name⟩
  | operation id span op lhs rhs => cases hleaf

theorem Readable.sum_of_grouped (h : e.Readable) (hgrouped : e.Grouped) :
    Grammar.Sum e.kinds e.bare ∧ (e.isSum = false → Grammar.Term e.kinds e.bare) := by
  -- Only terms can be factors or stand on the right in a sum, which is why both are shown at once.
  induction e with
  | literal id span value =>
    have hterm := Grammar.Term.value h.grammar
    exact ⟨.term hterm, fun _ => hterm⟩
  | reference id span name =>
    have hterm := Grammar.Term.value (.variable name)
    exact ⟨.term hterm, fun _ => hterm⟩
  | operation id span op lhs rhs ihl ihr =>
    obtain ⟨hlhs, hrhs⟩ := h
    cases op with
    | multiply =>
      obtain ⟨hgrouped, hfactor, hleaf⟩ := hgrouped
      obtain ⟨k, hkinds, hvalue⟩ := hrhs.exists_value hleaf
      have hterm := ((ihl hlhs hgrouped).2 hfactor).times hvalue
      rw [← hkinds] at hterm
      exact ⟨.term hterm, fun _ => hterm⟩
    | add =>
      obtain ⟨hgrouped, hgrouped', hterm⟩ := hgrouped
      exact ⟨.operation (ihl hlhs hgrouped).1 .plus ((ihr hrhs hgrouped').2 hterm), nofun⟩
    | subtract =>
      obtain ⟨hgrouped, hgrouped', hterm⟩ := hgrouped
      exact ⟨.operation (ihl hlhs hgrouped).1 .minus ((ihr hrhs hgrouped').2 hterm), nofun⟩

/-- The text of a readable expression is read without a problem and to its end. What is read has the
same leaves and operators in the same order, and is grouped in the way of reading. So it is the
expression, up to labels, if and only if the expression is grouped in this way itself. -/
theorem reads_back (e : Expr) (h : e.Readable) :
    let scanned := Token.scan e.text.toList
    let read := (Reader.start scanned.tokens scanned.diagnostics).expr
    read.2.diagnostics = [] ∧ (∃ last, read.2.rest = [last] ∧ last.kind = .eof) ∧
      read.1.leaves = e.leaves ∧ read.1.operators = e.operators ∧ read.1.Grouped ∧
      (read.1.bare = e.bare ↔ e.Grouped) := by
  intro scanned read
  obtain ⟨hdiagnostics, last, hspells, hlast⟩ := Token.scan_text h
  -- Nothing but the end follows the tokens of the expression.
  have hread {e' : Expr} (hsum : Grammar.Sum e.kinds e') :
      read.1.bare = e' ∧ read.2.rest = [last] ∧ read.2.found = 0 := by
    have hfound : (Reader.start scanned.tokens scanned.diagnostics).found = 0 := by
      rw [Reader.found, Reader.start, hdiagnostics, List.length_nil]
    have hend : ∀ op : Operator, last.kind ≠ .punct op.mark := by simp [hlast]
    rw [← hfound]
    exact Reader.expr_of_grammar hsum hspells hend
  obtain ⟨e', hsum, hleaves, hoperators⟩ := h.exists_sum
  obtain ⟨hbare, hrest, hfound⟩ := hread hsum
  have hgrouped : read.1.Grouped := read.1.grouped_bare.1 (hbare ▸ hsum.grouped)
  refine ⟨List.length_eq_zero_iff.1 hfound, ⟨last, hrest, hlast⟩, ?_, ?_, hgrouped, ?_, ?_⟩
  · rw [← leaves_bare, hbare, hleaves]
  · rw [← operators_bare, hbare, hoperators]
  · intro heq
    rw [← grouped_bare, ← heq, grouped_bare]
    exact hgrouped
  · intro hgrouped
    exact (hread (h.sum_of_grouped hgrouped).1).1

/-- A product of a sum and a difference. Its text has no brackets to say so. -/
def bracketed : Expr :=
  .operation ⟨6⟩ .zero .multiply
    (.operation ⟨2⟩ .zero .add (.reference ⟨0⟩ .zero "Px_0")
      (.literal ⟨1⟩ .zero (.pixel 9223372036854775807)))
    (.operation ⟨5⟩ .zero .subtract (.literal ⟨3⟩ .zero (.scalar 0))
      (.literal ⟨4⟩ .zero (.color "#00fF7f")))

/-- What the same text stands for. -/
def regrouped : Expr :=
  .operation ⟨6⟩ .zero .subtract
    (.operation ⟨4⟩ .zero .add (.reference ⟨0⟩ .zero "Px_0")
      (.operation ⟨3⟩ .zero .multiply (.literal ⟨1⟩ .zero (.pixel 9223372036854775807))
        (.literal ⟨2⟩ .zero (.scalar 0))))
    (.literal ⟨5⟩ .zero (.color "#00fF7f"))

theorem reads_back_bracketed :
    let read (e : Expr) :=
      (Reader.start (Token.scan e.text.toList).tokens (Token.scan e.text.toList).diagnostics).expr
    bracketed.Readable ∧ regrouped.Readable ∧ bracketed.text = regrouped.text ∧
      ¬bracketed.Grouped ∧ regrouped.Grouped ∧
      (read regrouped).2.diagnostics = [] ∧ (read regrouped).1.bare = regrouped.bare ∧
      (read bracketed).1.bare ≠ bracketed.bare ∧
      (read bracketed).1.leaves = bracketed.leaves ∧
      (read bracketed).1.operators = [.add, .multiply, .subtract] := by
  have hvariable : IsVariable "Px_0" :=
    ⟨by decide, by decide, 'P', ['x', '_', '0'], rfl, rfl, List.all_eq_true.1 rfl⟩
  have hpixel : IsNumber 9223372036854775807 := ⟨by decide, by decide⟩
  have hscalar : IsNumber 0 := ⟨by decide, by decide⟩
  have hcolor : Literal.Readable (.color "#00fF7f") :=
    ⟨"00fF7f", (Reader.isColor_iff _).1 rfl, rfl⟩
  have hbracketed : bracketed.Readable := ⟨⟨hvariable, hpixel⟩, hscalar, hcolor⟩
  have hregrouped : regrouped.Readable := ⟨⟨hvariable, hpixel, hscalar⟩, hcolor⟩
  obtain ⟨-, -, hleaves, hoperators, -, hiff⟩ := reads_back bracketed hbracketed
  obtain ⟨hdiagnostics, -, -, -, -, hiff'⟩ := reads_back regrouped hregrouped
  have hungrouped : ¬bracketed.Grouped := by decide
  have hgrouped : regrouped.Grouped := by decide
  exact ⟨hbracketed, hregrouped, by decide, hungrouped, hgrouped, hdiagnostics, hiff'.2 hgrouped,
    fun h => hungrouped (hiff.1 h), hleaves, hoperators⟩

end Expr

end TypedStyle
