import Mathlib.Data.List.Infix
import TypedStyle.Proofs.SpanBounds
import TypedStyle.Proofs.Spelling

/-!
# Tilings

What the pieces of a source are, said without reading it. A piece is a blank, a comment, a token or
a fault, and what comes behind it counts: a name that could go on is no piece, nor is a colon in
front of an equals sign. With that a source falls into pieces in exactly one way.
-/

namespace TypedStyle

/-! ## Spellings -/

namespace Lexeme

/-- A name that is read as a variable: a capital and variable characters, and no truth value. -/
def IsVariable (name : String) : Prop :=
  name ≠ "TRUE" ∧ name ≠ "FALSE" ∧
    ∃ c cs, name.toList = c :: cs ∧ c.isUpper ∧ ∀ x ∈ cs, isVariableChar x

/-- The digits of a number. -/
structure IsDigits (digits : List Char) : Prop where
  ne_nil : digits ≠ []
  isDigit : ∀ x ∈ digits, x.isDigit

/-- What stands behind the digits of a number of each kind. -/
inductive IsUnit : (Int → Token.Kind) → List Char → Prop
  | pixel : IsUnit .pixel ['p', 'x']
  | percentage : IsUnit .percentage ['%']
  | scalar : IsUnit .scalar []

end Lexeme

open Lexeme

namespace Token.Kind

/-- The text is a spelling of the token. A number may have zeros in front. -/
inductive SpelledAs : Token.Kind → List Char → Prop
  | lower {name : String} (h : IsWord name) : SpelledAs (.lower name) name.toList
  | capital {name : String} (h : IsVariable name) : SpelledAs (.capital name) name.toList
  | dotted {name : String} (h : IsMarked name) : SpelledAs (.dotted name) ('.' :: name.toList)
  | hash {name : String} (h : IsMarked name) : SpelledAs (.hash name) ('#' :: name.toList)
  | number {digits suffix : List Char} {kind : Int → Token.Kind} (h : IsDigits digits)
      (hunit : IsUnit kind suffix) (hle : Nat.ofDigitChars 10 digits 0 ≤ largest) :
      SpelledAs (kind (Nat.ofDigitChars 10 digits 0)) (digits ++ suffix)
  | bool (b : Bool) : SpelledAs (.bool b) (if b then "TRUE" else "FALSE").toList
  | keyword (word : Keyword) : SpelledAs (.keyword word) word.text.toList
  | punct (mark : Punct) : SpelledAs (.punct mark) mark.text.toList

/-- The token is at its end in front of the text: no longer one could be read. -/
def EndsBefore (kind : Token.Kind) (after : List Char) : Prop :=
  match kind with
  | .lower _ | .keyword _ => Stops isNameChar after
  | .capital _ | .bool _ => Stops isVariableChar after
  | .dotted _ | .hash _ => Stops isMarkedChar after
  | .scalar _ => Stops Char.isDigit after ∧ ¬['p', 'x'] <+: after ∧ ¬['%'] <+: after
  | .punct .colon => ¬['='] <+: after
  | _ => True

end Token.Kind

namespace Lexeme

variable {c : Char} {text inner found rest after : List Char} {mark : Punct}

/-- No blank, comment, token or nameless mark starts with the character in front of the text. -/
structure IsStray (c : Char) (after : List Char) : Prop where
  blank : Text.isBlank c = false
  lower : c.isLower = false
  upper : c.isUpper = false
  digit : c.isDigit = false
  dot : c ≠ '.'
  hash : c ≠ '#'
  comment : ¬['/', '*'] <+: c :: after
  punct : ∀ mark : Punct, ¬mark.text.toList <+: c :: after

/-- The lexeme is a piece of a source that goes on with `after`. -/
inductive Stands : Lexeme → List Char → Prop
  | blank {c : Char} {after : List Char} (h : Text.isBlank c) : Stands ⟨[c], .skipped⟩ after
  | comment {inner after : List Char} (h : ¬['*', '/'] <:+: inner) :
      Stands ⟨'/' :: '*' :: (inner ++ ['*', '/']), .skipped⟩ after
  | token {kind : Token.Kind} {text after : List Char} (h : kind.SpelledAs text)
      (hends : kind.EndsBefore after) : Stands ⟨text, .token kind⟩ after
  | clipped {digits suffix after : List Char} {kind : Int → Token.Kind} (h : IsDigits digits)
      (hunit : IsUnit kind suffix) (hlt : largest < Nat.ofDigitChars 10 digits 0)
      (hends : (kind 0).EndsBefore after) : Stands ⟨digits ++ suffix, .clipped (kind 0)⟩ after
  | unclosed {inner : List Char} (h : ¬['*', '/'] <:+: inner) :
      Stands ⟨'/' :: '*' :: inner, .fault .unterminatedComment⟩ []
  | nameless {c : Char} {after : List Char} (h : c = '.' ∨ c = '#')
      (hstop : Stops isMarkedChar after) : Stands ⟨[c], .fault (.nameExpected c)⟩ after
  | stray {c : Char} {after : List Char} (h : IsStray c after) :
      Stands ⟨[c], .fault .unexpectedCharacter⟩ after

/-! ## Comments -/

theorem closing_infix_cons :
    ['*', '/'] <:+: c :: text ↔ (c = '*' ∧ text.head? = some '/') ∨ ['*', '/'] <:+: text := by
  rw [List.infix_cons_iff, List.cons_prefix_cons, eq_comm]
  cases text with
  | nil => simp
  | cons x text => simp [List.cons_prefix_cons, eq_comm]

theorem closing?_eq_none_iff : closing? text = none ↔ ¬['*', '/'] <:+: text := by
  induction text using closing?.induct with
  | case1 => simp [closing?]
  | case2 rest => simp [closing?, closing_infix_cons]
  | case3 c text hne ih =>
    have hhead : ¬(c = '*' ∧ text.head? = some '/') := by
      rintro ⟨hc, htext⟩
      obtain ⟨tail, rfl⟩ := List.head?_eq_some_iff.1 htext
      exact hne tail hc rfl
    rw [closing?.eq_3 _ _ hne, Option.map_eq_none_iff, ih, closing_infix_cons, or_iff_right hhead]

theorem closing?_append_closing (h : ¬['*', '/'] <:+: inner) (after : List Char) :
    closing? (inner ++ '*' :: '/' :: after) = some (inner ++ ['*', '/'], after) := by
  induction inner with
  | nil => rfl
  | cons c inner ih =>
    rw [closing_infix_cons, not_or] at h
    -- The star of the closing is no slash, so none is found across the border.
    have hne : ∀ tail, c = '*' → inner ++ '*' :: '/' :: after = '/' :: tail → False := by
      intro tail hc htail
      cases inner with
      | nil => simp at htail
      | cons x inner => exact h.1 ⟨hc, congrArg some (List.cons.inj htail).1⟩
    rw [List.cons_append, closing?.eq_3 _ _ hne, ih h.2]
    rfl

theorem exists_inner_of_closing? (h : closing? text = some (found, rest)) :
    ∃ inner, found = inner ++ ['*', '/'] ∧ ¬['*', '/'] <:+: inner := by
  induction text using closing?.induct generalizing found with
  | case1 => simp [closing?] at h
  | case2 =>
    simp only [closing?, Option.some.injEq, Prod.mk.injEq] at h
    exact ⟨[], h.1.symm, by simp⟩
  | case3 c text hne ih =>
    rw [closing?.eq_3 _ _ hne] at h
    simp only [Option.map_eq_some_iff, Prod.mk.injEq] at h
    obtain ⟨⟨found', rest'⟩, hclose, rfl, rfl⟩ := h
    obtain ⟨inner, rfl, hinner⟩ := ih hclose
    refine ⟨c :: inner, rfl, ?_⟩
    rw [closing_infix_cons, not_or]
    refine ⟨?_, hinner⟩
    rintro ⟨hc, hhead⟩
    -- The text would go on with the slash, so that a closing would start here.
    obtain ⟨tail, rfl⟩ := List.head?_eq_some_iff.1 hhead
    exact hne _ hc (append_of_closing? hclose).symm

theorem comment?_eq_none_iff : comment? c rest = none ↔ ¬['/', '*'] <+: c :: rest := by
  unfold comment?
  split
  · split <;> simp
  · next hne =>
    simp only [true_iff]
    rintro ⟨tail, htail⟩
    obtain ⟨rfl, rfl⟩ := List.cons.inj htail
    exact hne tail rfl rfl

theorem stands_comment? {l : Lexeme} (h : comment? c text = some (l, rest)) : Stands l rest := by
  unfold comment? at h
  split at h
  · split at h
    · next hclose =>
      obtain ⟨rfl, rfl⟩ := Prod.mk.inj (Option.some.inj h)
      obtain ⟨inner, rfl, hinner⟩ := exists_inner_of_closing? hclose
      exact .comment hinner
    · next hclose =>
      obtain ⟨rfl, rfl⟩ := Prod.mk.inj (Option.some.inj h)
      exact .unclosed (closing?_eq_none_iff.1 hclose)
  · cases h

theorem next_slash (rest : List Char) {found : Lexeme × List Char}
    (h : comment? '/' rest = some found) : next '/' rest = found := by
  have hblank : Text.isBlank '/' = false := by decide
  simp [next, hblank, h]

theorem ahead_comment (h : ¬['*', '/'] <:+: inner) (after : List Char) :
    Ahead ⟨'/' :: '*' :: (inner ++ ['*', '/']), .skipped⟩ after := by
  refine .of_next (next_slash _ ?_)
  simp [comment?, closing?_append_closing h after]

theorem ahead_unclosed (h : ¬['*', '/'] <:+: inner) :
    Ahead ⟨'/' :: '*' :: inner, .fault .unterminatedComment⟩ [] := by
  refine .of_next (next_slash _ ?_)
  simp [comment?, closing?_eq_none_iff.2 h]

/-! ## Names -/

theorem text_of_ofText? {name : String} {word : Keyword} (h : Keyword.ofText? name = some word) :
    word.text = name := by
  unfold Keyword.ofText? at h
  split at h
  · next hname => rw [hname, ← Option.some.inj h, Keyword.text]
  · split at h
    · next hname => rw [hname, ← Option.some.inj h, Keyword.text]
    · cases h

theorem spelledAs_wordKind (hc : c.isLower) {cs : List Char} (hcs : ∀ x ∈ cs, isNameChar x) :
    (wordKind (String.ofList (c :: cs))).SpelledAs (c :: cs) := by
  have hlist : (String.ofList (c :: cs)).toList = c :: cs := String.toList_ofList
  have hlegible := legible_wordKind hc hcs
  unfold wordKind at hlegible ⊢
  split
  · next word hword =>
    have hkeyword := Token.Kind.SpelledAs.keyword word
    rwa [text_of_ofText? hword, hlist] at hkeyword
  · next hword =>
    rw [hword] at hlegible
    have hname := Token.Kind.SpelledAs.lower hlegible
    rwa [hlist] at hname

theorem endsBefore_wordKind (h : Stops isNameChar after) (name : String) :
    (wordKind name).EndsBefore after := by
  unfold wordKind
  split <;> exact h

theorem spelledAs_variableKind (hc : c.isUpper) {cs : List Char}
    (hcs : ∀ x ∈ cs, isVariableChar x) :
    (variableKind (String.ofList (c :: cs))).SpelledAs (c :: cs) := by
  have hlist : (String.ofList (c :: cs)).toList = c :: cs := String.toList_ofList
  unfold variableKind
  split
  · next htrue =>
    rw [← hlist, htrue]
    exact .bool true
  · next htrue =>
    split
    · next hfalse =>
      rw [← hlist, hfalse]
      exact .bool false
    · next hfalse =>
      have hname := Token.Kind.SpelledAs.capital ⟨htrue, hfalse, c, cs, hlist, hc, hcs⟩
      rwa [hlist] at hname

theorem endsBefore_variableKind (h : Stops isVariableChar after) (name : String) :
    (variableKind name).EndsBefore after := by
  unfold variableKind
  split
  · exact h
  · split <;> exact h

theorem stands_marked (hc : c = '.' ∨ c = '#') (rest : List Char) :
    Stands (marked c rest).1 (marked c rest).2 := by
  have hstop := Stops.dropWhile isMarkedChar rest
  unfold marked
  split
  · next hnone =>
    -- There is no name, so what follows is the whole rest.
    refine .nameless hc ?_
    rwa [← List.takeWhile_append_dropWhile (p := isMarkedChar) (l := rest), hnone,
      List.nil_append]
  · next name hname =>
    have hmarked : IsMarked (String.ofList (rest.takeWhile isMarkedChar)) := by
      rw [IsMarked, String.toList_ofList]
      exact ⟨hname, fun x hx => List.mem_takeWhile_imp hx⟩
    rcases hc with rfl | rfl
    · have hspelled := Token.Kind.SpelledAs.dotted hmarked
      rw [String.toList_ofList] at hspelled
      exact .token hspelled hstop
    · have hspelled := Token.Kind.SpelledAs.hash hmarked
      rw [String.toList_ofList] at hspelled
      exact .token hspelled hstop

theorem ahead_nameless (hc : c = '.' ∨ c = '#') (hstop : Stops isMarkedChar after) :
    Ahead ⟨[c], .fault (.nameExpected c)⟩ after := by
  have hnone : ([] ++ after).takeWhile isMarkedChar = [] := takeWhile_stop (by simp) hstop
  refine .of_next ?_
  rw [next_of_mark hc, marked, hnone]
  rfl

/-! ## Numbers -/

theorem isUnit_unit (text : List Char) : IsUnit (unit text).1 (unit text).2.1 := by
  unfold unit
  split
  · exact .pixel
  · exact .percentage
  · exact .scalar

theorem endsBefore_unit (h : Stops Char.isDigit text) (n : Int) :
    ((unit text).1 n).EndsBefore (unit text).2.2 := by
  unfold unit
  split
  · trivial
  · trivial
  · next hpixel hpercentage =>
    refine ⟨h, ?_, ?_⟩
    · rintro ⟨rest, hrest⟩
      exact hpixel rest hrest.symm
    · rintro ⟨rest, hrest⟩
      exact hpercentage rest hrest.symm

theorem unit_append {kind : Int → Token.Kind} {suffix : List Char} (hunit : IsUnit kind suffix)
    {n : Int} (hends : (kind n).EndsBefore after) :
    unit (suffix ++ after) = (kind, suffix, after) := by
  cases hunit with
  | pixel => rfl
  | percentage => rfl
  | scalar =>
    obtain ⟨-, hpixel, hpercentage⟩ := hends
    exact unit.eq_3 _ (fun rest hrest => hpixel ⟨rest, hrest.symm⟩)
      fun rest hrest => hpercentage ⟨rest, hrest.symm⟩

theorem stops_unit {kind : Int → Token.Kind} {suffix : List Char} (hunit : IsUnit kind suffix)
    {n : Int} (hends : (kind n).EndsBefore after) : Stops Char.isDigit (suffix ++ after) := by
  cases hunit with
  | pixel => exact .cons rfl _
  | percentage => exact .cons rfl _
  | scalar => exact hends.1

theorem stands_number (hc : c.isDigit) (rest : List Char) :
    Stands (number c rest).1 (number c rest).2 := by
  have hdigits : IsDigits (c :: rest.takeWhile Char.isDigit) := by
    refine ⟨by simp, fun x hx => ?_⟩
    rcases List.mem_cons.1 hx with rfl | hx
    · exact hc
    · exact List.mem_takeWhile_imp hx
  have hunit := isUnit_unit (rest.dropWhile Char.isDigit)
  have hends := endsBefore_unit (Stops.dropWhile Char.isDigit rest)
  simp only [number, decimal_eq]
  split
  · next hle => exact .token (.number hdigits hunit hle) (hends _)
  · next hle => exact .clipped hdigits hunit (Nat.lt_of_not_le hle) (hends 0)

/-! ## Punctuation -/

theorem text_of_punct? (h : punct? c text = some (mark, found, rest)) :
    found = mark.text.toList := by
  unfold punct? at h
  split at h
  case h_11 => cases h
  all_goals
    cases h
    rfl

theorem endsBefore_punct? (h : punct? c text = some (mark, found, rest)) :
    (Token.Kind.punct mark).EndsBefore rest := by
  unfold punct? at h
  split at h
  case h_6 hequals =>
    cases h
    rintro ⟨tail, htail⟩
    exact hequals tail htail.symm
  case h_11 => cases h
  all_goals
    cases h
    trivial

theorem punct?_eq_none_iff :
    punct? c rest = none ↔ ∀ mark : Punct, ¬mark.text.toList <+: c :: rest := by
  constructor
  · rintro h mark ⟨tail, htail⟩
    cases mark with
    | colon =>
      -- A colon looks at what follows it, but it starts a mark either way.
      have hcons : ':' :: tail = c :: rest := htail
      obtain ⟨rfl, rfl⟩ := List.cons.inj hcons
      unfold punct? at h
      split at h
      case h_11 => contradiction
      all_goals cases h
    | _ =>
      obtain ⟨rfl, rfl⟩ := List.cons.inj htail
      cases h
  · intro h
    cases hpunct : punct? c rest with
    | none => rfl
    | some found =>
      have htext := append_of_punct? hpunct
      rw [text_of_punct? hpunct] at htext
      exact absurd ⟨_, htext⟩ (h found.1)

theorem next_of_punct? (h : punct? c rest = some (mark, found, after)) :
    next c rest = (⟨found, .token (.punct mark)⟩, after) := by
  -- No mark is the first character of anything else.
  obtain ⟨hblank, hcomment, hlower, hupper, hdigit, hname⟩ :
      Text.isBlank c = false ∧ comment? c rest = none ∧ c.isLower = false ∧ c.isUpper = false ∧
        c.isDigit = false ∧ ¬(c = '.' ∨ c = '#') := by
    unfold punct? at h
    split at h
    case h_11 => cases h
    all_goals exact ⟨rfl, rfl, rfl, rfl, rfl, by decide⟩
  simp [next, hblank, hcomment, hlower, hupper, hdigit, hname, h]

theorem ahead_punct (hends : (Token.Kind.punct mark).EndsBefore after) :
    Ahead ⟨mark.text.toList, .token (.punct mark)⟩ after := by
  cases mark with
  | colon =>
    exact .of_next (next_of_punct? (punct?.eq_6 _ fun tail htail => hends ⟨tail, htail.symm⟩))
  | _ => exact .of_next rfl

/-! ## Pieces -/

/-- What is read is a piece of the source. -/
theorem stands_next (c : Char) (rest : List Char) :
    Stands (next c rest).1 (next c rest).2 := by
  -- One case for each branch. The last one is left with all that the others were not.
  unfold next
  split
  · next hblank => exact .blank hblank
  · next hblank =>
    split
    · next found hcomment => exact stands_comment? hcomment
    · next hcomment =>
      split
      · next hlower =>
        exact .token (spelledAs_wordKind hlower fun x hx => List.mem_takeWhile_imp hx)
          (endsBefore_wordKind (.dropWhile _ _) _)
      · next hlower =>
        split
        · next hupper =>
          exact .token (spelledAs_variableKind hupper fun x hx => List.mem_takeWhile_imp hx)
            (endsBefore_variableKind (.dropWhile _ _) _)
        · next hupper =>
          split
          · next hdigit => exact stands_number hdigit rest
          · next hdigit =>
            split
            · next hmark => exact stands_marked hmark rest
            · next hmark =>
              split
              · next mark _ _ hpunct =>
                have hspelled := Token.Kind.SpelledAs.punct mark
                rw [← text_of_punct? hpunct] at hspelled
                exact .token hspelled (endsBefore_punct? hpunct)
              · next hpunct =>
                exact .stray {
                  blank := by simpa using hblank
                  lower := by simpa using hlower
                  upper := by simpa using hupper
                  digit := by simpa using hdigit
                  dot := fun hdot => hmark (.inl hdot)
                  hash := fun hhash => hmark (.inr hhash)
                  comment := comment?_eq_none_iff.1 hcomment
                  punct := punct?_eq_none_iff.1 hpunct }

theorem ahead_stray (h : IsStray c after) : Ahead ⟨[c], .fault .unexpectedCharacter⟩ after := by
  refine .of_next ?_
  simp [next, h.blank, comment?_eq_none_iff.2 h.comment, h.lower, h.upper, h.digit, h.dot, h.hash,
    punct?_eq_none_iff.2 h.punct]

end Lexeme

/-- A spelling of a token is read as the token, if the token is at its end behind it. -/
theorem Token.Kind.SpelledAs.ahead {kind : Token.Kind} {text after : List Char}
    (h : kind.SpelledAs text) (hends : kind.EndsBefore after) : Ahead ⟨text, .token kind⟩ after := by
  cases h with
  | lower h => exact ahead_word h hends
  | capital h =>
    obtain ⟨htrue, hfalse, c, cs, hname, hc, hcs⟩ := h
    have hahead := ahead_variableKind hc hcs hends
    rwa [← hname, String.ofList_toList, variableKind, if_neg htrue, if_neg hfalse] at hahead
  | dotted h => exact ahead_marked (.inl rfl) h hends
  | hash h => exact ahead_marked (.inr rfl) h hends
  | number h hunit hle =>
    have hahead := ahead_digits h.ne_nil h.isDigit (stops_unit hunit hends) (unit_append hunit hends)
    rwa [decimal_eq, if_pos hle] at hahead
  | bool b =>
    cases b with
    | false =>
      have hchars : ∀ x ∈ ['A', 'L', 'S', 'E'], isVariableChar x := List.all_eq_true.1 rfl
      exact ahead_variableKind (c := 'F') rfl hchars hends
    | true =>
      have hchars : ∀ x ∈ ['R', 'U', 'E'], isVariableChar x := List.all_eq_true.1 rfl
      exact ahead_variableKind (c := 'T') rfl hchars hends
  | keyword word =>
    cases word with
    | ifWord =>
      have hchars : ∀ x ∈ ['f'], isNameChar x := List.all_eq_true.1 rfl
      exact ahead_wordKind (c := 'i') rfl hchars hends
    | elseWord =>
      have hchars : ∀ x ∈ ['l', 's', 'e'], isNameChar x := List.all_eq_true.1 rfl
      exact ahead_wordKind (c := 'e') rfl hchars hends
  | punct mark => exact ahead_punct hends

namespace Lexeme

variable {l : Lexeme} {after : List Char}

/-- A piece of the source is read. -/
theorem Stands.ahead (h : Stands l after) : l.Ahead after := by
  cases h with
  | blank h => exact ahead_blank h after
  | comment h => exact ahead_comment h after
  | token h hends => exact h.ahead hends
  | clipped h hunit hlt hends =>
    have hahead := ahead_digits h.ne_nil h.isDigit (stops_unit hunit hends) (unit_append hunit hends)
    rwa [decimal_eq, if_neg (Nat.not_le_of_lt hlt)] at hahead
  | unclosed h => exact ahead_unclosed h
  | nameless h hstop => exact ahead_nameless h hstop
  | stray h => exact ahead_stray h

theorem Stands.text_ne_nil (h : Stands l after) : l.text ≠ [] := by
  intro hnil
  have hahead := h.ahead
  rw [Ahead, hnil, List.nil_append] at hahead
  simpa using congrArg List.length hahead

/-! ## Tilings of a text -/

theorem byteSize_text_pos (h : Stands l after) : 0 < Text.byteSize l.text := by
  obtain ⟨c, cs, htext⟩ := List.exists_cons_of_ne_nil h.text_ne_nil
  have hpos := c.utf8Size_pos
  rw [htext, Text.byteSize_cons]
  omega

/-- Lexemes with their spans that are the pieces of a text, in order and without gap. The text
stands at the byte `start`. -/
inductive Tiled : Nat → List Char → List (Lexeme × Span) → Prop
  | nil (start : Nat) : Tiled start [] []
  | cons {start : Nat} {l : Lexeme} {after : List Char} {pieces : List (Lexeme × Span)}
      (h : Stands l after) (hrest : Tiled (start + Text.byteSize l.text) after pieces) :
      Tiled start (l.text ++ after) ((l, ⟨start, start + Text.byteSize l.text⟩) :: pieces)

theorem tiled_iff {start : Nat} {text : List Char} {pieces : List (Lexeme × Span)} :
    Tiled start text pieces ↔ pieces = place start (lexemes text) := by
  -- Along the pieces, each of which is read, and along the reading, which gives pieces.
  constructor
  · intro h
    induction h with
    | nil start => simp [lexemes, place]
    | cons h hrest ih =>
      have hahead := h.ahead
      rw [Ahead] at hahead
      rw [hahead, place, ih]
  · rintro rfl
    fun_induction lexemes text generalizing start with
    | case1 => exact .nil start
    | case2 c rest ih =>
      have htiled := Tiled.cons (stands_next c rest) (@ih (start + _))
      rwa [append_next] at htiled

namespace Tiled

variable {start : Nat} {text : List Char} {pieces : List (Lexeme × Span)}

theorem lt_stop (h : Tiled start text pieces) :
    ∀ x ∈ pieces, start ≤ x.2.start ∧ x.2.start < x.2.stop := by
  induction h with
  | nil start => simp
  | cons h hrest ih =>
    have hpos := byteSize_text_pos h
    intro x hx
    rcases List.mem_cons.1 hx with rfl | hx
    · exact ⟨Nat.le_refl _, Nat.lt_add_of_pos_right hpos⟩
    · obtain ⟨hstart, hlt⟩ := ih x hx
      exact ⟨by omega, hlt⟩

theorem pairwise (h : Tiled start text pieces) :
    pieces.Pairwise fun x y => x.2.stop ≤ y.2.start := by
  induction h with
  | nil start => exact .nil
  | cons h hrest ih => exact .cons (fun y hy => (hrest.lt_stop y hy).1) ih

theorem filter_span (h : Tiled start text pieces) {x : Lexeme × Span} (hx : x ∈ pieces) :
    (pieces.filterMap diagnostic?).filter (fun d => d.span = x.2) = (diagnostic? x).toList := by
  have hlt := h.lt_stop
  have hpairwise := h.pairwise
  obtain ⟨front, back, rfl⟩ := List.append_of_mem hx
  rw [List.pairwise_append, List.pairwise_cons] at hpairwise
  obtain ⟨-, ⟨hback, -⟩, hfront⟩ := hpairwise
  have hother (others : List (Lexeme × Span)) (hne : ∀ y ∈ others, y.2 ≠ x.2) :
      (others.filterMap diagnostic?).filter (fun d => d.span = x.2) = [] := by
    rw [List.filter_eq_nil_iff]
    intro d hd
    obtain ⟨y, hy, hdiagnostic⟩ := List.mem_filterMap.1 hd
    simpa [span_of_diagnostic? hdiagnostic] using hne y hy
  have hself : ([x].filterMap diagnostic?).filter (fun d => d.span = x.2) =
      (diagnostic? x).toList := by
    cases hdiagnostic : diagnostic? x with
    | none => simp [hdiagnostic]
    | some d => simp [hdiagnostic, span_of_diagnostic? hdiagnostic]
  -- A piece that is not empty has not the span of one before it or behind it.
  have hx := (hlt x hx).2
  have hfront' : ∀ y ∈ front, y.2 ≠ x.2 := by
    intro y hy hspan
    have hle := hfront y hy x List.mem_cons_self
    rw [hspan] at hle
    omega
  have hback' : ∀ y ∈ back, y.2 ≠ x.2 := by
    intro y hy hspan
    have hle := hback y hy
    rw [hspan] at hle
    omega
  rw [← List.singleton_append, List.filterMap_append, List.filterMap_append, List.filter_append,
    List.filter_append, hother front hfront', hother back hback', hself, List.nil_append,
    List.append_nil]

end Tiled

end Lexeme

/-- A source falls into pieces, in order and without gap: blanks, comments, tokens at their full
length, and faults. The tokens and diagnostics of the source are those of the pieces. No token is
empty, none reaches into the next one, each stands between characters, and the end of the source
comes behind them. A fault, and a number that is too large, is reported just once with its span. -/
theorem Token.scan_tiles (source : String) :
    ∃ (pieces : List (Lexeme × Span)) (body : List Token),
      Tiled 0 source.toList pieces ∧
      (scan source.toList).tokens =
        body ++ [⟨.eof, ⟨source.utf8ByteSize, source.utf8ByteSize⟩⟩] ∧
      body = pieces.filterMap token? ∧
      (∀ t ∈ body, t.kind ≠ .eof ∧ t.span.start < t.span.stop ∧ t.span.FitsIn source) ∧
      body.Pairwise (fun t u => t.span.stop ≤ u.span.start) ∧
      (∀ d ∈ (scan source.toList).diagnostics, ∃ x ∈ pieces, diagnostic? x = some d) ∧
      ∀ x ∈ pieces, (scan source.toList).diagnostics.filter (fun d => d.span = x.2) =
        (diagnostic? x).toList := by
  have htiled : Tiled 0 source.toList (place 0 (lexemes source.toList)) := tiled_iff.2 rfl
  have hsize : Text.byteSize source.toList = source.utf8ByteSize := by
    rw [← Text.utf8ByteSize_ofList, String.ofList_toList]
  refine ⟨_, _, htiled, ?_, rfl, ?_, ?_, ?_, fun x hx => htiled.filter_span hx⟩
  · rw [scan, hsize]
  · intro t ht
    obtain ⟨x, hx, htoken⟩ := List.mem_filterMap.1 ht
    rw [span_of_token? htoken]
    refine ⟨?_, (htiled.lt_stop x hx).2, fitsIn_of_mem_place hx⟩
    -- The end of the source is the one token that is not legible.
    intro heof
    obtain ⟨body, last, htokens, -, -, hlegible⟩ := legible_scan source.toList
    obtain ⟨rfl, -⟩ := List.append_inj' htokens rfl
    have hfalse := hlegible t ht
    rw [heof] at hfalse
    exact hfalse
  · refine htiled.pairwise.filterMap _ ?_
    intro x y hle t ht u hu
    rw [span_of_token? ht, span_of_token? hu]
    exact hle
  · exact fun d hd => List.mem_filterMap.1 hd

/-- Zeros in front of a number, a number that is too large, and all three faults. -/
example : Token.scan "007px 9223372036854775808% . ?/*".toList =
    { tokens := [⟨.pixel 7, ⟨0, 5⟩⟩, ⟨.percentage 0, ⟨6, 26⟩⟩, ⟨.eof, ⟨32, 32⟩⟩]
      diagnostics := [.ofText ⟨6, 26⟩ .numberTooLarge, .ofText ⟨27, 28⟩ (.nameExpected '.'),
        .ofText ⟨29, 30⟩ .unexpectedCharacter, .ofText ⟨30, 32⟩ .unterminatedComment] } := by
  decide +kernel

end TypedStyle
