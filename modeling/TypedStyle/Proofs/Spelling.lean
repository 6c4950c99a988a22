import Mathlib.Data.List.TakeWhile
import TypedStyle.Token.Lexeme

/-!
# Spelling

How tokens are written, and that what is written is read back. A lexeme is read back if reading
its text gives the lexeme and stops behind it, and that depends on what comes next: a name goes on
as long as there are name characters, a number as long as there are digits.
-/

namespace TypedStyle

namespace Lexeme

variable {c : Char}

/-! ## Characters -/

theorem isLower_iff : c.isLower ↔ 97 ≤ c.toNat ∧ c.toNat ≤ 122 := by
  have hrange : c.isLower = (decide (97 ≤ c.val) && decide (c.val ≤ 122)) := rfl
  simp [hrange, UInt32.le_iff_toNat_le]

theorem isUpper_iff : c.isUpper ↔ 65 ≤ c.toNat ∧ c.toNat ≤ 90 := by
  have hrange : c.isUpper = decide (65 ≤ c.val ∧ c.val ≤ 90) := rfl
  simp [hrange, UInt32.le_iff_toNat_le]

theorem isDigit_iff : c.isDigit ↔ 48 ≤ c.toNat ∧ c.toNat ≤ 57 := by
  have hrange : c.isDigit = (decide (48 ≤ c.val) && decide (c.val ≤ 57)) := rfl
  simp [hrange, UInt32.le_iff_toNat_le]

/-- A character of ASCII that is seen by itself. -/
def IsVisible (c : Char) : Prop :=
  33 ≤ c.toNat ∧ c.toNat ≤ 126
deriving Decidable

theorem IsVisible.isBlank (h : IsVisible c) : Text.isBlank c = false := by
  obtain ⟨hlow, hhigh⟩ := h
  simp only [Text.isBlank, Bool.or_eq_false_iff, Bool.and_eq_false_iff, decide_eq_false_iff_not,
    beq_eq_false_iff_ne]
  omega

theorem isVisible_of_isDigit (h : c.isDigit) : IsVisible c := by
  have hrange := isDigit_iff.1 h
  exact ⟨by omega, by omega⟩

theorem isVisible_of_isMarkedChar (h : isMarkedChar c) : IsVisible c := by
  simp only [isMarkedChar, isNameChar, Bool.or_eq_true, isLower_iff, isUpper_iff, isDigit_iff,
    beq_iff_eq] at h
  unfold IsVisible
  rcases h with (((h | h) | rfl) | rfl) | h
  · omega
  · omega
  · decide
  · decide
  · omega

theorem isNameChar_of_isLower (h : c.isLower) : isNameChar c := by
  simp [isNameChar, h]

theorem isMarkedChar_of_isNameChar (h : isNameChar c) : isMarkedChar c := by
  simp [isMarkedChar, h]

/-! ## The next lexeme, by its first character -/

theorem comment?_eq_none (h : c ≠ '/') (rest : List Char) : comment? c rest = none := by
  unfold comment?
  split
  · exact absurd rfl h
  · rfl

theorem next_of_isLower (h : c.isLower) (rest : List Char) :
    next c rest = (⟨c :: rest.takeWhile isNameChar,
      .token (wordKind (String.ofList (c :: rest.takeWhile isNameChar)))⟩,
      rest.dropWhile isNameChar) := by
  have hrange := isLower_iff.1 h
  have hblank : Text.isBlank c = false := IsVisible.isBlank ⟨by omega, by omega⟩
  have hslash : c ≠ '/' := by
    rintro rfl
    exact absurd hrange (by decide)
  simp [next, hblank, comment?_eq_none hslash, h]

theorem next_of_isUpper (h : c.isUpper) (rest : List Char) :
    next c rest = (⟨c :: rest.takeWhile isVariableChar,
      .token (variableKind (String.ofList (c :: rest.takeWhile isVariableChar)))⟩,
      rest.dropWhile isVariableChar) := by
  have hrange := isUpper_iff.1 h
  have hblank : Text.isBlank c = false := IsVisible.isBlank ⟨by omega, by omega⟩
  have hslash : c ≠ '/' := by
    rintro rfl
    exact absurd hrange (by decide)
  have hlower : c.isLower = false := by
    rw [Bool.eq_false_iff, ne_eq, isLower_iff]
    omega
  simp [next, hblank, comment?_eq_none hslash, hlower, h]

theorem next_of_isDigit (h : c.isDigit) (rest : List Char) : next c rest = number c rest := by
  have hrange := isDigit_iff.1 h
  have hslash : c ≠ '/' := by
    rintro rfl
    exact absurd hrange (by decide)
  have hlower : c.isLower = false := by
    rw [Bool.eq_false_iff, ne_eq, isLower_iff]
    omega
  have hupper : c.isUpper = false := by
    rw [Bool.eq_false_iff, ne_eq, isUpper_iff]
    omega
  simp [next, (isVisible_of_isDigit h).isBlank, comment?_eq_none hslash, hlower, hupper, h]

theorem next_of_mark (h : c = '.' ∨ c = '#') (rest : List Char) : next c rest = marked c rest := by
  rcases h with rfl | rfl <;> rfl

end Lexeme

/-! ## What tokens hold -/

/-- A name that is read as a small name: a small letter and name characters, and no keyword. -/
def Lexeme.IsWord (name : String) : Prop :=
  Keyword.ofText? name = none ∧
    ∃ c cs, name.toList = c :: cs ∧ c.isLower ∧ ∀ x ∈ cs, isNameChar x

/-- A name that is read behind a dot or a hash. -/
def Lexeme.IsMarked (name : String) : Prop :=
  name.toList ≠ [] ∧ ∀ x ∈ name.toList, isMarkedChar x

/-- A number that a token holds. -/
def Lexeme.IsNumber (n : Int) : Prop :=
  0 ≤ n ∧ n ≤ largest

/-- What a token of a source can hold. The end of the source is not written. -/
def Token.Kind.Legible : Token.Kind → Prop
  | .lower name => Lexeme.IsWord name
  | .dotted name | .hash name => Lexeme.IsMarked name
  | .pixel n | .percentage n | .scalar n => Lexeme.IsNumber n
  | .eof => False
  | _ => True

namespace Lexeme

variable {c : Char} {rest : List Char} {kind : Token.Kind}

def kind? (l : Lexeme) : Option Token.Kind :=
  match l.reading with
  | .token kind | .clipped kind => some kind
  | _ => none

theorem legible_wordKind {cs : List Char} (hc : c.isLower) (hcs : ∀ x ∈ cs, isNameChar x) :
    (wordKind (String.ofList (c :: cs))).Legible := by
  unfold wordKind
  split
  · trivial
  · next hword => exact ⟨hword, c, cs, String.toList_ofList, hc, hcs⟩

theorem legible_unit {text : List Char} {n : Int} (h : IsNumber n) : ((unit text).1 n).Legible := by
  unfold unit
  split <;> exact h

theorem legible_number (h : (number c rest).1.kind? = some kind) : kind.Legible := by
  simp only [number, kind?] at h
  split at h
  · next hkind =>
    obtain rfl := Option.some.inj h
    split at hkind
    · next hle =>
      obtain rfl := Reading.token.inj hkind
      exact legible_unit ⟨Int.natCast_nonneg _, Int.ofNat_le.2 hle⟩
    · cases hkind
  · next hkind =>
    -- A number that is too large is reported, and read as zero.
    obtain rfl := Option.some.inj h
    split at hkind
    · cases hkind
    · obtain rfl := Reading.clipped.inj hkind
      exact legible_unit ⟨Int.le_refl 0, by decide⟩
  · cases h

theorem legible_marked (h : (marked c rest).1.kind? = some kind) : kind.Legible := by
  unfold marked at h
  split at h
  · cases h
  · next hname =>
    have hmarked : IsMarked (String.ofList (rest.takeWhile isMarkedChar)) := by
      rw [IsMarked, String.toList_ofList]
      exact ⟨hname, fun x hx => List.mem_takeWhile_imp hx⟩
    obtain rfl := Option.some.inj h
    split <;> exact hmarked

theorem legible_next (h : (next c rest).1.kind? = some kind) : kind.Legible := by
  unfold next at h
  split at h
  · cases h
  · split at h
    · next found hcomment =>
      unfold comment? at hcomment
      split at hcomment
      · split at hcomment <;> obtain rfl := Option.some.inj hcomment <;> cases h
      · cases hcomment
    · split at h
      · next hlower =>
        obtain rfl := Option.some.inj h
        exact legible_wordKind hlower fun x hx => List.mem_takeWhile_imp hx
      · split at h
        · obtain rfl := Option.some.inj h
          unfold variableKind
          split
          · trivial
          · split <;> trivial
        · split at h
          · exact legible_number h
          · split at h
            · exact legible_marked h
            · split at h
              · obtain rfl := Option.some.inj h
                trivial
              · cases h

theorem legible_of_mem {text : List Char} {l : Lexeme} (hl : l ∈ lexemes text)
    (h : l.kind? = some kind) : kind.Legible := by
  fun_induction lexemes text with
  | case1 => cases hl
  | case2 c rest ih =>
    rcases List.mem_cons.1 hl with rfl | hl
    · exact legible_next h
    · exact ih hl

theorem map_kind_place (start : Nat) (ls : List Lexeme) :
    ((place start ls).filterMap token?).map Token.kind = ls.filterMap kind? := by
  induction ls generalizing start with
  | nil => rfl
  | cons l rest ih =>
    obtain ⟨text, reading⟩ := l
    cases reading with
    | token kind | clipped kind => exact congrArg (kind :: ·) (ih _)
    | _ => exact ih _

end Lexeme

/-- The tokens of a source are legible, and the end of the source comes behind them. -/
theorem Token.legible_scan (source : List Char) :
    ∃ body last, (scan source).tokens = body ++ [last] ∧ last.kind = .eof ∧
      body.map Token.kind = (lexemes source).filterMap Lexeme.kind? ∧
      ∀ t ∈ body, t.kind.Legible := by
  refine ⟨_, _, rfl, rfl, Lexeme.map_kind_place 0 _, fun t ht => ?_⟩
  have hkind := List.mem_map_of_mem (f := Token.kind) ht
  rw [Lexeme.map_kind_place, List.mem_filterMap] at hkind
  obtain ⟨l, hl, hread⟩ := hkind
  exact Lexeme.legible_of_mem hl hread

def Lexeme.IsClean (l : Lexeme) : Prop :=
  l.reading = .skipped ∨ ∃ kind, l.reading = .token kind

theorem Token.diagnostics_scan {source : List Char} (h : ∀ l ∈ lexemes source, l.IsClean) :
    (scan source).diagnostics = [] := by
  have hplace (start : Nat) (ls : List Lexeme) (hls : ∀ l ∈ ls, l.IsClean) :
      (Lexeme.place start ls).filterMap Lexeme.diagnostic? = [] := by
    induction ls generalizing start with
    | nil => rfl
    | cons l rest ih =>
      obtain ⟨text, reading⟩ := l
      have hrest := ih (start + Text.byteSize text) fun l hl => hls l (List.mem_cons_of_mem _ hl)
      rcases hls _ List.mem_cons_self with rfl | ⟨kind, rfl⟩ <;> exact hrest
  exact hplace 0 _ h

/-! ## Reading back -/

namespace Lexeme

variable {c : Char} {cs after : List Char}

/-- The lexeme is read back in front of `rest`. -/
def Ahead (l : Lexeme) (rest : List Char) : Prop :=
  lexemes (l.text ++ rest) = l :: lexemes rest

/-- The lexemes are read back in front of `rest`. -/
def Reread (ls : List Lexeme) (rest : List Char) : Prop :=
  lexemes (ls.flatMap text ++ rest) = ls ++ lexemes rest

theorem Ahead.of_next {rest : List Char} {reading : Reading}
    (h : next c (cs ++ rest) = (⟨c :: cs, reading⟩, rest)) : Ahead ⟨c :: cs, reading⟩ rest := by
  rw [Ahead, List.cons_append, lexemes, h]

namespace Reread

variable {ls : List Lexeme}

theorem nil (rest : List Char) : Reread [] rest := rfl

theorem cons {l : Lexeme} {rest : List Char} (hl : l.Ahead (ls.flatMap text ++ rest))
    (h : Reread ls rest) : Reread (l :: ls) rest := by
  rw [Ahead] at hl
  rw [Reread, List.flatMap_cons, List.append_assoc, hl, h, List.cons_append]

theorem append {ls' : List Lexeme} {rest : List Char} (h : Reread ls (ls'.flatMap text ++ rest))
    (h' : Reread ls' rest) : Reread (ls ++ ls') rest := by
  rw [Reread] at h h'
  rw [Reread, List.flatMap_append, List.append_assoc, h, h', List.append_assoc]

theorem of_ahead (h : ∀ l ∈ ls, ∀ rest, l.Ahead rest) (rest : List Char) : Reread ls rest := by
  induction ls with
  | nil => exact nil rest
  | cons l ls ih =>
    exact cons (h l List.mem_cons_self _) (ih fun l hl => h l (List.mem_cons_of_mem _ hl))

theorem flatMap {α : Type} {as : List α} {f : α → List Lexeme}
    (h : ∀ a ∈ as, ∀ rest, Reread (f a) rest) (rest : List Char) : Reread (as.flatMap f) rest := by
  induction as with
  | nil => exact nil rest
  | cons a as ih =>
    rw [List.flatMap_cons]
    exact append (h a List.mem_cons_self _) (ih fun a ha => h a (List.mem_cons_of_mem _ ha))

end Reread

theorem ahead_blank (h : Text.isBlank c) (rest : List Char) : Ahead ⟨[c], .skipped⟩ rest :=
  .of_next (by simp [next, h])

theorem ahead_leftBrace (rest : List Char) :
    Ahead ⟨['\x7b'], .token (.punct .leftBrace)⟩ rest :=
  .of_next rfl

theorem ahead_rightBrace (rest : List Char) :
    Ahead ⟨['\x7d'], .token (.punct .rightBrace)⟩ rest :=
  .of_next rfl

theorem ahead_semicolon (rest : List Char) :
    Ahead ⟨[';'], .token (.punct .semicolon)⟩ rest :=
  .of_next rfl

theorem ahead_colon (rest : List Char) :
    Ahead ⟨[':'], .token (.punct .colon)⟩ (' ' :: rest) :=
  .of_next rfl

/-- A run of characters with the property `p` does not go on into the text. -/
def Stops (p : Char → Bool) (text : List Char) : Prop :=
  ∀ x ∈ text.head?, p x = false

namespace Stops

variable {p : Char → Bool}

theorem nil : Stops p [] := by
  simp [Stops]

theorem cons {c : Char} (h : p c = false) (rest : List Char) : Stops p (c :: rest) := by
  simpa [Stops] using h

theorem dropWhile (p : Char → Bool) (text : List Char) : Stops p (text.dropWhile p) := by
  intro x hx
  have hhead := List.head?_dropWhile_not p text
  rwa [Option.mem_def.1 hx] at hhead

end Stops

theorem takeWhile_stop {p : Char → Bool} (hcs : ∀ x ∈ cs, p x) (hstop : Stops p after) :
    (cs ++ after).takeWhile p = cs := by
  rw [List.takeWhile_append_of_pos hcs]
  cases after with
  | nil => simp
  | cons c rest => rw [List.takeWhile_cons_of_neg (by simp [hstop c rfl]), List.append_nil]

theorem dropWhile_stop {p : Char → Bool} (hcs : ∀ x ∈ cs, p x) (hstop : Stops p after) :
    (cs ++ after).dropWhile p = after := by
  rw [List.dropWhile_append_of_pos hcs]
  cases after with
  | nil => rfl
  | cons c rest => rw [List.dropWhile_cons_of_neg (by simp [hstop c rfl])]

theorem ahead_wordKind (hc : c.isLower) (hcs : ∀ x ∈ cs, isNameChar x)
    (hstop : Stops isNameChar after) :
    Ahead ⟨c :: cs, .token (wordKind (String.ofList (c :: cs)))⟩ after := by
  refine .of_next ?_
  rw [next_of_isLower hc, takeWhile_stop hcs hstop, dropWhile_stop hcs hstop]

theorem ahead_variableKind (hc : c.isUpper) (hcs : ∀ x ∈ cs, isVariableChar x)
    (hstop : Stops isVariableChar after) :
    Ahead ⟨c :: cs, .token (variableKind (String.ofList (c :: cs)))⟩ after := by
  refine .of_next ?_
  rw [next_of_isUpper hc, takeWhile_stop hcs hstop, dropWhile_stop hcs hstop]

theorem ahead_word {name : String} (h : IsWord name) (hstop : Stops isNameChar after) :
    Ahead ⟨name.toList, .token (.lower name)⟩ after := by
  obtain ⟨hword, first, cs, hname, hfirst, hcs⟩ := h
  have hahead := ahead_wordKind hfirst hcs hstop
  rwa [← hname, String.ofList_toList, wordKind, hword] at hahead

theorem ahead_marked {mark : Char} (hmark : mark = '.' ∨ mark = '#') {name : String}
    (h : IsMarked name) (hstop : Stops isMarkedChar after) :
    Ahead ⟨mark :: name.toList, .token (if mark = '.' then .dotted name else .hash name)⟩
      after := by
  obtain ⟨hname, hchars⟩ := h
  refine .of_next ?_
  rw [next_of_mark hmark, marked, takeWhile_stop hchars hstop, dropWhile_stop hchars hstop]
  split
  · next hnil => exact absurd hnil hname
  · rw [String.ofList_toList]

/-! ## Numbers -/

theorem decimal_eq (digits : List Char) : decimal digits = Nat.ofDigitChars 10 digits 0 := by
  rw [decimal, Nat.ofDigitChars_eq_foldl]

theorem decimal_toDigits (n : Nat) : decimal (Nat.toDigits 10 n) = n := by
  rw [decimal_eq, Nat.ofDigitChars_ten_toDigits]

theorem toList_toString_natCast (n : Nat) : (toString (n : Int)).toList = Nat.toDigits 10 n := by
  change (toString n).toList = _
  rw [Nat.toString_eq_ofList_toDigits, String.toList_ofList]

/-- Digits and the unit behind them are read back together. -/
theorem ahead_digits {digits : List Char} (hne : digits ≠ []) (hdigits : ∀ x ∈ digits, x.isDigit)
    {kind : Int → Token.Kind} {suffix : List Char} (hstop : Stops Char.isDigit (suffix ++ after))
    (hunit : unit (suffix ++ after) = (kind, suffix, after)) :
    Ahead ⟨digits ++ suffix, if decimal digits ≤ largest then .token (kind (decimal digits))
      else .clipped (kind 0)⟩ after := by
  cases digits with
  | nil => exact absurd rfl hne
  | cons c cs =>
    have hcs : ∀ x ∈ cs, x.isDigit := fun x hx => hdigits x (List.mem_cons_of_mem _ hx)
    rw [List.cons_append]
    refine .of_next ?_
    rw [next_of_isDigit (hdigits c List.mem_cons_self), number, List.append_assoc,
      takeWhile_stop hcs hstop, dropWhile_stop hcs hstop, hunit]
    rfl

theorem ahead_number {n : Nat} (hn : n ≤ largest) {kind : Int → Token.Kind} (suffix : List Char)
    (hstop : Stops Char.isDigit (suffix ++ after))
    (hunit : unit (suffix ++ after) = (kind, suffix, after)) :
    Ahead ⟨Nat.toDigits 10 n ++ suffix, .token (kind n)⟩ after := by
  have hdigits : ∀ x ∈ Nat.toDigits 10 n, x.isDigit := fun x hx =>
    Nat.isDigit_of_mem_toDigits (by decide) (by decide) hx
  have hahead := ahead_digits Nat.toDigits_ne_nil hdigits hstop hunit
  rwa [decimal_toDigits, if_pos hn] at hahead

end Lexeme

end TypedStyle
