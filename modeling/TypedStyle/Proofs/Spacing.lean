import TypedStyle.Proofs.Concatenation
import TypedStyle.Proofs.Tiling

/-!
# Words with space between them

A text can be put together from tokens: each one is spelled, and space stands between them, blanks
and comments in any mixture. Reading takes such a text apart again. Without the space it would not:
two names side by side are read as one, and so are a number and a name that starts like a unit.
-/

namespace TypedStyle

open Lexeme

/-! ## Spellings of tokens -/

namespace Token.Kind

/-- How a token is spelled. The end of the source is not. -/
def text : Token.Kind → String
  | lower name | capital name => name
  | dotted name => "." ++ name
  | hash name => "#" ++ name
  | pixel value => toString value ++ "px"
  | percentage value => toString value ++ "%"
  | scalar value => toString value
  | bool true => "TRUE"
  | bool false => "FALSE"
  | keyword word => word.text
  | punct mark => mark.text
  | eof => ""

/-- A token that can be spelled. -/
def Spellable : Token.Kind → Prop
  | capital name => IsVariable name
  | kind => kind.Legible

theorem spelledAs_number {n : Int} (h : IsNumber n) {kind : Int → Token.Kind} {suffix : List Char}
    (hunit : IsUnit kind suffix) : (kind n).SpelledAs ((toString n).toList ++ suffix) := by
  obtain ⟨hnonneg, hle⟩ := h
  obtain ⟨m, rfl⟩ := Int.eq_ofNat_of_zero_le hnonneg
  have hvalue : Nat.ofDigitChars 10 (Nat.toDigits 10 m) 0 = m := Nat.ofDigitChars_ten_toDigits
  have hdigits : IsDigits (Nat.toDigits 10 m) :=
    ⟨Nat.toDigits_ne_nil, fun x hx => Nat.isDigit_of_mem_toDigits (by decide) (by decide) hx⟩
  have hfits : Nat.ofDigitChars 10 (Nat.toDigits 10 m) 0 ≤ largest := by
    rw [hvalue]
    exact Int.ofNat_le.1 hle
  have hspelled := SpelledAs.number hdigits hunit hfits
  rwa [hvalue, ← toList_toString_natCast] at hspelled

theorem spelledAs_text {kind : Token.Kind} (h : kind.Spellable) :
    kind.SpelledAs kind.text.toList := by
  cases kind with
  | lower name => exact .lower h
  | capital name => exact .capital h
  | dotted name => simpa [text] using SpelledAs.dotted h
  | hash name => simpa [text] using SpelledAs.hash h
  | pixel n => simpa [text] using spelledAs_number h .pixel
  | percentage n => simpa [text] using spelledAs_number h .percentage
  | scalar n => simpa [text] using spelledAs_number h .scalar
  | bool b => cases b <;> exact .bool _
  | keyword word => exact .keyword word
  | punct mark => exact .punct mark
  | eof => exact absurd h id

end Token.Kind

/-! ## Space -/

/-- A piece of the space between tokens: a blank, or a comment that ends where it is closed. -/
inductive Spacer where
  | blank (c : Char) (h : Text.isBlank c)
  | comment (inner : List Char) (h : ¬['*', '/'] <:+: inner)

namespace Spacer

def text : Spacer → List Char
  | blank c _ => [c]
  | comment inner _ => '/' :: '*' :: (inner ++ ['*', '/'])

def lexeme (s : Spacer) : Lexeme :=
  ⟨s.text, .skipped⟩

theorem ahead (s : Spacer) (after : List Char) : s.lexeme.Ahead after := by
  cases s with
  | blank c h => exact ahead_blank h after
  | comment inner h => exact ahead_comment h after

theorem flatMap_text_lexeme (space : List Spacer) :
    (space.map lexeme).flatMap Lexeme.text = space.flatMap text := by
  rw [List.flatMap_map]
  rfl

theorem reread (space : List Spacer) (after : List Char) : Reread (space.map lexeme) after := by
  refine .of_ahead (fun l hl => ?_) after
  obtain ⟨s, -, rfl⟩ := List.mem_map.1 hl
  exact s.ahead

theorem filterMap_token?_place (start : Nat) (space : List Spacer) :
    (place start (space.map lexeme)).filterMap token? = [] := by
  induction space generalizing start with
  | nil => rfl
  | cons s space ih => exact ih _

end Spacer

/-- The text starts with space, or there is none. -/
def Lexeme.IsSpaced (text : List Char) : Prop :=
  ∀ x ∈ text.head?, Text.isBlank x ∨ x = '/'

namespace Lexeme.IsSpaced

variable {text : List Char}

theorem stops (h : IsSpaced text) {p : Char → Bool} (hslash : p '/' = false)
    (hvisible : ∀ x, p x → IsVisible x) : Stops p text := by
  intro x hx
  rcases h x hx with hblank | rfl
  · rw [Bool.eq_false_iff]
    exact fun hp => not_isVisible_of_isBlank hblank (hvisible x hp)
  · exact hslash

theorem not_cons_prefix (h : IsSpaced text) {c : Char} (hc : IsVisible c) (hslash : c ≠ '/')
    (cs : List Char) : ¬c :: cs <+: text := by
  rintro ⟨tail, rfl⟩
  rcases h c rfl with hblank | rfl
  · exact not_isVisible_of_isBlank hblank hc
  · exact hslash rfl

theorem endsBefore (h : IsSpaced text) (kind : Token.Kind) : kind.EndsBefore text := by
  cases kind with
  | lower name => exact h.stops rfl fun _ => isVisible_of_isNameChar
  | keyword word => exact h.stops rfl fun _ => isVisible_of_isNameChar
  | capital name => exact h.stops rfl fun _ => isVisible_of_isVariableChar
  | bool b => exact h.stops rfl fun _ => isVisible_of_isVariableChar
  | dotted name => exact h.stops rfl fun _ => isVisible_of_isMarkedChar
  | hash name => exact h.stops rfl fun _ => isVisible_of_isMarkedChar
  | scalar n =>
    exact ⟨h.stops rfl fun _ => isVisible_of_isDigit,
      h.not_cons_prefix (by decide) (by decide) _, h.not_cons_prefix (by decide) (by decide) _⟩
  | punct mark =>
    cases mark with
    | colon => exact h.not_cons_prefix (by decide) (by decide) _
    | _ => trivial
  | _ => trivial

end Lexeme.IsSpaced

theorem Spacer.isSpaced {space : List Spacer} (h : space ≠ []) (after : List Char) :
    IsSpaced (space.flatMap text ++ after) := by
  cases space with
  | nil => exact absurd rfl h
  | cons s space =>
    intro x hx
    cases s with
    | blank c hblank =>
      obtain rfl := Option.some.inj hx
      exact .inl hblank
    | comment inner hinner =>
      obtain rfl := Option.some.inj hx
      exact .inr rfl

/-! ## Words -/

/-- A token that can be spelled, and the space behind it. -/
structure Word where
  kind : Token.Kind
  spellable : kind.Spellable
  /-- What stands between it and the next word. -/
  space : List Spacer

namespace Word

/-- How a word is written, with the space behind it. -/
def text (w : Word) : List Char :=
  w.kind.text.toList ++ w.space.flatMap Spacer.text

def lexemes (w : Word) : List Lexeme :=
  ⟨w.kind.text.toList, .token w.kind⟩ :: w.space.map Spacer.lexeme

/-- The tokens of words, each one where it is spelled. The text of the words stands at `start`. -/
def tokens (start : Nat) : List Word → List Token
  | [] => []
  | w :: rest =>
    ⟨w.kind, ⟨start, start + Text.byteSize w.kind.text.toList⟩⟩ ::
      tokens (start + Text.byteSize w.text) rest

theorem flatMap_text_lexemes (w : Word) : w.lexemes.flatMap Lexeme.text = w.text := by
  rw [lexemes, List.flatMap_cons, Spacer.flatMap_text_lexeme, text]

theorem flatMap_text_flatMap_lexemes (words : List Word) :
    (words.flatMap lexemes).flatMap Lexeme.text = words.flatMap text := by
  rw [List.flatMap_assoc]
  exact congrArg (words.flatMap ·) (funext flatMap_text_lexemes)

theorem reread (w : Word) {after : List Char} (h : w.space ≠ [] ∨ after = []) :
    Reread w.lexemes after := by
  refine .cons ?_ (Spacer.reread w.space after)
  refine (Token.Kind.spelledAs_text w.spellable).ahead (IsSpaced.endsBefore ?_ w.kind)
  rw [Spacer.flatMap_text_lexeme]
  -- Behind the spelling comes the space of the word, or else the text is at its end.
  by_cases hspace : w.space = []
  · rcases h with hne | rfl
    · exact absurd hspace hne
    · simp [hspace, IsSpaced]
  · exact Spacer.isSpaced hspace after

theorem reread_all {words : List Word} (h : ∀ w ∈ words.dropLast, w.space ≠ []) :
    Reread (words.flatMap lexemes) [] := by
  induction words with
  | nil => exact .nil []
  | cons w rest ih =>
    rw [List.flatMap_cons]
    cases rest with
    | nil =>
      -- The last word may do without space, because nothing follows.
      exact .append (w.reread (.inr rfl)) (.nil [])
    | cons next rest =>
      rw [List.dropLast_cons_cons] at h
      exact .append (w.reread (.inl (h w List.mem_cons_self)))
        (ih fun x hx => h x (List.mem_cons_of_mem _ hx))

theorem filterMap_token?_place (start : Nat) (words : List Word) :
    (place start (words.flatMap lexemes)).filterMap token? = tokens start words := by
  induction words generalizing start with
  | nil => rfl
  | cons w rest ih =>
    rw [List.flatMap_cons, place_append, List.filterMap_append, ih, flatMap_text_lexemes, tokens]
    exact congrArg (_ :: · ++ _) (Spacer.filterMap_token?_place _ w.space)

end Word

theorem lexemes_spaced (lead : List Spacer) {words : List Word}
    (h : ∀ w ∈ words.dropLast, w.space ≠ []) :
    lexemes (lead.flatMap Spacer.text ++ words.flatMap Word.text) =
      lead.map Spacer.lexeme ++ words.flatMap Word.lexemes := by
  have hreread : Reread (lead.map Spacer.lexeme ++ words.flatMap Word.lexemes) [] :=
    .append (Spacer.reread lead _) (Word.reread_all h)
  rwa [Reread, List.flatMap_append, Spacer.flatMap_text_lexeme, Word.flatMap_text_flatMap_lexemes,
    List.append_nil, lexemes, List.append_nil] at hreread

theorem isClean_spaced (lead : List Spacer) (words : List Word) :
    ∀ l ∈ lead.map Spacer.lexeme ++ words.flatMap Word.lexemes, l.IsClean := by
  have hspace (space : List Spacer) : ∀ l ∈ space.map Spacer.lexeme, l.IsClean := by
    intro l hl
    obtain ⟨s, -, rfl⟩ := List.mem_map.1 hl
    exact .inl rfl
  intro l hl
  rcases List.mem_append.1 hl with hl | hl
  · exact hspace lead l hl
  · obtain ⟨w, -, hl⟩ := List.mem_flatMap.1 hl
    rcases List.mem_cons.1 hl with rfl | hl
    · exact .inr ⟨w.kind, rfl⟩
    · exact hspace w.space l hl

/-- Reading undoes spelling. Tokens are spelled one behind the other, with space behind each of
them, which only the last one can do without, and with space in front or not. Reading this gives no
diagnostic and just these tokens, each one where it is spelled, and the end of the source. -/
theorem Token.scan_spaced (lead : List Spacer) (words : List Word)
    (h : ∀ w ∈ words.dropLast, w.space ≠ []) :
    let front := lead.flatMap Spacer.text
    let source := front ++ words.flatMap Word.text
    (scan source).diagnostics = [] ∧
      (scan source).tokens = Word.tokens (Text.byteSize front) words ++
        [⟨.eof, ⟨Text.byteSize source, Text.byteSize source⟩⟩] := by
  intro front source
  have hlexemes : lexemes source = _ := lexemes_spaced lead h
  refine ⟨diagnostics_scan (hlexemes ▸ isClean_spaced lead words), ?_⟩
  simp only [scan, hlexemes]
  rw [place_append, List.filterMap_append, Spacer.filterMap_token?_place,
    Word.filterMap_token?_place, Spacer.flatMap_text_lexeme, Nat.zero_add, List.nil_append]

/-- A comment that holds a star, in front of the words. -/
def motleyLead : List Spacer :=
  [.comment ['*'] (by decide)]

/-- Words that would be read as others if there were no space between them. -/
def motleyWords : List Word :=
  [⟨.lower "a-1", ⟨rfl, 'a', ['-', '1'], rfl, rfl, List.all_eq_true.1 rfl⟩, [.blank '\u3000' rfl]⟩,
    ⟨.keyword .ifWord, trivial, [.blank '\n' rfl, .comment ['/', '\u00e9'] (by decide)]⟩,
    ⟨.punct .colon, trivial, [.comment [] (by decide)]⟩,
    ⟨.punct .assign, trivial, [.blank ' ' rfl]⟩,
    ⟨.scalar 9223372036854775807, ⟨by decide, by decide⟩, [.blank ' ' rfl]⟩,
    ⟨.capital "Px", ⟨by decide, by decide, 'P', ['x'], rfl, rfl, List.all_eq_true.1 rfl⟩,
      [.blank '\t' rfl]⟩,
    ⟨.bool true, trivial, [.blank ' ' rfl]⟩,
    ⟨.hash "-F0", ⟨by decide, List.all_eq_true.1 rfl⟩, []⟩]

theorem Token.scan_spaced_motley :
    motleyLead.flatMap Spacer.text ++ motleyWords.flatMap Word.text =
        "/***/a-1\u3000if\n/*/\u00e9*/:/**/:= 9223372036854775807 Px\tTRUE #-F0".toList ∧
      (scan (motleyLead.flatMap Spacer.text ++ motleyWords.flatMap Word.text)).diagnostics = [] ∧
      (scan (motleyLead.flatMap Spacer.text ++ motleyWords.flatMap Word.text)).tokens =
        [⟨.lower "a-1", ⟨5, 8⟩⟩, ⟨.keyword .ifWord, ⟨11, 13⟩⟩, ⟨.punct .colon, ⟨21, 22⟩⟩,
          ⟨.punct .assign, ⟨26, 28⟩⟩, ⟨.scalar 9223372036854775807, ⟨29, 48⟩⟩,
          ⟨.capital "Px", ⟨49, 51⟩⟩, ⟨.bool true, ⟨52, 56⟩⟩, ⟨.hash "-F0", ⟨57, 61⟩⟩,
          ⟨.eof, ⟨61, 61⟩⟩] := by
  obtain ⟨hdiagnostics, htokens⟩ := scan_spaced motleyLead motleyWords (by decide)
  refine ⟨by decide +kernel, hdiagnostics, htokens.trans ?_⟩
  decide +kernel

end TypedStyle
