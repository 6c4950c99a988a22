import Mathlib.Data.List.Basic
import TypedStyle.Proofs.Legible
import TypedStyle.Proofs.ParserCompleteness

/-!
# The layout of generated text

A generated text is a sequence of parts, one for each rule: the selector and an opening brace, a
line for each declaration, and a closing brace. A line is a declaration and how far it is indented.
Parts and lines hold only what can be read again. The lexemes of a part are written out here, so
that its text, its tokens and the rule they make are all read off one list.
-/

namespace TypedStyle

/-- Whether a literal is written the way it is read: no boolean is, and no negative number. -/
def Literal.isUnsigned : Literal → Bool
  | bool _ => false
  | color _ => true
  | pixel n | percentage n | scalar n => 0 ≤ n

namespace Css

variable {v : Literal} {s : Selector}

/-- A declaration that can be read again, and the number of tabs in front of it. -/
structure Line where
  depth : Nat
  property : String
  value : Literal
  isWord_property : Lexeme.IsWord property
  legible_value : value.Legible
  isUnsigned_value : value.isUnsigned
  accepts_value : ∀ types, Ty.allowed? property = some types → .ofLiteral value ∈ types

/-- A selector that can be read again, and the lines of its rule. -/
structure Part where
  selector : Selector
  lines : List Line
  legible_selector : selector.kind.Legible
  lines_ne_nil : lines ≠ []

def blank (c : Char) : Lexeme :=
  ⟨[c], .skipped⟩

def mark (c : Char) (p : Punct) : Lexeme :=
  ⟨[c], .token (.punct p)⟩

namespace Line

def lexemes (l : Line) : List Lexeme :=
  List.replicate l.depth (blank '\t') ++
    [⟨l.property.toList, .token (.lower l.property)⟩, mark ':' .colon, blank ' ',
      ⟨l.value.text.toList, .token l.value.kind⟩, mark ';' .semicolon, blank '\n']

def statement (l : Line) : Statement :=
  .declare ⟨l.property, .zero⟩ (Grammar.literal l.value) .zero

def flat (l : Line) : Line :=
  { l with depth := 1 }

end Line

namespace Part

def lexemes (p : Part) : List Lexeme :=
  [⟨p.selector.text.toList, .token p.selector.kind⟩, blank ' ', mark '\x7b' .leftBrace,
      blank '\n'] ++
    (p.lines.flatMap Line.lexemes ++ [mark '\x7d' .rightBrace, blank '\n'])

def rule (p : Part) : Rule :=
  { selector := p.selector, body := p.lines.map Line.statement, span := .zero }

/-- The part with its lines indented by one tab. -/
def flat (p : Part) : Part :=
  { p with lines := p.lines.map Line.flat, lines_ne_nil := by simp [p.lines_ne_nil] }

end Part

def layout (ps : List Part) : List Char :=
  (ps.flatMap Part.lexemes).flatMap Lexeme.text

/-! ## Lexemes of a layout -/

open Lexeme (Ahead Reread IsClean)

theorem isMarked_of_sixHexDigits {digits : String} (h : Grammar.SixHexDigits digits) :
    Lexeme.IsMarked digits := by
  obtain ⟨hlength, hhex⟩ := h
  constructor
  · intro hnil
    rw [← String.length_toList, hnil] at hlength
    cases hlength
  · have hmarked : ∀ c ∈ "0123456789abcdefABCDEF".toList, Lexeme.isMarkedChar c :=
      List.all_eq_true.1 (by decide)
    exact fun c hc => hmarked c (hhex c hc)

theorem exists_toDigits {n : Int} (hfits : fits n) (hn : 0 ≤ n) :
    ∃ m : Nat, n = m ∧ m ≤ Lexeme.largest ∧ (toString n).toList = Nat.toDigits 10 m := by
  obtain ⟨m, rfl⟩ := Int.eq_ofNat_of_zero_le hn
  have hle : (m : Int) ≤ 9223372036854775807 := by
    simp only [fits, Bool.and_eq_true, decide_eq_true_eq] at hfits
    exact hfits.2
  exact ⟨m, rfl, by rw [Lexeme.largest]; omega, Lexeme.toList_toString_natCast m⟩

/-- How a value that can be read again is written. -/
inductive Written : Literal → List Char → Prop
  | color {digits : String} (h : Lexeme.IsMarked digits) :
      Written (.color ("#" ++ digits)) ('#' :: digits.toList)
  | pixel {n : Nat} (h : n ≤ Lexeme.largest) :
      Written (.pixel n) (Nat.toDigits 10 n ++ ['p', 'x'])
  | percentage {n : Nat} (h : n ≤ Lexeme.largest) :
      Written (.percentage n) (Nat.toDigits 10 n ++ ['%'])
  | scalar {n : Nat} (h : n ≤ Lexeme.largest) : Written (.scalar n) (Nat.toDigits 10 n)

theorem written_text (h : v.Legible) (hv : v.isUnsigned) : Written v v.text.toList := by
  cases v with
  | bool b =>
    -- A boolean is written in small letters and read in capitals.
    cases hv
  | color text =>
    obtain ⟨digits, hdigits, rfl⟩ := h
    simpa [Literal.text] using Written.color (isMarked_of_sixHexDigits hdigits)
  | pixel n =>
    obtain ⟨m, rfl, hm, htext⟩ := exists_toDigits h (by simpa [Literal.isUnsigned] using hv)
    rw [Literal.text, String.toList_append, htext]
    exact .pixel hm
  | percentage n =>
    obtain ⟨m, rfl, hm, htext⟩ := exists_toDigits h (by simpa [Literal.isUnsigned] using hv)
    rw [Literal.text, String.toList_append, htext]
    exact .percentage hm
  | scalar n =>
    obtain ⟨m, rfl, hm, htext⟩ := exists_toDigits h (by simpa [Literal.isUnsigned] using hv)
    rw [Literal.text, htext]
    exact .scalar hm

theorem Written.ahead {text : List Char} (h : Written v text) (rest : List Char) :
    Ahead ⟨text, .token v.kind⟩ (';' :: rest) := by
  cases h with
  | color h => simpa [Literal.kind] using Lexeme.ahead_marked (.inr rfl) h (.cons rfl _)
  | pixel h => exact Lexeme.ahead_number h ['p', 'x'] (.cons rfl _) rfl
  | percentage h => exact Lexeme.ahead_number h ['%'] (.cons rfl _) rfl
  | scalar h => simpa [Literal.kind] using Lexeme.ahead_number h [] (.cons rfl _) rfl

theorem Line.reread (l : Line) (rest : List Char) : Reread l.lexemes rest := by
  have hvalue := (written_text l.legible_value l.isUnsigned_value).ahead ('\n' :: rest)
  -- The property ends at the colon, the colon at the space, and the value at the semicolon.
  refine .append (.of_ahead (fun x hx => ?_) _) ?_
  · obtain rfl := List.eq_of_mem_replicate hx
    exact Lexeme.ahead_blank rfl
  · exact .cons (Lexeme.ahead_word l.isWord_property (.cons rfl _)) (.cons (Lexeme.ahead_colon _)
      (.cons (Lexeme.ahead_blank rfl _) (.cons hvalue (.cons (Lexeme.ahead_semicolon _)
        (.cons (Lexeme.ahead_blank rfl _) (.nil _))))))

theorem ahead_selector (h : s.kind.Legible) (rest : List Char) :
    Ahead ⟨s.text.toList, .token s.kind⟩ (' ' :: rest) := by
  cases s with
  | tag name => exact Lexeme.ahead_word h (.cons rfl rest)
  | className name =>
    simpa [Selector.text, Selector.kind] using
      Lexeme.ahead_marked (.inl rfl) h (.cons rfl rest)
  | id name =>
    simpa [Selector.text, Selector.kind] using
      Lexeme.ahead_marked (.inr rfl) h (.cons rfl rest)

theorem Part.reread (p : Part) (rest : List Char) : Reread p.lexemes rest := by
  have hhead := ahead_selector p.legible_selector
  have hlines : Reread (p.lines.flatMap Line.lexemes ++ [mark '\x7d' .rightBrace, blank '\n'])
      rest :=
    .append (.flatMap (fun l _ => l.reread) _)
      (.cons (Lexeme.ahead_rightBrace _) (.cons (Lexeme.ahead_blank rfl _) (.nil _)))
  exact .cons (hhead _) (.cons (Lexeme.ahead_blank rfl _) (.cons (Lexeme.ahead_leftBrace _)
    (.cons (Lexeme.ahead_blank rfl _) hlines)))

theorem lexemes_layout (ps : List Part) : lexemes (layout ps) = ps.flatMap Part.lexemes := by
  have hreread : Reread (ps.flatMap Part.lexemes) [] := .flatMap (fun p _ => p.reread) []
  rw [Reread, List.append_nil, lexemes, List.append_nil] at hreread
  exact hreread

theorem Line.isClean (l : Line) : ∀ x ∈ l.lexemes, x.IsClean := by
  simp [lexemes, IsClean, blank, mark, or_imp, forall_and]

theorem Part.isClean (p : Part) : ∀ x ∈ p.lexemes, x.IsClean := by
  have hlines : ∀ x ∈ p.lines.flatMap Line.lexemes, x.IsClean := by
    intro x hx
    obtain ⟨l, -, hl⟩ := List.mem_flatMap.1 hx
    exact l.isClean x hl
  refine List.forall_mem_append.2 ⟨?_, List.forall_mem_append.2 ⟨hlines, ?_⟩⟩ <;>
    simp [IsClean, blank, mark]

/-! ## Tokens of a layout -/

theorem value_literal (h : v.Legible) : Grammar.Value v.kind (Grammar.literal v) := by
  cases v with
  | bool b => exact .bool b
  | color text =>
    -- The hash is part of the literal and no part of the token.
    obtain ⟨digits, hdigits, rfl⟩ := h
    simpa [Literal.kind] using Grammar.Value.color hdigits
  | pixel n => exact .pixel n
  | percentage n => exact .percentage n
  | scalar n => exact .scalar n

theorem Line.member (l : Line) : Grammar.Member (l.lexemes.filterMap Lexeme.kind?) l.statement := by
  have hkinds : l.lexemes.filterMap Lexeme.kind? =
      [.lower l.property, .punct .colon, l.value.kind, .punct .semicolon] := by
    simp [lexemes, Lexeme.kind?, blank, mark, List.filterMap_replicate, List.filterMap_cons]
  rw [hkinds]
  exact .declare l.property (.term (.value (value_literal l.legible_value)))

theorem members_lines {ls : List Line} (h : ls ≠ []) :
    Grammar.Members ((ls.flatMap Line.lexemes).filterMap Lexeme.kind?)
      (ls.map Line.statement) := by
  induction ls with
  | nil => exact absurd rfl h
  | cons l rest ih =>
    rw [List.flatMap_cons, List.filterMap_append, List.map_cons]
    cases rest with
    | nil => simpa using .one l.member
    | cons l' rest => exact .cons l.member (ih (List.cons_ne_nil _ _))

theorem Part.item (p : Part) :
    Grammar.Item (p.lexemes.filterMap Lexeme.kind?) (.rule p.rule) := by
  have hselect : Grammar.Select p.selector.kind p.selector := by
    cases p.selector <;> constructor
  have hkinds : p.lexemes.filterMap Lexeme.kind? =
      p.selector.kind :: .punct .leftBrace ::
        ((p.lines.flatMap Line.lexemes).filterMap Lexeme.kind? ++ [.punct .rightBrace]) := by
    simp [lexemes, Lexeme.kind?, blank, mark, List.filterMap_cons]
  rw [hkinds]
  exact .rule hselect (.mk (members_lines p.lines_ne_nil))

variable {ps : List Part}

theorem items_parts (h : ps ≠ []) :
    Grammar.Items ((ps.flatMap Part.lexemes).filterMap Lexeme.kind?)
      (ps.map fun p => .rule p.rule) := by
  induction ps with
  | nil => exact absurd rfl h
  | cons p rest ih =>
    rw [List.flatMap_cons, List.filterMap_append, List.map_cons]
    cases rest with
    | nil => simpa using .one p.item
    | cons p' rest => exact .cons p.item (ih (List.cons_ne_nil _ _))

/-- The text of parts is read without problems, and gives the rules of the parts. -/
theorem parse_layout (h : ps ≠ []) :
    (Sheet.parse (String.ofList (layout ps))).diagnostics = [] ∧
      (Sheet.parse (String.ofList (layout ps))).sheet.bare = ⟨ps.map fun p => .rule p.rule⟩ := by
  -- Blanks leave no token, so the grammar sees no indentation.
  obtain ⟨body, last, htokens, hlast, hkinds, -⟩ := Token.legible_scan (layout ps)
  have hclean : (Token.scan (layout ps)).diagnostics = [] := by
    refine Token.diagnostics_scan fun l hl => ?_
    rw [lexemes_layout] at hl
    obtain ⟨p, -, hp⟩ := List.mem_flatMap.1 hl
    exact p.isClean l hp
  have hgrammar : Grammar.Sheet (body.map Token.kind) ⟨ps.map fun p => .rule p.rule⟩ := by
    rw [hkinds, lexemes_layout]
    exact items_parts h
  obtain ⟨hbare, hfound⟩ := Reader.sheet_complete hlast hgrammar
  simp only [Sheet.parse, String.toList_ofList, htokens, hclean]
  exact ⟨hfound, hbare⟩

/-! ## Rows of a layout -/

/-- The characters of a declaration behind its tabs. -/
def printed (property value : String) : List Char :=
  property.toList ++ [':', ' '] ++ value.toList ++ [';']

def Line.body (l : Line) : List Char :=
  printed l.property l.value.text

def Line.row (l : Line) : List Char :=
  List.replicate l.depth '\t' ++ l.body

def opening (s : Selector) : List Char :=
  s.text.toList ++ [' ', '\x7b']

def Part.rows (p : Part) : List (List Char) :=
  opening p.selector :: (p.lines.map Line.row ++ [['\x7d']])

/-- A row indented by one tab if it is indented at all. -/
def oneTab (row : List Char) : List Char :=
  if row.head? = some '\t' then '\t' :: row.dropWhile (· == '\t') else row

/-- A text in which every row that is indented is indented by exactly one tab. -/
def reindent (text : String) : String :=
  String.ofList (['\n'].intercalate ((text.toList.splitOn '\n').map oneTab))

theorem Line.text_lexemes (l : Line) : l.lexemes.flatMap Lexeme.text = l.row ++ ['\n'] := by
  simp [lexemes, row, body, printed, blank, mark, List.flatMap_replicate]

theorem Part.text_lexemes (p : Part) :
    p.lexemes.flatMap Lexeme.text = p.rows.flatMap (· ++ ['\n']) := by
  simp [lexemes, rows, opening, blank, mark, List.flatMap_assoc, List.flatMap_map, Line.text_lexemes]

theorem layout_eq (ps : List Part) : layout ps = (ps.flatMap Part.rows).flatMap (· ++ ['\n']) := by
  simp [layout, List.flatMap_assoc, Part.text_lexemes]

/-- Pieces that each end in a separator, and a last piece, are pieces with separators between
them. -/
theorem flatMap_append_eq_intercalate {α : Type} (separator : α) (pieces : List (List α))
    (last : List α) :
    pieces.flatMap (· ++ [separator]) ++ last = [separator].intercalate (pieces ++ [last]) := by
  induction pieces with
  | nil => simp
  | cons piece rest ih =>
    rw [List.flatMap_cons, List.append_assoc, ih, List.cons_append,
      List.intercalate_cons_of_ne_nil (by simp)]

/-- Rows of which none holds a line break are the ones that their text is cut into, with a last
row that is empty. -/
theorem splitOn_rows {rows : List (List Char)} (h : ∀ row ∈ rows, '\n' ∉ row) :
    (rows.flatMap (· ++ ['\n'])).splitOn '\n' = rows ++ [[]] := by
  rw [← List.append_nil (rows.flatMap _), flatMap_append_eq_intercalate]
  exact List.splitOn_intercalate '\n' (List.forall_mem_append.2 ⟨h, by simp⟩) (by simp)

theorem reindent_rows {rows : List (List Char)} (h : ∀ row ∈ rows, '\n' ∉ row) :
    reindent (String.ofList (rows.flatMap (· ++ ['\n']))) =
      String.ofList ((rows.map oneTab).flatMap (· ++ ['\n'])) := by
  rw [reindent, String.toList_ofList, splitOn_rows h, List.map_append, List.map_singleton,
    show oneTab [] = [] from rfl, ← flatMap_append_eq_intercalate, List.append_nil]

theorem isVisible_of_isWord {name : String} (h : Lexeme.IsWord name) :
    ∀ c ∈ name.toList, Lexeme.IsVisible c := by
  obtain ⟨-, c, cs, hname, hc, hcs⟩ := h
  rw [hname]
  refine fun x hx => Lexeme.isVisible_of_isMarkedChar (Lexeme.isMarkedChar_of_isNameChar ?_)
  rcases List.mem_cons.1 hx with rfl | hx
  · exact Lexeme.isNameChar_of_isLower hc
  · exact hcs x hx

theorem isVisible_selector (h : s.kind.Legible) : ∀ c ∈ s.text.toList, Lexeme.IsVisible c := by
  have hmarked {c : Char} (hc : Lexeme.IsVisible c) {name : String} (hname : Lexeme.IsMarked name) :
      ∀ x ∈ c :: name.toList, Lexeme.IsVisible x :=
    List.forall_mem_cons.2 ⟨hc, fun x hx => Lexeme.isVisible_of_isMarkedChar (hname.2 x hx)⟩
  cases s with
  | tag name => exact isVisible_of_isWord h
  | className name => simpa [Selector.text] using hmarked (c := '.') (by decide) h
  | id name => simpa [Selector.text] using hmarked (c := '#') (by decide) h

theorem isVisible_toString (n : Int) : ∀ c ∈ (toString n).toList, Lexeme.IsVisible c := by
  have hdigits (m : Nat) : ∀ c ∈ (toString m).toList, Lexeme.IsVisible c := by
    rw [Nat.toString_eq_ofList_toDigits, String.toList_ofList]
    exact fun c hc =>
      Lexeme.isVisible_of_isDigit (Nat.isDigit_of_mem_toDigits (by decide) (by decide) hc)
  cases n with
  | ofNat m => exact hdigits m
  | negSucc m =>
    change ∀ c ∈ ("-" ++ toString (m + 1)).toList, _
    rw [String.toList_append]
    exact List.forall_mem_append.2 ⟨by simp [Lexeme.IsVisible], hdigits (m + 1)⟩

theorem isVisible_text (h : v.Legible) : ∀ c ∈ v.text.toList, Lexeme.IsVisible c := by
  cases v with
  | bool b => cases b <;> simp [Literal.text, Lexeme.IsVisible]
  | color text =>
    obtain ⟨digits, hdigits, rfl⟩ := h
    rw [Literal.text, String.toList_append]
    refine List.forall_mem_append.2 ⟨by simp [Lexeme.IsVisible], fun c hc => ?_⟩
    exact Lexeme.isVisible_of_isMarkedChar ((isMarked_of_sixHexDigits hdigits).2 c hc)
  | pixel n =>
    rw [Literal.text, String.toList_append]
    exact List.forall_mem_append.2 ⟨isVisible_toString n, by simp [Lexeme.IsVisible]⟩
  | percentage n =>
    rw [Literal.text, String.toList_append]
    exact List.forall_mem_append.2 ⟨isVisible_toString n, by simp [Lexeme.IsVisible]⟩
  | scalar n => exact isVisible_toString n

theorem forall_mem_printed {property : String} (hproperty : Lexeme.IsWord property)
    (hv : v.Legible) : ∀ c ∈ printed property v.text, 32 ≤ c.toNat := by
  have hname := isVisible_of_isWord hproperty
  have hvalue := isVisible_text hv
  simp only [printed, List.forall_mem_append]
  refine ⟨⟨⟨?_, by simp⟩, ?_⟩, by simp⟩
  · exact fun c hc => Nat.le_of_succ_le (hname c hc).1
  · exact fun c hc => Nat.le_of_succ_le (hvalue c hc).1

theorem dropWhile_tabs (n : Nat) {body : List Char} (h : ∀ c ∈ body, 32 ≤ c.toNat) :
    (List.replicate n '\t' ++ body).dropWhile (· == '\t') = body := by
  rw [List.dropWhile_append_of_pos (by simp)]
  cases body with
  | nil => rfl
  | cons c cs =>
    refine List.dropWhile_cons_of_neg fun hc => ?_
    have hprinted := h c List.mem_cons_self
    rw [beq_iff_eq.1 hc] at hprinted
    exact absurd hprinted (by decide)

theorem Line.printed_body (l : Line) : ∀ c ∈ l.body, 32 ≤ c.toNat :=
  forall_mem_printed l.isWord_property l.legible_value

theorem forall_mem_opening (h : s.kind.Legible) : ∀ c ∈ opening s, 32 ≤ c.toNat :=
  List.forall_mem_append.2
    ⟨fun c hc => Nat.le_of_succ_le (isVisible_selector h c hc).1, by simp⟩

theorem Part.newline_not_mem_rows (p : Part) : ∀ row ∈ p.rows, '\n' ∉ row := by
  refine List.forall_mem_cons.2 ⟨?_, List.forall_mem_append.2 ⟨?_, by decide⟩⟩
  · exact fun hmem => absurd (forall_mem_opening p.legible_selector _ hmem) (by decide)
  · refine List.forall_mem_map.2 fun l hl hmem => ?_
    rcases List.mem_append.1 hmem with htab | hbody
    · exact absurd (List.eq_of_mem_replicate htab) (by decide)
    · exact absurd (l.printed_body _ hbody) (by decide)

theorem oneTab_of_printed {row : List Char} (h : ∀ c ∈ row, 32 ≤ c.toNat) : oneTab row = row :=
  if_neg fun hhead => absurd (h _ (List.mem_of_mem_head? hhead)) (by decide)

theorem Line.oneTab_row {l : Line} (h : 0 < l.depth) : oneTab l.row = l.flat.row := by
  have hhead : l.row.head? = some '\t' := by
    obtain ⟨n, hn⟩ := Nat.exists_eq_succ_of_ne_zero h.ne'
    rw [row, hn, List.replicate_succ]
    rfl
  have hdrop : l.row.dropWhile (· == '\t') = l.body := dropWhile_tabs l.depth l.printed_body
  rw [oneTab, if_pos hhead, hdrop]
  rfl

theorem Part.map_oneTab_rows {p : Part} (h : ∀ l ∈ p.lines, 0 < l.depth) :
    p.rows.map oneTab = p.flat.rows := by
  have hlines : (p.lines.map Line.row).map oneTab = (p.lines.map Line.flat).map Line.row := by
    rw [List.map_map, List.map_map]
    exact List.map_congr_left fun l hl => l.oneTab_row (h l hl)
  rw [rows, List.map_cons, List.map_append, hlines,
    oneTab_of_printed (forall_mem_opening p.legible_selector)]
  rfl

/-- To reindent the text of parts is to indent every line by one tab. -/
theorem reindent_layout (h : ∀ p ∈ ps, ∀ l ∈ p.lines, 0 < l.depth) :
    reindent (String.ofList (layout ps)) = String.ofList (layout (ps.map Part.flat)) := by
  have hrows : (ps.flatMap Part.rows).map oneTab = (ps.map Part.flat).flatMap Part.rows := by
    rw [List.map_flatMap, List.flatMap_map]
    exact List.flatMap_congr fun p hp => Part.map_oneTab_rows (h p hp)
  rw [layout_eq, reindent_rows, hrows, ← layout_eq]
  intro row hrow
  obtain ⟨p, -, hp⟩ := List.mem_flatMap.1 hrow
  exact p.newline_not_mem_rows row hp

end Css

end TypedStyle
