import TypedStyle.Proofs.Selection

/-!
# What a generated text says

A generated text can be taken apart again: into rules, which end with a closing brace, their opening
rows, which hold the selector, and the rows of their declarations, with the tabs, the property up to
the colon and the literal behind it. The conditions are not in the text, and neither is which branch
a declaration stands in. What is there is the listing of the sheet, for each rule the selector and
the depth, property and literal of each declaration.
-/

namespace TypedStyle

/-! ## Literals -/

namespace Literal

variable {c : Char}

def number : List Char → Int
  | '-' :: digits => -(Nat.ofDigitChars 10 digits 0 : Nat)
  | digits => (Nat.ofDigitChars 10 digits 0 : Nat)

/-- The literal that is written in this way, known by its first and last characters. -/
def read (text : List Char) : Literal :=
  if text.head? = some '#' then .color (String.ofList text)
  else if text.head? = some 't' then .bool true
  else if text.head? = some 'f' then .bool false
  else if text.getLast? = some 'x' then .pixel (number text.dropLast.dropLast)
  else if text.getLast? = some '%' then .percentage (number text.dropLast)
  else .scalar (number text)

theorem exists_digits (n : Int) : ∃ m : Nat,
    (n = m ∧ (toString n).toList = Nat.toDigits 10 m) ∨
      (n = -(m : Int) ∧ (toString n).toList = '-' :: Nat.toDigits 10 m) := by
  cases n with
  | ofNat m => exact ⟨m, .inl ⟨rfl, Lexeme.toList_toString_natCast m⟩⟩
  | negSucc m =>
    refine ⟨m + 1, .inr ⟨rfl, ?_⟩⟩
    have hdigits : (toString (m + 1)).toList = Nat.toDigits 10 (m + 1) := by
      rw [Nat.toString_eq_ofList_toDigits, String.toList_ofList]
    change ("-" ++ toString (m + 1)).toList = _
    rw [String.toList_append, hdigits]
    rfl

theorem isDigit_of_mem_toDigits {n : Nat} (h : c ∈ Nat.toDigits 10 n) : c.isDigit :=
  Nat.isDigit_of_mem_toDigits (by decide) (by decide) h

theorem number_toString (n : Int) : number (toString n).toList = n := by
  obtain ⟨m, ⟨hn, hdigits⟩ | ⟨hn, hdigits⟩⟩ := exists_digits n
  · rw [hdigits, number.eq_2, Nat.ofDigitChars_ten_toDigits, hn]
    -- Digits do not start with a sign.
    intro digits hsign
    have hfalse := isDigit_of_mem_toDigits (hsign ▸ List.mem_cons_self)
    exact absurd hfalse (by decide)
  · rw [hdigits, number, Nat.ofDigitChars_ten_toDigits, hn]

theorem isDigit_or_eq {n : Int} (h : c ∈ (toString n).toList) : c.isDigit ∨ c = '-' := by
  obtain ⟨m, ⟨-, hdigits⟩ | ⟨-, hdigits⟩⟩ := exists_digits n
  · exact .inl (isDigit_of_mem_toDigits (hdigits ▸ h))
  · rw [hdigits] at h
    exact (List.mem_cons.1 h).symm.imp_left isDigit_of_mem_toDigits

theorem toString_ne_nil (n : Int) : (toString n).toList ≠ [] := by
  obtain ⟨m, ⟨-, hdigits⟩ | ⟨-, hdigits⟩⟩ := exists_digits n
  · exact hdigits ▸ Nat.toDigits_ne_nil
  · exact hdigits ▸ List.cons_ne_nil _ _

theorem head?_toString_ne {n : Int} (h : ¬(c.isDigit ∨ c = '-')) (unit : List Char) :
    ((toString n).toList ++ unit).head? ≠ some c := by
  rw [List.head?_append_of_ne_nil _ (toString_ne_nil n)]
  exact fun hc => h (isDigit_or_eq (List.mem_of_head? hc))

theorem read_number (n : Int) (unit : List Char) :
    read ((toString n).toList ++ unit) =
      if ((toString n).toList ++ unit).getLast? = some 'x' then
        .pixel (number ((toString n).toList ++ unit).dropLast.dropLast)
      else if ((toString n).toList ++ unit).getLast? = some '%' then
        .percentage (number ((toString n).toList ++ unit).dropLast)
      else .scalar (number ((toString n).toList ++ unit)) := by
  rw [read, if_neg (head?_toString_ne (by decide) unit),
    if_neg (head?_toString_ne (by decide) unit), if_neg (head?_toString_ne (by decide) unit)]

/-- A literal is known by how it is written. -/
theorem read_text {v : Literal} (h : v.Legible) : read v.text.toList = v := by
  cases v with
  | bool b => cases b <;> rfl
  | color text =>
    obtain ⟨digits, -, rfl⟩ := h
    simp [read, Literal.text]
  | pixel n =>
    have hunit : (text (.pixel n)).toList = (toString n).toList ++ ['p'] ++ ['x'] := by simp [text]
    rw [hunit, List.append_assoc, read_number, ← List.append_assoc,
      if_pos List.getLast?_concat, List.dropLast_concat, List.dropLast_concat, number_toString]
  | percentage n =>
    have hunit : (text (.percentage n)).toList = (toString n).toList ++ ['%'] := by simp [text]
    rw [hunit, read_number, List.getLast?_concat, if_neg (by decide), if_pos rfl,
      List.dropLast_concat, number_toString]
  | scalar n =>
    have hlast {c : Char} (hc : ¬(c.isDigit ∨ c = '-')) : (toString n).toList.getLast? ≠ some c :=
      fun hlast => hc (isDigit_or_eq (List.mem_of_getLast? hlast))
    have hread := read_number n []
    rw [List.append_nil, if_neg (hlast (by decide)), if_neg (hlast (by decide)),
      number_toString] at hread
    exact hread

end Literal

/-! ## Selectors -/

namespace Selector

def read : List Char → Selector
  | '.' :: name => .className (String.ofList name)
  | '#' :: name => .id (String.ofList name)
  | name => .tag (String.ofList name)

/-- A selector is known by how it is written. -/
theorem read_text {s : Selector} (h : s.kind.Legible) : read s.text.toList = s := by
  cases s with
  | tag name =>
    obtain ⟨-, c, cs, hname, hc, -⟩ := h
    rw [text, hname, read.eq_3, ← hname, String.ofList_toList]
    · rintro cs hdot
      obtain ⟨rfl, -⟩ := List.cons.inj hdot
      exact absurd hc (by decide)
    · rintro cs hhash
      obtain ⟨rfl, -⟩ := List.cons.inj hhash
      exact absurd hc (by decide)
  | className name => simp [text, read]
  | id name => simp [text, read]

end Selector

/-! ## Declarations -/

theorem Expr.text_of_literal? {e : Expr} {v : Literal} (h : e.literal? = some v) :
    e.text = v.text := by
  cases e with
  | literal id span value =>
    obtain rfl := Option.some.inj h
    rfl
  | _ => cases h

namespace Css

theorem isNameChar_of_isWord {name : String} (h : Lexeme.IsWord name) :
    ∀ c ∈ name.toList, Lexeme.isNameChar c := by
  obtain ⟨-, c, cs, hname, hc, hcs⟩ := h
  rw [hname]
  exact List.forall_mem_cons.2 ⟨Lexeme.isNameChar_of_isLower hc, hcs⟩

theorem takeWhile_printed {property : String} (h : Lexeme.IsWord property) (value : String) :
    (printed property value).takeWhile Lexeme.isNameChar = property.toList := by
  rw [printed, List.append_assoc, List.append_assoc]
  exact Lexeme.takeWhile_stop (isNameChar_of_isWord h) (.cons rfl _)

theorem printed_inj {property property' value value' : String} (h : Lexeme.IsWord property)
    (h' : Lexeme.IsWord property') (heq : printed property value = printed property' value') :
    property = property' ∧ value = value' := by
  have hname := congrArg (List.takeWhile Lexeme.isNameChar) heq
  rw [takeWhile_printed h, takeWhile_printed h', String.toList_inj] at hname
  subst hname
  exact ⟨rfl, String.toList_inj.1 (by simpa [printed] using heq)⟩

namespace Declaration

/-- The depth and the property of a declaration, and its value if that is a literal. -/
def entry (x : Declaration) : Nat × String × Option Literal :=
  (x.depth, x.property, x.value.literal?)

/-- Declarations that folding leaves are known by their rows. -/
theorem Settled.row_eq_iff {x y : Declaration} (hx : x.Settled) (hy : y.Settled) :
    x.row = y.row ↔ x.entry = y.entry := by
  obtain ⟨hproperty, v, hvalue, hlegible, -⟩ := id hx
  obtain ⟨hproperty', w, hvalue', hlegible', -⟩ := id hy
  constructor
  · intro h
    have hdepth := congrArg (List.takeWhile (· == '\t')) h
    rw [hx.takeWhile_row, hy.takeWhile_row] at hdepth
    have hbody := congrArg untabbed h
    rw [hx.untabbed_row, hy.untabbed_row] at hbody
    obtain ⟨hname, htext⟩ := printed_inj hproperty hproperty' hbody
    rw [Expr.text_of_literal? hvalue, Expr.text_of_literal? hvalue'] at htext
    have hliteral := congrArg (fun text : String => Literal.read text.toList) htext
    rw [entry, entry, hname, hvalue, hvalue', (List.replicate_inj.1 hdepth).1]
    rw [Literal.read_text hlegible, Literal.read_text hlegible'] at hliteral
    rw [hliteral]
  · intro h
    obtain ⟨hdepth, hrest⟩ := Prod.mk.inj h
    obtain ⟨hname, hliteral⟩ := Prod.mk.inj hrest
    rw [hvalue, hvalue', Option.some.injEq] at hliteral
    rw [row, row, body, body, hdepth, hname, Expr.text_of_literal? hvalue,
      Expr.text_of_literal? hvalue', hliteral]

end Declaration

theorem map_eq_map_iff_of {α β γ : Type} {f : α → β} {g : α → γ} :
    ∀ {xs ys : List α}, (∀ x ∈ xs, ∀ y ∈ ys, f x = f y ↔ g x = g y) →
      (xs.map f = ys.map f ↔ xs.map g = ys.map g)
  | [], [], _ => by simp
  | [], _ :: _, _ => by simp
  | _ :: _, [], _ => by simp
  | x :: xs, y :: ys, h => by
    have hfirst := h x List.mem_cons_self y List.mem_cons_self
    have hrest := map_eq_map_iff_of fun a ha b hb =>
      h a (List.mem_cons_of_mem _ ha) b (List.mem_cons_of_mem _ hb)
    simp only [List.map_cons, List.cons.injEq, hfirst, hrest]

theorem opening_inj {s t : Selector} (hs : s.kind.Legible) (ht : t.kind.Legible)
    (h : opening s = opening t) : s = t := by
  have htext := congrArg Selector.read (List.append_cancel_right h)
  rwa [Selector.read_text hs, Selector.read_text ht] at htext

end Css

/-! ## Listings -/

/-- What a rule says: its selector, and the declarations in its blocks in order. -/
def Rule.listing (r : Rule) : Selector × List (Nat × String × Option Literal) :=
  (r.selector, (Statement.declarationsAll 1 r.body).map Css.Declaration.entry)

/-- What a sheet says. -/
def Sheet.listing (sheet : Sheet) : List (Selector × List (Nat × String × Option Literal)) :=
  sheet.rules.map Rule.listing

theorem Rule.block_eq_iff {r s : Rule} (hr : (Item.rule r).Legible) (hr' : (Item.rule r).Settled)
    (hs : (Item.rule s).Legible) (hs' : (Item.rule s).Settled) :
    r.block = s.block ↔ r.listing = s.listing := by
  have hrows := Css.map_eq_map_iff_of fun x hx y hy => Css.Declaration.Settled.row_eq_iff
    (r.settled_declarations hr hr' x hx) (s.settled_declarations hs hs' y hy)
  have hselector : Css.opening r.selector = Css.opening s.selector ↔ r.selector = s.selector :=
    ⟨Css.opening_inj hr.1 hs.1, fun h => h ▸ rfl⟩
  simp only [block, listing, Css.Block.mk.injEq, Prod.mk.injEq, hselector, hrows]

theorem Sheet.css_eq_iff {one other : Sheet} (hone : one.Legible)
    (hone' : ∀ i ∈ one.items, i.Settled) (hother : other.Legible)
    (hother' : ∀ i ∈ other.items, i.Settled) :
    one.css = other.css ↔ one.listing = other.listing := by
  have hblocks : one.rules.map Rule.block = other.rules.map Rule.block ↔
      one.listing = other.listing :=
    Css.map_eq_map_iff_of fun r hr s hs => Rule.block_eq_iff
      (hone _ (mem_items_of_mem_rules hr)) (hone' _ (mem_items_of_mem_rules hr))
      (hother _ (mem_items_of_mem_rules hs)) (hother' _ (mem_items_of_mem_rules hs))
  rw [← hblocks]
  constructor
  · intro h
    rw [← Css.blocks_css hone hone', ← Css.blocks_css hother hother', h]
  · intro h
    rw [← String.toList_inj, toList_css, toList_css, h]

theorem Sheet.finish_of_checkSource {source : String} {options : Options}
    (hsource : (checkSource source).1.diagnostics = [])
    (hfinish : ((checkSource source).1.sheet.finish options).error = none) :
    ((checkSource source).1.sheet.finish options).sheet.Legible ∧
      ∀ i ∈ ((checkSource source).1.sheet.finish options).sheet.items, i.Settled := by
  have hok : compile options source =
      .ok ((checkSource source).1.sheet.finish options).sheet.css := by
    rw [compile_eq]
    simp [hsource, hfinish]
  obtain ⟨hlegible, hclean, -⟩ := of_compile_ok hok
  exact ⟨legible_finish hlegible options, (settled_finish hclean hfinish).1⟩

/-- The text of a sheet says what the sheet does. Of two sources that are accepted, with or without
selecting branches, the finished sheets have one text if and only if they have the same rules in
order, each with the same selector and the same declarations in order: the same depth, the same
property, and the same value, which is a literal. -/
theorem Sheet.css_unambiguous (source source' : String) (options options' : Options)
    (hsource : (checkSource source).1.diagnostics = [])
    (hsource' : (checkSource source').1.diagnostics = [])
    (hfinish : ((checkSource source).1.sheet.finish options).error = none)
    (hfinish' : ((checkSource source').1.sheet.finish options').error = none) :
    let one := ((checkSource source).1.sheet.finish options).sheet
    let other := ((checkSource source').1.sheet.finish options').sheet
    (one.css = other.css ↔ one.listing = other.listing) ∧
      ∀ rule ∈ one.listing, ∀ entry ∈ rule.2, entry.2.2.isSome := by
  obtain ⟨hlegible, hsettled⟩ := finish_of_checkSource hsource hfinish
  obtain ⟨hlegible', hsettled'⟩ := finish_of_checkSource hsource' hfinish'
  refine ⟨css_eq_iff hlegible hsettled hlegible' hsettled', List.forall_mem_map.2 fun r hr => ?_⟩
  refine List.forall_mem_map.2 fun x hx => ?_
  obtain ⟨-, v, hvalue, -⟩ := r.settled_declarations (hlegible _ (mem_items_of_mem_rules hr))
    (hsettled _ (mem_items_of_mem_rules hr)) x hx
  exact Option.isSome_of_eq_some hvalue

def branchedSource : String :=
  "#f0 \x7b if [TRUE] \x7b width: 1px - 3px; \x7d else \x7b shown: FALSE; \x7d zoom: 1% - 3%; \x7d"

/-- A rule with two conditionals, and with variables. -/
def variableSource : String :=
  "Low := 0% - 2%; #f0 \x7b if [FALSE] \x7b W := 2px * 2 - 6px; width: W; \x7d " ++
    "if [FALSE] \x7b shown: FALSE; \x7d zoom: Low; \x7d"

/-- Sheets with one text from sources with different conditionals, and a third one whose text is
different because its branches are selected. -/
theorem Sheet.css_unambiguous_branched :
    let finished (source : String) (selecting : Bool) :=
      ((checkSource source).1.sheet.finish { selectBranches := selecting }).sheet
    (finished branchedSource false).css =
        "#f0 \x7b\n\t\twidth: -2px;\n\t\tshown: false;\n\tzoom: -2%;\n\x7d\n" ∧
      (finished branchedSource false).css = (finished variableSource false).css ∧
      (finished branchedSource false).listing = (finished variableSource false).listing ∧
      (finished branchedSource false).listing ≠ (finished branchedSource true).listing := by
  intro finished
  obtain ⟨hone, hother, hfirst, hfirst', hselected⟩ :
      (checkSource branchedSource).1.diagnostics = [] ∧
      (checkSource variableSource).1.diagnostics = [] ∧
      ((checkSource branchedSource).1.sheet.finish { selectBranches := false }).error = none ∧
      ((checkSource variableSource).1.sheet.finish { selectBranches := false }).error = none ∧
      ((checkSource branchedSource).1.sheet.finish { selectBranches := true }).error = none := by
    decide +kernel
  obtain ⟨htext, hsame, hdifferent⟩ : (finished branchedSource false).css =
        "#f0 \x7b\n\t\twidth: -2px;\n\t\tshown: false;\n\tzoom: -2%;\n\x7d\n" ∧
      (finished branchedSource false).css = (finished variableSource false).css ∧
      (finished branchedSource false).css ≠ (finished branchedSource true).css := by
    decide +kernel
  have hlisting := (css_unambiguous _ _ _ _ hone hother hfirst hfirst').1
  have hlisting' := (css_unambiguous _ _ _ _ hone hone hfirst hselected).1
  exact ⟨htext, hsame, hlisting.1 hsame, fun h => hdifferent (hlisting'.2 h)⟩

end TypedStyle
