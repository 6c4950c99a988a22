import TypedStyle.Proofs.Embedding
import TypedStyle.Proofs.Legible
import TypedStyle.Proofs.SpanBounds

/-!
# Sources one behind the other

A sheet may be cut between its members and read in parts. The parts meet at a blank: no lexeme goes
on over it, so the tokens of the whole are those of the parts, the later ones further on in the text.
A member of a sheet ends with a mark of its own, so reading it does not look at what comes behind.
-/

namespace TypedStyle

/-! ## Lexemes up to a blank -/

namespace Lexeme

variable {b c : Char} {text rest : List Char}

theorem not_isVisible_of_isBlank (hb : Text.isBlank b) : ¬IsVisible b := by
  intro hvisible
  simp [hvisible.isBlank] at hb

theorem isVisible_of_isNameChar (h : isNameChar c) : IsVisible c :=
  isVisible_of_isMarkedChar (isMarkedChar_of_isNameChar h)

theorem isVisible_of_isVariableChar (h : isVariableChar c) : IsVisible c := by
  apply isVisible_of_isMarkedChar
  have hletter : c.isAlpha = (c.isUpper || c.isLower) := rfl
  simp only [isVariableChar, Char.isAlphanum, hletter, Bool.or_eq_true, beq_iff_eq] at h
  simp only [isMarkedChar, isNameChar, Bool.or_eq_true, beq_iff_eq]
  rcases h with ((h | h) | h) | h
  · exact .inr h
  · exact .inl (.inl (.inl (.inl h)))
  · exact .inl (.inl (.inl (.inr h)))
  · exact .inl (.inr h)

section Blank

variable {b : Char} (hb : ¬IsVisible b) {c : Char} {rest more : List Char}

include hb

theorem ne_of_not_isVisible {x : Char} (hx : IsVisible x) : b ≠ x := by
  rintro rfl
  exact hb hx

theorem takeWhile_append_blank {p : Char → Bool} (hp : ∀ x, p x → IsVisible x) :
    (rest ++ b :: more).takeWhile p = rest.takeWhile p := by
  have hstop : p b = false := by
    rw [Bool.eq_false_iff]
    exact fun h => hb (hp b h)
  induction rest with
  | nil => simp [hstop]
  | cons x rest ih => simp only [List.cons_append, List.takeWhile_cons, ih]

theorem dropWhile_append_blank {p : Char → Bool} (hp : ∀ x, p x → IsVisible x) :
    (rest ++ b :: more).dropWhile p = rest.dropWhile p ++ b :: more := by
  have hstop : p b = false := by
    rw [Bool.eq_false_iff]
    exact fun h => hb (hp b h)
  induction rest with
  | nil => simp [hstop]
  | cons x rest ih =>
    simp only [List.cons_append, List.dropWhile_cons, ih]
    split
    · rfl
    · rfl

theorem number_append_blank :
    number c (rest ++ b :: more) = ((number c rest).1, (number c rest).2 ++ b :: more) := by
  have hunit (text : List Char) : unit (text ++ b :: more) =
      ((unit text).1, (unit text).2.1, (unit text).2.2 ++ b :: more) := by
    have hp := ne_of_not_isVisible hb (x := 'p') (by decide)
    have hx := ne_of_not_isVisible hb (x := 'x') (by decide)
    have hpercent := ne_of_not_isVisible hb (x := '%') (by decide)
    rcases text with _ | ⟨x, _ | ⟨y, text⟩⟩
    · simp [unit, hp, hpercent]
    · by_cases hxp : x = 'p'
      · simp [unit, hxp, hx]
      · by_cases hxpercent : x = '%'
        · simp [unit, hxpercent]
        · simp [unit, hxp, hxpercent]
    · by_cases hxp : x = 'p'
      · by_cases hy : y = 'x'
        · simp [unit, hxp, hy]
        · simp [unit, hxp, hy]
      · by_cases hxpercent : x = '%'
        · simp [unit, hxpercent]
        · simp [unit, hxp, hxpercent]
  simp only [number, takeWhile_append_blank hb fun _ => isVisible_of_isDigit,
    dropWhile_append_blank hb fun _ => isVisible_of_isDigit, hunit]

theorem marked_append_blank :
    marked c (rest ++ b :: more) = ((marked c rest).1, (marked c rest).2 ++ b :: more) := by
  have htake : (rest ++ b :: more).takeWhile isMarkedChar = rest.takeWhile isMarkedChar :=
    takeWhile_append_blank hb fun _ => isVisible_of_isMarkedChar
  have hdrop : (rest ++ b :: more).dropWhile isMarkedChar =
      rest.dropWhile isMarkedChar ++ b :: more :=
    dropWhile_append_blank hb fun _ => isVisible_of_isMarkedChar
  simp only [marked, htake, hdrop]
  cases rest.takeWhile isMarkedChar with
  | nil => rfl
  | cons x name => rfl

theorem punct?_append_blank :
    punct? c (rest ++ b :: more) =
      (punct? c rest).map fun (mark, text, rest) => (mark, text, rest ++ b :: more) := by
  have hequals := ne_of_not_isVisible hb (x := '=') (by decide)
  by_cases hc : c = ':'
  · subst hc
    cases rest with
    | nil => simp [punct?, hequals]
    | cons x rest =>
      by_cases hx : x = '='
      · simp [punct?, hx]
      · simp [punct?, hx]
  · unfold punct?
    split <;> simp_all

theorem comment?_append_blank (h : comment? c rest = none) :
    comment? c (rest ++ b :: more) = none := by
  have hstar := ne_of_not_isVisible hb (x := '*') (by decide)
  cases rest with
  | nil => simp [comment?, hstar]
  | cons x rest =>
    by_cases hstart : c = '/' ∧ x = '*'
    · obtain ⟨rfl, rfl⟩ := hstart
      simp only [comment?] at h
      split at h
      · simp at h
      · simp at h
    · exact comment?.eq_2 _ _ fun tail hc htail => hstart ⟨hc, (List.cons.inj htail).1⟩

end Blank

theorem closing?_append {found : List Char} (h : closing? text = some (found, rest))
    (more : List Char) : closing? (text ++ more) = some (found, rest ++ more) := by
  induction text using closing?.induct generalizing found with
  | case1 => simp [closing?] at h
  | case2 =>
    simp only [closing?, Option.some.injEq, Prod.mk.injEq] at h
    obtain ⟨rfl, rfl⟩ := h
    rfl
  | case3 c text hne ih =>
    rw [closing?.eq_3 _ _ hne] at h
    simp only [Option.map_eq_some_iff, Prod.mk.injEq] at h
    obtain ⟨⟨found', rest'⟩, hclose, rfl, rfl⟩ := h
    -- The text has a closing of its own, so it is not empty and none starts before.
    have hne' : ∀ tail, c = '*' → text ++ more = '/' :: tail → False := by
      intro tail hc htail
      cases text with
      | nil => simp [closing?] at hclose
      | cons x text =>
        obtain ⟨rfl, -⟩ := List.cons.inj htail
        exact hne text hc rfl
    rw [List.cons_append, closing?.eq_3 _ _ hne', ih hclose]
    rfl

theorem comment?_append {l : Lexeme} (h : comment? c text = some (l, rest)) (hclean : l.IsClean)
    (more : List Char) :
    comment? c (text ++ more) = some (l, rest ++ more) := by
  unfold comment? at h
  split at h
  · next text =>
    split at h
    · next found tail hclose =>
      obtain ⟨rfl, rfl⟩ := Prod.mk.inj (Option.some.inj h)
      simp [comment?, closing?_append hclose]
    · obtain ⟨rfl, rfl⟩ := Prod.mk.inj (Option.some.inj h)
      rcases hclean with hclean | ⟨kind, hclean⟩
      · simp at hclean
      · simp at hclean
  · simp at h

/-- A lexeme without fault is the same in front of a blank. -/
theorem next_append_blank (hb : Text.isBlank b) (hclean : (next c rest).1.IsClean)
    (more : List Char) :
    next c (rest ++ b :: more) = ((next c rest).1, (next c rest).2 ++ b :: more) := by
  have hb := not_isVisible_of_isBlank hb
  by_cases hblank : Text.isBlank c
  · simp [next, hblank]
  · cases hcomment : comment? c rest with
    | some found =>
      obtain ⟨l, tail⟩ := found
      simp only [next, hblank, hcomment] at hclean
      have hsame := comment?_append hcomment hclean (b :: more)
      simp only [next, hblank, hcomment, hsame]
      rfl
    | none =>
      have hnone : comment? c (rest ++ b :: more) = none := comment?_append_blank hb hcomment
      simp only [next, if_neg hblank, hcomment, hnone]
      split
      · rw [takeWhile_append_blank (p := isNameChar) hb fun _ => isVisible_of_isNameChar,
          dropWhile_append_blank (p := isNameChar) hb fun _ => isVisible_of_isNameChar]
      · split
        · rw [takeWhile_append_blank (p := isVariableChar) hb fun _ => isVisible_of_isVariableChar,
            dropWhile_append_blank (p := isVariableChar) hb fun _ => isVisible_of_isVariableChar]
        · split
          · exact number_append_blank hb
          · split
            · exact marked_append_blank hb
            · rw [punct?_append_blank hb]
              cases punct? c rest with
              | none => rfl
              | some found => rfl

/-- The lexemes of a text without faults are the same in front of a blank. -/
theorem lexemes_append_blank (hb : Text.isBlank b) (hclean : ∀ l ∈ lexemes text, l.IsClean)
    (more : List Char) :
    lexemes (text ++ b :: more) = lexemes text ++ ⟨[b], .skipped⟩ :: lexemes more := by
  fun_induction lexemes text with
  | case1 =>
    rw [List.nil_append, lexemes, next, if_pos hb]
    rfl
  | case2 c rest ih =>
    have hfirst := next_append_blank hb (hclean _ List.mem_cons_self) more
    have hrest := ih fun l hl => hclean l (List.mem_cons_of_mem _ hl)
    rw [List.cons_append, lexemes, hfirst, hrest, List.cons_append]

end Lexeme

/-! ## Tokens of both texts -/

/-- A span further on in the text. -/
def Span.shift (distance : Nat) (s : Span) : Span :=
  ⟨s.start + distance, s.stop + distance⟩

theorem Span.shift_merge (distance : Nat) (a b : Span) :
    (a.merge b).shift distance = (a.shift distance).merge (b.shift distance) := by
  simp only [shift, merge, mk.injEq]
  omega

/-- Tokens are found again further on, behind as many nodes, and at the end of both texts. -/
def Embedding.onward (nodes distance : Nat) : Embedding where
  shift := nodes
  spans := Span.shift distance
  merge := Span.shift_merge distance
  before := []
  tail := []
  more := []

/-- Tokens are found again where they are, but the text goes on with `more` instead of `tail`. -/
def Embedding.extension (tail more : List Token) : Embedding where
  shift := 0
  spans := fun s => s
  merge := fun _ _ => rfl
  before := []
  tail
  more

namespace Lexeme

theorem place_append (start : Nat) (ls ls' : List Lexeme) :
    place start (ls ++ ls') =
      place start ls ++ place (start + Text.byteSize (ls.flatMap text)) ls' := by
  induction ls generalizing start with
  | nil => rfl
  | cons l rest ih =>
    simp only [List.cons_append, place, ih, List.flatMap_cons, Text.byteSize_append, Nat.add_assoc]

theorem token?_place_add (start distance nodes : Nat) (ls : List Lexeme) :
    (place (start + distance) ls).filterMap token? =
      ((place start ls).filterMap token?).map (Embedding.onward nodes distance).token := by
  induction ls generalizing start with
  | nil => rfl
  | cons l rest ih =>
    obtain ⟨text, reading⟩ := l
    have hrest := ih (start + Text.byteSize text)
    rw [Nat.add_right_comm] at hrest
    have hspan : Span.shift distance ⟨start, start + Text.byteSize text⟩ =
        ⟨start + distance, start + distance + Text.byteSize text⟩ := by
      rw [Span.shift, Nat.add_right_comm]
    cases reading with
    | skipped => exact hrest
    | fault problem => exact hrest
    | token kind =>
      simp only [place, token?, List.filterMap_cons, List.map_cons, hrest]
      simp only [Embedding.token, Embedding.onward, hspan]
    | clipped kind =>
      simp only [place, token?, List.filterMap_cons, List.map_cons, hrest]
      simp only [Embedding.token, Embedding.onward, hspan]

end Lexeme

namespace Token

theorem isClean_of_diagnostics {source : List Char} (h : (scan source).diagnostics = []) :
    ∀ l ∈ lexemes source, l.IsClean := by
  have hplace (start : Nat) (ls : List Lexeme)
      (hls : (Lexeme.place start ls).filterMap Lexeme.diagnostic? = []) : ∀ l ∈ ls, l.IsClean := by
    induction ls generalizing start with
    | nil => simp
    | cons l rest ih =>
      obtain ⟨text, reading⟩ := l
      simp only [Lexeme.place, List.filterMap_cons] at hls
      cases reading with
      | skipped => exact List.forall_mem_cons.2 ⟨.inl rfl, ih _ hls⟩
      | token kind => exact List.forall_mem_cons.2 ⟨.inr ⟨kind, rfl⟩, ih _ hls⟩
      | clipped kind => simp [Lexeme.diagnostic?] at hls
      | fault problem => simp [Lexeme.diagnostic?] at hls
  exact hplace 0 _ h

/-- Two texts without faults and a blank between them have the tokens of the first one, without its
end, and those of the other one, further on. -/
theorem scan_append {b : Char} (hb : Text.isBlank b) {text more : List Char}
    (htext : (scan text).diagnostics = []) (hmore : (scan more).diagnostics = []) (nodes : Nat) :
    (scan (text ++ b :: more)).tokens = (scan text).tokens.dropLast ++
        (scan more).tokens.map (Embedding.onward nodes (Text.byteSize (text ++ [b]))).token ∧
      (scan (text ++ b :: more)).diagnostics = [] := by
  have hclean := isClean_of_diagnostics htext
  have hlexemes := Lexeme.lexemes_append_blank hb hclean more
  refine ⟨?_, diagnostics_scan ?_⟩
  · have hstart : 0 + Text.byteSize text + Text.byteSize [b] =
        0 + Text.byteSize (text ++ [b]) := by simp
    have hsize : Text.byteSize (text ++ b :: more) =
        Text.byteSize more + Text.byteSize (text ++ [b]) := by
      simp
      omega
    simp only [scan, hlexemes, Lexeme.place_append, flatMap_text_lexemes, Lexeme.place,
      List.filterMap_append, List.filterMap_cons, Lexeme.token?, List.dropLast_concat, hstart,
      hsize, Lexeme.token?_place_add 0 _ nodes, List.map_append, List.append_assoc]
    rfl
  · rw [hlexemes]
    intro l hl
    rcases List.mem_append.1 hl with hl | hl
    · exact hclean l hl
    · rcases List.mem_cons.1 hl with rfl | hl
      · exact .inl rfl
      · exact isClean_of_diagnostics hmore l hl

end Token

/-! ## Members in front of more -/

namespace Reader

variable {r : Reader}

theorem length_expect_lt {mark : Punct} (h : (r.expect mark).found = r.found) :
    (r.expect mark).rest.length < r.rest.length := by
  unfold expect at h ⊢
  split
  · next heat => exact length_lt_of_eat heat
  · next heat => simp [heat] at h

theorem closeBlock_of_found {opening : Span} {body : List Statement}
    (h : (closeBlock opening body r).found = r.found) :
    closeBlock opening body r = r.expect .rightBrace := by
  unfold closeBlock at h ⊢
  split
  · next hempty =>
    have hle := (expect_consumes r .rightBrace).found_le
    simp only [hempty, if_true, found_report] at h
    omega
  · rfl

variable {m : Embedding}

theorem sees_of_expect (htail : m.tail.length = 1) {mark : Punct}
    (hfound : (r.expect mark).found = r.found) (hclosed : Closed (r.expect mark).rest) :
    m.Sees r := by
  have hlt := length_expect_lt hfound
  obtain ⟨t, rest, hrest⟩ := hclosed.exists_cons
  rw [hrest, List.length_cons] at hlt
  exact .inl (by omega)

theorem sees_of_assignment (htail : m.tail.length = 1) {name : Ident}
    (hfound : (assignment name r).2.found = r.found) (hclosed : Closed (assignment name r).2.rest) :
    m.Sees (r.expect .assign).expr.2 := by
  have hmark := (expect_consumes r .assign).found_le
  have hvalue := (expr_consumes (r.expect .assign)).found_le
  have hlast := (expect_consumes (r.expect .assign).expr.2 .semicolon).found_le
  have hsame : ((r.expect .assign).expr.2.expect .semicolon).found = r.found := hfound
  exact sees_of_expect htail (by omega) hclosed

/-- A block that is read without problems ends before the end of the source. -/
theorem sees_of_block (htail : m.tail.length = 1) (hfound : r.block.2.found = r.found)
    (hclosed : Closed r.block.2.rest) :
    m.Sees (r.expect .leftBrace).statements.2 := by
  rw [block_eq] at hfound hclosed
  have hmark := (expect_consumes r .leftBrace).found_le
  have hbody := (statements_consumes (r.expect .leftBrace)).found_le
  have hlast := (closeBlock_consumes r.peek.span (r.expect .leftBrace).statements.1
    (r.expect .leftBrace).statements.2).found_le
  dsimp only at hfound hclosed
  have hclose : closeBlock r.peek.span (r.expect .leftBrace).statements.1
      (r.expect .leftBrace).statements.2 = (r.expect .leftBrace).statements.2.expect .rightBrace :=
    closeBlock_of_found (by omega)
  rw [hclose] at hfound hclosed hlast
  exact sees_of_expect htail (by omega) hclosed

theorem found_between {s t : Reader} (hrs : r.found ≤ s.found) (hst : s.found ≤ t.found)
    (h : t.found = r.found) : s.found = r.found ∧ t.found = s.found := by
  omega

theorem items_of_variable {t : Token} {rest : List Token} {name : String}
    (hrest : r.rest = t :: rest) (hlead : ItemLead.of t.kind = .variable name) :
    r.items =
      (.assign (assignment ⟨name, t.span⟩ (r.advance t rest)).1 ::
        (assignment ⟨name, t.span⟩ (r.advance t rest)).2.items.1,
        (assignment ⟨name, t.span⟩ (r.advance t rest)).2.items.2) := by
  simp only [items_eq r, hrest, hlead]

theorem items_of_selector {t : Token} {rest : List Token} {selector : Selector}
    (hrest : r.rest = t :: rest) (hlead : ItemLead.of t.kind = .selector selector) :
    r.items =
      (.rule { selector, body := (r.advance t rest).block.1
               span := t.span.merge (r.advance t rest).block.2.prevSpan } ::
        (r.advance t rest).block.2.items.1, (r.advance t rest).block.2.items.2) := by
  simp only [items_eq r, hrest, hlead]

/-- Members that are read without problems up to the end of their text are read as well where the
text goes on, and then those that follow are read. -/
theorem Faces.items_append {r r' : Reader} (h : Faces m r r') (htail : m.tail.length = 1)
    (hclosed : Closed r.rest) (hfound : r.items.2.found = r.found) :
    ∃ next, Faces m r.items.2 next ∧ next.rest = m.more ∧
      r'.items = (r.items.1.map (Item.relabel m.id m.spans) ++ next.items.1, next.items.2) := by
  obtain ⟨t, rest, hrest⟩ := hclosed.exists_cons
  have hlen : r.rest.length = rest.length + 1 := by simp [hrest]
  rw [hrest] at hclosed
  by_cases heof : t.kind = .eof
  · -- Nothing is left but the end, in whose place the other text goes on.
    obtain rfl := hclosed.eq_nil heof
    have hitems : r.items = ([], r) := by simp [items_eq, hrest, heof, ItemLead.of]
    obtain ⟨front, hfront, hfront'⟩ := h.rest
    have hnil : front = [] := by
      have hsize := congrArg List.length hfront
      rw [hrest, List.length_append, htail] at hsize
      simpa using hsize
    rw [hitems]
    exact ⟨r', h, by simpa [hnil] using hfront', by simp⟩
  · have hrest' := hclosed.tail heof
    have hview : m.Sees r := by
      obtain ⟨t', rest', hcons⟩ := hrest'.exists_cons
      exact .inl (by simp [hrest, hcons, htail])
    obtain ⟨hnil, -⟩ | ⟨t', _, tail, hcons, hcons', hadvance⟩ := h.rest_cases hview
    · simp [hrest] at hnil
    · obtain ⟨rfl, rfl⟩ := List.cons.inj (hrest.symm.trans hcons)
      cases hlead : ItemLead.of t.kind with
      | stop => exact absurd (ItemLead.kind_of_stop hlead) heof
      | «variable» name =>
        have hfirst := assignment_consumes ⟨name, t.span⟩ (r.advance t rest)
        have hlast := (items_consumes (assignment ⟨name, t.span⟩ (r.advance t rest)).2).found_le
        rw [items_of_variable hrest hlead] at hfound ⊢
        obtain ⟨hmid, hend⟩ := found_between hfirst.found_le hlast hfound
        obtain ⟨-, -, -, hclosed'⟩ := hfirst.used hmid hrest'
        obtain ⟨hassign, hnext⟩ := hadvance.assignment ⟨name, t.span⟩
          (sees_of_assignment htail hmid hclosed')
        have hle : (assignment ⟨name, t.span⟩ (r.advance t rest)).2.rest.length ≤ rest.length :=
          length_assignment_le _ _
        obtain ⟨next, hfaces, hmore, happend⟩ := hnext.toFaces.items_append htail hclosed' hend
        refine ⟨next, hfaces, hmore, ?_⟩
        rw [items_of_variable (r := r') hcons' hlead]
        rw [List.map_cons, Item.relabel, ← hassign]
        exact congrArg (fun x => (_ :: x.1, x.2)) happend
      | selector selector =>
        have hfirst := block_consumes (r.advance t rest)
        have hlast := (items_consumes (r.advance t rest).block.2).found_le
        rw [items_of_selector hrest hlead] at hfound ⊢
        obtain ⟨hmid, hend⟩ := found_between hfirst.found_le hlast hfound
        obtain ⟨-, -, -, hclosed'⟩ := hfirst.used hmid hrest'
        obtain ⟨hbody, hnext⟩ := hadvance.block (sees_of_block htail hmid hclosed')
        have hle : (r.advance t rest).block.2.rest.length ≤ rest.length := length_block_le _
        obtain ⟨next, hfaces, hmore, happend⟩ := hnext.toFaces.items_append htail hclosed' hend
        refine ⟨next, hfaces, hmore, ?_⟩
        rw [items_of_selector (r := r') hcons' hlead]
        simp only [List.map_cons, Item.relabel, m.merge]
        rw [← hbody, ← hnext.prevSpan]
        exact congrArg (fun x => (_ :: x.1, x.2)) happend
      | nothing =>
        have hle := (items_consumes (r.report t.span (.itemExpected t.kind)).toItem).found_le
        have hmet : (r.report t.span (.itemExpected t.kind)).toItem.found = r.found + 1 :=
          found_report ..
        have hitems : r.items = (r.report t.span (.itemExpected t.kind)).toItem.items := by
          simp only [items_eq r, hrest, hlead]
        rw [hitems] at hfound
        omega
termination_by r.rest.length

/-- Reading the tokens of two texts one behind the other, with no end between them. -/
theorem items_start_append {tokens : List Token} (more : List Token) (hclosed : Closed tokens)
    (hnone : (start tokens []).items.2.diagnostics = []) {nodes : Nat}
    (hnodes : nodes = ((start tokens []).items.1.flatMap Item.nodes).length) (distance : Nat) :
    let m := Embedding.onward nodes distance
    let whole := start (tokens.dropLast ++ more.map m.token) []
    whole.items.1 = (start tokens []).items.1 ++
        (start more []).items.1.map (Item.relabel m.id m.spans) ∧
      whole.items.2.diagnostics = (start more []).items.2.diagnostics.map m.diagnostic := by
  intro m whole
  obtain ⟨body, last, htokens, -⟩ := id hclosed
  -- The first text is read as if it were alone, up to where its end would stand.
  have hfirst : Faces (.extension [last] (more.map m.token)) (start tokens []) whole := by
    refine ⟨⟨body, htokens, ?_⟩, rfl, rfl⟩
    have hid : (Embedding.extension [last] (more.map m.token)).token = fun t => t := rfl
    simp only [whole, start, htokens, List.dropLast_concat, hid, List.map_id']
    rfl
  have hfound : (start tokens []).items.2.found = (start tokens []).found := by
    rw [found, hnone]
    rfl
  obtain ⟨next, hnext, hrest, hwhole⟩ := hfirst.items_append rfl hclosed hfound
  have hself : (start tokens []).items.1.map (Item.relabel
      (Embedding.extension [last] (more.map m.token)).id
      (Embedding.extension [last] (more.map m.token)).spans) = (start tokens []).items.1 :=
    List.map_id'' Item.relabel_self _
  -- There the reader is in front of the other text, and has made the nodes of the first one.
  have hlabels := items_labels (P := fun _ => True) (r := start tokens [])
    ⟨⟨trivial, fun _ _ => trivial⟩, by simp, by simp, by simp⟩
  have hsecond : Faces m (start more []) next := by
    refine ⟨⟨more, by simp [start, m, Embedding.onward], ?_⟩, ?_, ?_⟩
    · rw [hrest]
      exact (List.append_nil _).symm
    · rw [hnext.nextId, hlabels.nextId, ← hnodes]
      rfl
    · rw [hnext.diagnostics, hnone]
      rfl
  obtain ⟨hitems, hafter⟩ := hsecond.items ⟨rfl, rfl⟩
  rw [hwhole]
  exact ⟨by rw [hself, hitems], hafter.diagnostics⟩

end Reader

/-! ## Sheets -/

theorem Sheet.items_of_parse {source : String} (h : (parse source).diagnostics = []) :
    Reader.Closed (Token.scan source.toList).tokens ∧
      (Reader.start (Token.scan source.toList).tokens []).items.1 = (parse source).sheet.items ∧
      (parse source).sheet.items ≠ [] ∧
      (Reader.start (Token.scan source.toList).tokens []).items.2.diagnostics = [] := by
  obtain ⟨body, last, htokens, hlast, -, hlegible⟩ := Token.legible_scan source.toList
  have hscan := Token.diagnostics_scan_of_parse h
  have hclosed : Reader.Closed (Token.scan source.toList).tokens := by
    refine ⟨body, last, htokens, hlast, ?_⟩
    intro t ht hkind
    have hfalse := hlegible t ht
    rw [hkind] at hfalse
    exact hfalse
  have hitems : (Reader.start (Token.scan source.toList).tokens []).items.1 =
      (parse source).sheet.items := by
    simp only [parse, hscan, Reader.sheet]
  simp only [parse, hscan, Reader.sheet] at h
  split at h
  · simp [Reader.report] at h
  · next hcond =>
    refine ⟨hclosed, hitems, ?_, h⟩
    intro hnil
    simp [hitems, hnil, h] at hcond

theorem Sheet.parse_of_items {source : String} (hscan : (Token.scan source.toList).diagnostics = [])
    (hne : (Reader.start (Token.scan source.toList).tokens []).items.1 ≠ [])
    (hnone : (Reader.start (Token.scan source.toList).tokens []).items.2.diagnostics = []) :
    (parse source).diagnostics = [] ∧ (parse source).sheet.items =
      (Reader.start (Token.scan source.toList).tokens []).items.1 := by
  simp only [parse, hscan, Reader.sheet]
  rw [if_neg (by simp [hne])]
  exact ⟨hnone, trivial⟩

/-- Sources can be read one behind the other. Two sources that are read without problems, with a
line break between them, are read without problems. The members are those of the first source, and
those of the other one with spans further on by the bytes in front of them and with identities
further on by the nodes in front of them. -/
theorem Sheet.parse_append (s t : String) (hs : (parse s).diagnostics = [])
    (ht : (parse t).diagnostics = []) :
    (parse (s ++ "\n" ++ t)).diagnostics = [] ∧
    (parse (s ++ "\n" ++ t)).sheet.items = (parse s).sheet.items ++
      (parse t).sheet.items.map (Item.relabel (fun id => ⟨id.val + (parse s).sheet.ids.length⟩)
        (Span.shift (s.utf8ByteSize + 1))) := by
  obtain ⟨hclosed, hitems, hne, hnone⟩ := items_of_parse hs
  obtain ⟨-, hitems', -, hnone'⟩ := items_of_parse ht
  have hsource : (s ++ "\n" ++ t).toList = s.toList ++ '\n' :: t.toList := by
    simp [String.toList_append]
  have hdistance : Text.byteSize (s.toList ++ ['\n']) = s.utf8ByteSize + 1 := by
    rw [Text.byteSize_append, ← Text.utf8ByteSize_ofList, String.ofList_toList]
    rfl
  obtain ⟨htokens, hscan⟩ := Token.scan_append (b := '\n') (by decide)
    (Token.diagnostics_scan_of_parse hs) (Token.diagnostics_scan_of_parse ht)
    (parse s).sheet.ids.length
  rw [hdistance] at htokens
  have hnodes : (parse s).sheet.ids.length =
      ((Reader.start (Token.scan s.toList).tokens []).items.1.flatMap Item.nodes).length := by
    rw [hitems]
    exact List.length_map _
  obtain ⟨hwhole, hafter⟩ := Reader.items_start_append (Token.scan t.toList).tokens hclosed hnone
    hnodes (s.utf8ByteSize + 1)
  rw [← htokens, hitems, hitems', ← hsource] at hwhole
  rw [← htokens, hnone', ← hsource] at hafter
  rw [← hsource] at hscan
  obtain ⟨hdiagnostics, hsheet⟩ := parse_of_items hscan (by rw [hwhole]; simp [hne]) hafter
  exact ⟨hdiagnostics, hsheet.trans hwhole⟩

/-- A source that ends right behind a comment, which goes over characters of several bytes. -/
def seamFront : String := "A := 1px + 2px;/* \u00e9\u2192 */"

/-- A source that refers to what the other one assigns. -/
def seamBack : String := "a \x7b width: A * 2px; \x7d"

theorem Sheet.parse_append_seam :
    (parse seamFront).diagnostics = [] ∧ (parse seamBack).diagnostics = [] ∧
    (parse seamFront).sheet.ids.length = 3 ∧ seamFront.utf8ByteSize = 26 ∧
    (parse (seamFront ++ "\n" ++ seamBack)).diagnostics = [] ∧
    (parse (seamFront ++ "\n" ++ seamBack)).sheet.items = (parse seamFront).sheet.items ++
      (parse seamBack).sheet.items.map
        (Item.relabel (fun id => ⟨id.val + (parse seamFront).sheet.ids.length⟩)
          (Span.shift (seamFront.utf8ByteSize + 1))) := by
  have hfront : (parse seamFront).diagnostics = [] := by decide +kernel
  have hback : (parse seamBack).diagnostics = [] := by decide +kernel
  exact ⟨hfront, hback, by decide +kernel, by decide +kernel,
    parse_append seamFront seamBack hfront hback⟩

end TypedStyle
