import TypedStyle.Proofs.Concatenation
import TypedStyle.Proofs.Tiling

/-!
# Slices of a source

A stretch of tokens, from the first of them to the last one, covers a part of the source. Cut out,
this part is read as these tokens again: its pieces are pieces of the source, and a piece does not
go further because less comes behind it.
-/

namespace TypedStyle

/-! ## Stretches of tokens -/

/-- The stretch lies in the other one. -/
structure Span.Within (inner outer : Span) : Prop where
  start_le : outer.start ≤ inner.start
  stop_le : inner.stop ≤ outer.stop

theorem Span.merge_eq {a b outer : Span} (ha : a.Within outer) (hb : b.Within outer)
    (hstart : a.start = outer.start) (hstop : b.stop = outer.stop) : a.merge b = outer := by
  obtain ⟨-, ha⟩ := ha
  obtain ⟨hb, -⟩ := hb
  rw [merge, Nat.min_eq_left (hstart ▸ hb), Nat.max_eq_right (hstop ▸ ha), hstart, hstop]

namespace Token

/-- From the start of the first token to the end of the last one. -/
def extent? (tokens : List Token) : Option Span := do
  let first ← tokens.head?
  let last ← tokens.getLast?
  return ⟨first.span.start, last.span.stop⟩

/-- No token ends before it starts, and none reaches into the next one. -/
structure InOrder (tokens : List Token) : Prop where
  start_le : ∀ t ∈ tokens, t.span.start ≤ t.span.stop
  pairwise : tokens.Pairwise fun t u => t.span.stop ≤ u.span.start

theorem extent?_eq_some_iff {tokens : List Token} {span : Span} :
    extent? tokens = some span ↔ ∃ first last, tokens.head? = some first ∧
      tokens.getLast? = some last ∧ ⟨first.span.start, last.span.stop⟩ = span := by
  simp [extent?, Option.bind_eq_some_iff]

namespace InOrder

variable {tokens part : List Token}

theorem sublist (h : InOrder tokens) (hpart : part.Sublist tokens) : InOrder part :=
  ⟨fun t ht => h.start_le t (hpart.subset ht), h.pairwise.sublist hpart⟩

theorem stop_le {front back : List Token} (h : InOrder (front ++ back)) (hpart : part ⊆ back)
    {a b : Span} (ha : extent? front = some a) (hb : extent? part = some b) : a.stop ≤ b.start := by
  obtain ⟨-, last, -, hlast, rfl⟩ := extent?_eq_some_iff.1 ha
  obtain ⟨first, -, hfirst, -, rfl⟩ := extent?_eq_some_iff.1 hb
  exact (List.pairwise_append.1 h.pairwise).2.2 last (List.mem_of_getLast? hlast) first
    (hpart (List.mem_of_head? hfirst))

theorem within_of_mem (h : InOrder tokens) {span : Span} (hspan : extent? tokens = some span)
    {t : Token} (ht : t ∈ tokens) : t.span.Within span := by
  obtain ⟨first, last, hfirst, hlast, rfl⟩ := extent?_eq_some_iff.1 hspan
  constructor
  · obtain ⟨rest, rfl⟩ := List.head?_eq_some_iff.1 hfirst
    rcases List.mem_cons.1 ht with rfl | ht
    · exact Nat.le_refl _
    · have hself := h.start_le first List.mem_cons_self
      exact Nat.le_trans hself ((List.pairwise_cons.1 h.pairwise).1 t ht)
  · obtain ⟨init, rfl⟩ := List.getLast?_eq_some_iff.1 hlast
    rcases List.mem_append.1 ht with ht | ht
    · have hself := h.start_le last (by simp)
      have hle := (List.pairwise_append.1 h.pairwise).2.2 t ht last List.mem_cons_self
      exact Nat.le_trans hle hself
    · rw [List.mem_singleton.1 ht]

theorem within (h : InOrder tokens) {inner outer : Span} (hsub : part ⊆ tokens)
    (houter : extent? tokens = some outer) (hinner : extent? part = some inner) :
    inner.Within outer := by
  obtain ⟨first, last, hfirst, hlast, rfl⟩ := extent?_eq_some_iff.1 hinner
  exact ⟨(h.within_of_mem houter (hsub (List.mem_of_head? hfirst))).start_le,
    (h.within_of_mem houter (hsub (List.mem_of_getLast? hlast))).stop_le⟩

theorem extent?_merge (h : InOrder tokens) {first last : Token}
    (hfirst : tokens.head? = some first) (hlast : tokens.getLast? = some last) :
    extent? tokens = some (first.span.merge last.span) := by
  have hspan := extent?_eq_some_iff.2 ⟨first, last, hfirst, hlast, rfl⟩
  rw [hspan, Span.merge_eq (h.within_of_mem hspan (List.mem_of_head? hfirst))
    (h.within_of_mem hspan (List.mem_of_getLast? hlast)) rfl rfl]

theorem extent?_around {front middle back : List Token} (h : InOrder (front ++ middle ++ back))
    {a b : Span} (ha : extent? front = some a) (hb : extent? back = some b) :
    extent? (front ++ middle ++ back) = some (a.merge b) := by
  obtain ⟨first, last, hfirst, -, rfl⟩ := extent?_eq_some_iff.1 ha
  obtain ⟨first', last', -, hlast', rfl⟩ := extent?_eq_some_iff.1 hb
  have hspan : extent? (front ++ middle ++ back) = some ⟨first.span.start, last'.span.stop⟩ :=
    extent?_eq_some_iff.2 ⟨first, last', by simp [hfirst], by simp [hlast'], rfl⟩
  rw [hspan, Span.merge_eq (h.within (by simp) hspan ha) (h.within (by simp) hspan hb) rfl rfl]

end InOrder

end Token

/-! ## Parts of a text -/

/-- The part of a text that a span covers. -/
def Text.slice? (text : List Char) (span : Span) : Option (List Char) := do
  let front ← cut? text span.stop
  let slice ← cut? front.1 span.start
  return slice.2

theorem Text.slice?_append (before slice after : List Char) :
    slice? (before ++ slice ++ after) ⟨byteSize before, byteSize before + byteSize slice⟩ =
      some slice := by
  simp only [slice?, ← byteSize_append, cut?_append, Option.bind_eq_bind, Option.bind_some]
  rfl

namespace Lexeme

variable {after more : List Char}

theorem not_prefix_of_append {front : List Char} (h : ¬front <+: after ++ more) :
    ¬front <+: after :=
  fun hfront => h (hfront.trans (List.prefix_append ..))

theorem Stops.of_append {p : Char → Bool} (h : Stops p (after ++ more)) : Stops p after := by
  intro x hx
  exact h x (by simp [Option.mem_def.1 hx])

theorem endsBefore_of_append {kind : Token.Kind} (h : kind.EndsBefore (after ++ more)) :
    kind.EndsBefore after := by
  cases kind with
  | lower name => exact Stops.of_append h
  | keyword word => exact Stops.of_append h
  | capital name => exact Stops.of_append h
  | bool b => exact Stops.of_append h
  | dotted name => exact Stops.of_append h
  | hash name => exact Stops.of_append h
  | scalar n => exact ⟨Stops.of_append h.1, not_prefix_of_append h.2.1, not_prefix_of_append h.2.2⟩
  | punct mark =>
    cases mark with
    | colon => exact not_prefix_of_append h
    | _ => trivial
  | _ => trivial

theorem IsStray.of_append {c : Char} (h : IsStray c (after ++ more)) : IsStray c after :=
  { h with
    comment := not_prefix_of_append h.comment
    punct := fun mark => not_prefix_of_append (h.punct mark) }

theorem Stands.of_append {l : Lexeme} (h : Stands l (after ++ more)) : Stands l after := by
  generalize hwhole : after ++ more = whole at h
  cases h with
  | blank h => exact .blank h
  | comment h => exact .comment h
  | token h hends => exact .token h (endsBefore_of_append (hwhole ▸ hends))
  | clipped h hunit hlt hends => exact .clipped h hunit hlt (endsBefore_of_append (hwhole ▸ hends))
  | unclosed h =>
    obtain ⟨rfl, -⟩ := List.append_eq_nil_iff.1 hwhole
    exact .unclosed h
  | nameless h hstop => exact .nameless h (Stops.of_append (hwhole ▸ hstop))
  | stray h => exact .stray (IsStray.of_append (hwhole ▸ h))

namespace Tiled

variable {start : Nat} {text : List Char} {front back : List (Lexeme × Span)}

/-- The first pieces of a text are the pieces of its first part, and the others those of the
rest. -/
theorem split (h : Tiled start text (front ++ back)) :
    ∃ before after, text = before ++ after ∧ Tiled start before front ∧
      Tiled (start + Text.byteSize before) after back := by
  induction front generalizing start text with
  | nil => exact ⟨[], text, rfl, .nil start, h⟩
  | cons x front ih =>
    cases h with
    | @cons _ l rest _ hstands hrest =>
      obtain ⟨before, after, rfl, hfront, hback⟩ := ih hrest
      refine ⟨l.text ++ before, after, by simp, .cons hstands.of_append hfront, ?_⟩
      rwa [Text.byteSize_append, ← Nat.add_assoc]

theorem start_head? {pieces : List (Lexeme × Span)} (h : Tiled start text pieces)
    {x : Lexeme × Span} (hx : pieces.head? = some x) : x.2.start = start := by
  cases h with
  | nil => cases hx
  | cons hstands hrest =>
    cases hx
    rfl

theorem stop_getLast? {pieces : List (Lexeme × Span)} (h : Tiled start text pieces)
    {x : Lexeme × Span} (hx : pieces.getLast? = some x) :
    x.2.stop = start + Text.byteSize text := by
  induction h with
  | nil => cases hx
  | @cons start l after pieces hstands hrest ih =>
    rw [Text.byteSize_append, ← Nat.add_assoc]
    cases pieces with
    | nil =>
      cases hrest
      cases hx
      rfl
    | cons y pieces => exact ih (by simpa using hx)

end Tiled

/-- The members that count among others, from the first of them to the last one. -/
theorem exists_stretch {α β : Type} {f : α → Option β} {l : List α} {used : List β} {first last : β}
    (h : l.filterMap f = used) (hfirst : used.head? = some first)
    (hlast : used.getLast? = some last) :
    ∃ front part back x y, l = front ++ part ++ back ∧ part.filterMap f = used ∧
      part.head? = some x ∧ f x = some first ∧ part.getLast? = some y ∧ f y = some last := by
  obtain ⟨more, rfl⟩ := List.head?_eq_some_iff.1 hfirst
  obtain ⟨front, x, tail, rfl, -, hx, htail⟩ := List.filterMap_eq_cons_iff.1 h
  obtain ⟨init, hinit⟩ := List.getLast?_eq_some_iff.1 hlast
  have hfrom : (x :: tail).filterMap f = init ++ [last] := by
    rw [List.filterMap_cons_some hx, htail, hinit]
  obtain ⟨part, rest, hsplit, hpart, hrest⟩ := List.filterMap_eq_append_iff.1 hfrom
  obtain ⟨between, y, back, rfl, hnone, hy, -⟩ := List.filterMap_eq_cons_iff.1 hrest
  have hsplit : x :: tail = part ++ between ++ [y] ++ back := by simp [hsplit]
  refine ⟨front, part ++ between ++ [y], back, x, y, ?_, ?_, ?_, hx, by simp, hy⟩
  · rw [hsplit]
    simp
  · rw [List.filterMap_append, List.filterMap_append, hpart, List.filterMap_eq_nil_iff.2 hnone,
      List.filterMap_cons_some hy, hinit]
    simp
  · have hhead := congrArg List.head? hsplit
    rw [List.head?_append_of_ne_nil _ (by simp)] at hhead
    exact hhead.symm

/-- Some of the tokens of a text are those of a part of its pieces, from the first one to the last
one. -/
theorem exists_pieces {pieces : List (Lexeme × Span)} {before used after : List Token} {span : Span}
    (h : pieces.filterMap token? = before ++ used ++ after)
    (hspan : Token.extent? used = some span) :
    ∃ front part back x y, pieces = front ++ part ++ back ∧ part.filterMap token? = used ∧
      part.head? = some x ∧ part.getLast? = some y ∧ span = ⟨x.2.start, y.2.stop⟩ := by
  obtain ⟨first, last, hfirst, hlast, rfl⟩ := Token.extent?_eq_some_iff.1 hspan
  obtain ⟨init, back, rfl, hinit, -⟩ := List.filterMap_eq_append_iff.1 h
  obtain ⟨front, middle, rfl, -, hmiddle⟩ := List.filterMap_eq_append_iff.1 hinit
  obtain ⟨left, part, right, x, y, rfl, hpart, hx, hfirst', hy, hlast'⟩ :=
    exists_stretch hmiddle hfirst hlast
  refine ⟨front ++ left, part, right ++ back, x, y, by simp, hpart, hx, hy, ?_⟩
  rw [span_of_token? hfirst', span_of_token? hlast']

theorem map_fst_place (start : Nat) (ls : List Lexeme) : (place start ls).map Prod.fst = ls := by
  induction ls generalizing start with
  | nil => rfl
  | cons l rest ih => rw [place, List.map_cons, ih]

end Lexeme

namespace Token

/-- Reading a part of a text that was cut out at tokens gives these tokens again. -/
theorem scan_slice {source : List Char} (hclean : (scan source).diagnostics = [])
    {before used after : List Token} {span : Span}
    (htokens : (scan source).tokens.dropLast = before ++ used ++ after)
    (hspan : extent? used = some span) :
    ∃ slice, Text.slice? source span = some slice ∧ (scan slice).diagnostics = [] ∧
      (scan slice).tokens.map kind = used.map kind ++ [.eof] := by
  have htiled : Lexeme.Tiled 0 source (Lexeme.place 0 (lexemes source)) := Lexeme.tiled_iff.2 rfl
  rw [scan, List.dropLast_concat] at htokens
  obtain ⟨front, part, back, x, y, hpieces, hused, hx, hy, rfl⟩ :=
    Lexeme.exists_pieces htokens hspan
  rw [hpieces] at htiled
  obtain ⟨text, rest, rfl, htext, -⟩ := htiled.split
  obtain ⟨text, slice, rfl, -, hslice⟩ := htext.split
  rw [Nat.zero_add] at hslice
  have hplace := Lexeme.tiled_iff.1 hslice
  refine ⟨slice, ?_, ?_, ?_⟩
  · rw [hslice.start_head? hx, hslice.stop_getLast? hy, Text.slice?_append]
  · refine diagnostics_scan fun l hl => isClean_of_diagnostics hclean l ?_
    have hmem : l ∈ part.map Prod.fst := by rwa [hplace, Lexeme.map_fst_place]
    rw [← Lexeme.map_fst_place 0 (lexemes _), hpieces]
    simp only [List.map_append, List.mem_append]
    exact .inl (.inr hmem)
  · rw [← hused, hplace, Lexeme.map_kind_place, scan, List.map_append, Lexeme.map_kind_place]
    rfl

/-- The tokens of a source are in order, and so is its end behind them. -/
theorem inOrder_scan (source : String) : InOrder (scan source.toList).tokens := by
  have htiled : Lexeme.Tiled 0 source.toList (Lexeme.place 0 (lexemes source.toList)) :=
    Lexeme.tiled_iff.2 rfl
  have hfits := (fitsIn_scan source).1
  refine ⟨fun t ht => (hfits t ht).start_le, List.pairwise_append.2 ⟨?_, by simp, ?_⟩⟩
  · refine htiled.pairwise.filterMap _ fun x y hle t ht u hu => ?_
    rw [Lexeme.span_of_token? ht, Lexeme.span_of_token? hu]
    exact hle
  · intro t ht u hu
    have hsize : Text.byteSize source.toList = source.utf8ByteSize := by
      rw [← Text.utf8ByteSize_ofList, String.ofList_toList]
    obtain rfl := List.mem_singleton.1 hu
    exact hsize ▸ (hfits t (List.mem_append_left _ ht)).stop_le

end Token

end TypedStyle
