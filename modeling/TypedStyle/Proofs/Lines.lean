import Mathlib.Data.List.DropRight
import TypedStyle.Proofs.SpanBounds

/-!
# Lines and columns

A location is found by cutting the source at a byte position and looking at the line around the cut.
Here the line is described from outside, by the parts of the source before and behind its ends.
-/

namespace TypedStyle

namespace Text

variable {text before after : List Char} {offset : Nat}

/-! ## Cuts -/

/-- Where a text is cut. A position past the end cuts behind the last character. -/
theorem byteSize_of_cut? (h : cut? text offset = some (before, after)) :
    byteSize before = min offset (byteSize text) := by
  induction text generalizing offset before after with
  | nil =>
    obtain ⟨rfl, -⟩ : [] = before ∧ [] = after := by simpa [cut?] using h
    simp
  | cons c text ih =>
    rw [cut?] at h
    split at h
    · next hzero =>
      obtain ⟨rfl, -⟩ : [] = before ∧ c :: text = after := by simpa using h
      simp [hzero]
    · split at h
      · cases h
      · obtain ⟨⟨first, last⟩, hcut, hparts⟩ := Option.map_eq_some_iff.1 h
        obtain ⟨rfl, rfl⟩ : c :: first = before ∧ last = after := by simpa using hparts
        rw [byteSize_cons, byteSize_cons, ih hcut]
        omega

theorem cut?_of_le (h : byteSize text ≤ offset) : cut? text offset = some (text, []) := by
  induction text generalizing offset with
  | nil => rfl
  | cons c text ih =>
    have hpos := c.utf8Size_pos
    rw [byteSize_cons] at h
    rw [cut?, if_neg (by omega), if_neg (by omega), ih (by omega), Option.map_some]

theorem cut?_eq_some_iff :
    cut? text offset = some (before, after) ↔
      before ++ after = text ∧ byteSize before = min offset (byteSize text) := by
  constructor
  · intro h
    exact ⟨append_of_cut? h, byteSize_of_cut? h⟩
  · rintro ⟨rfl, hsize⟩
    rw [byteSize_append] at hsize
    by_cases hend : byteSize before + byteSize after ≤ offset
    · -- Behind the end nothing is left.
      have hnil : after = [] := by
        cases after with
        | nil => rfl
        | cons c after =>
          have hpos := c.utf8Size_pos
          rw [byteSize_cons] at hsize hend
          omega
      subst hnil
      rw [List.append_nil, cut?_of_le (by simpa using hend)]
    · have hoffset : offset = byteSize before := by omega
      rw [hoffset, cut?_append]

theorem byteSize_toList (source : String) : byteSize source.toList = source.utf8ByteSize := by
  rw [← utf8ByteSize_ofList, String.ofList_toList]

theorem isValid_iff {source : String} :
    String.Pos.Raw.IsValid source ⟨offset⟩ ↔
      ∃ before after, before ++ after = source.toList ∧ byteSize before = offset := by
  constructor
  · intro h
    obtain ⟨before, after, hcut⟩ := exists_cut? h
    have hle : offset ≤ source.utf8ByteSize := h.le_rawEndPos
    obtain ⟨hparts, hbefore⟩ := cut?_eq_some_iff.1 hcut
    rw [byteSize_toList, Nat.min_eq_left hle] at hbefore
    exact ⟨before, after, hparts, hbefore⟩
  · rintro ⟨before, after, hparts, rfl⟩
    exact isValid_byteSize hparts.symm

/-! ## Newlines among bytes -/

def newline : UInt8 := 10

theorem utf8_ofList (text : List Char) :
    utf8 (String.ofList text) = text.flatMap String.utf8EncodeChar := by
  rw [utf8_eq, String.toByteArray_ofList, List.utf8Encode, List.toList_data_toByteArray]

/-- Every byte of a character that takes more than one has its highest bit set. -/
theorem le_of_mem_utf8EncodeChar {c : Char} (hc : 127 < c.val.toNat) {b : UInt8}
    (hb : b ∈ String.utf8EncodeChar c) : 128 ≤ b.toNat := by
  have hbyte : ∀ n, 128 ≤ n → n < 256 → 128 ≤ (UInt8.ofNat n).toNat := by
    intro n hlow hhigh
    have htoNat : (UInt8.ofNat n).toNat = n % 256 := rfl
    omega
  rw [String.utf8EncodeChar, if_neg (by omega)] at hb
  split at hb
  · simp only [List.mem_cons, List.not_mem_nil, or_false] at hb
    rcases hb with rfl | rfl <;> exact hbyte _ (by omega) (by omega)
  · split at hb
    · simp only [List.mem_cons, List.not_mem_nil, or_false] at hb
      rcases hb with rfl | rfl | rfl <;> exact hbyte _ (by omega) (by omega)
    · simp only [List.mem_cons, List.not_mem_nil, or_false] at hb
      rcases hb with rfl | rfl | rfl | rfl <;> exact hbyte _ (by omega) (by omega)

theorem count_newline_utf8EncodeChar (c : Char) :
    (String.utf8EncodeChar c).count newline = [c].count '\n' := by
  have hval : c = '\n' ↔ c.val.toNat = 10 := by
    rw [Char.ext_iff, ← UInt32.toNat_inj]
    rfl
  by_cases hlarge : 127 < c.val.toNat
  · have hbytes : newline ∉ String.utf8EncodeChar c := fun hmem =>
      absurd (le_of_mem_utf8EncodeChar hlarge hmem) (by decide)
    have hc : '\n' ∉ [c] := by
      rw [List.mem_singleton, eq_comm, hval]
      omega
    rw [List.count_eq_zero.2 hbytes, List.count_eq_zero.2 hc]
  · have hbyte : UInt8.ofNat c.val.toNat = newline ↔ c.val.toNat = 10 := by
      have htoNat : (UInt8.ofNat c.val.toNat).toNat = c.val.toNat % 256 := rfl
      have hnewline : newline.toNat = 10 := rfl
      rw [← UInt8.toNat_inj, htoNat, hnewline]
      omega
    rw [String.utf8EncodeChar, if_pos (by omega), List.count_singleton, List.count_singleton]
    simp only [beq_iff_eq, hbyte, hval]

theorem count_newline_utf8 (text : List Char) :
    (utf8 (String.ofList text)).count newline = text.count '\n' := by
  rw [utf8_ofList]
  induction text with
  | nil => rfl
  | cons c text ih =>
    rw [List.flatMap_cons, List.count_append, ih, count_newline_utf8EncodeChar,
      ← List.count_append, List.singleton_append]

/-- The newlines before a position can be counted among the bytes before it. -/
theorem count_newline_take {source : String} (h : before ++ after = source.toList) :
    ((utf8 source).take (byteSize before)).count newline = before.count '\n' := by
  have hsource : source = String.ofList (before ++ after) := by rw [h, String.ofList_toList]
  have hbytes : utf8 source = utf8 (String.ofList before) ++ utf8 (String.ofList after) := by
    rw [hsource, utf8_ofList, utf8_ofList, utf8_ofList, List.flatMap_append]
  have hlength : byteSize before = (utf8 (String.ofList before)).length := by
    rw [length_utf8, utf8ByteSize_ofList]
  rw [hbytes, hlength, List.take_left, count_newline_utf8]

/-! ## The line around a position -/

/-- The line around a position of a text. -/
structure LineAt (text : List Char) (offset : Nat) where
  /-- The lines before it, with their newlines. -/
  above : List Char
  left : List Char
  right : List Char
  /-- What follows, from the newline at the end of the line on. -/
  below : List Char
  parts : above ++ left ++ (right ++ below) = text
  size : byteSize (above ++ left) = offset
  above_end : above = [] ∨ above.getLast? = some '\n'
  unbroken : '\n' ∉ left ++ right
  below_start : below = [] ∨ below.head? = some '\n'

end Text

namespace Location

open Text

theorem trimReturns_eq (line : List Char) : trimReturns line = line.rdropWhile (· == '\r') := rfl

theorem exists_lastLine (text : List Char) :
    ∃ above, above ++ lastLine text = text ∧ (above = [] ∨ above.getLast? = some '\n') ∧
      '\n' ∉ lastLine text := by
  refine ⟨text.rdropWhile (· != '\n'), List.rdropWhile_append_rtakeWhile .., ?_, ?_⟩
  · by_cases hnil : text.rdropWhile (· != '\n') = []
    · exact .inl hnil
    · right
      have hlast := List.rdropWhile_last_not _ _ hnil
      rw [List.getLast?_eq_some_getLast hnil]
      simpa using hlast
  · intro hmem
    simpa using List.mem_rtakeWhile_imp hmem

theorem exists_firstLine (text : List Char) :
    ∃ below, firstLine text ++ below = text ∧ (below = [] ∨ below.head? = some '\n') ∧
      '\n' ∉ firstLine text := by
  refine ⟨text.dropWhile (· != '\n'), List.takeWhile_append_dropWhile, ?_, ?_⟩
  · cases hrest : text.dropWhile (· != '\n') with
    | nil => exact .inl rfl
    | cons c rest =>
      right
      have hhead := List.head?_dropWhile_not (· != '\n') text
      rw [hrest] at hhead
      simpa using hhead
  · intro hmem
    simpa using List.mem_takeWhile_imp hmem

theorem exists_trimReturns (line : List Char) :
    (∃ returns, line = trimReturns line ++ List.replicate returns '\r') ∧
      (trimReturns line).getLast? ≠ some '\r' := by
  constructor
  · refine ⟨(line.rtakeWhile (· == '\r')).length, ?_⟩
    have hreturns : line.rtakeWhile (· == '\r') =
        List.replicate (line.rtakeWhile (· == '\r')).length '\r' :=
      List.eq_replicate_of_mem fun c hc => by simpa using List.mem_rtakeWhile_imp hc
    rw [← hreturns]
    exact (List.rdropWhile_append_rtakeWhile ..).symm
  · intro hlast
    have hne : line.rdropWhile (· == '\r') ≠ [] := by
      intro hnil
      rw [trimReturns_eq, hnil] at hlast
      cases hlast
    have hreturn := Option.some.inj ((List.getLast?_eq_some_getLast hne).symm.trans hlast)
    exact List.rdropWhile_last_not _ _ hne (beq_iff_eq.2 hreturn)

theorem lastLine_append (text : List Char) {more : List Char} (h : '\n' ∉ more) :
    lastLine (text ++ more) = lastLine text ++ more := by
  have hmore : ∀ c ∈ more.reverse, (c != '\n') = true := by
    intro c hc
    rw [bne_iff_ne]
    rintro rfl
    exact h (List.mem_reverse.1 hc)
  rw [lastLine, List.reverse_append, List.takeWhile_append_of_pos hmore, List.reverse_append,
    List.reverse_reverse, lastLine]

/-! ## Locations -/

/-- The location between two parts of a text. -/
def between (before after : List Char) : Location where
  line := before.count '\n' + 1
  column := (lastLine before).length + 1
  text := trimReturns (lastLine before ++ firstLine after)

theorem ofOffset?_eq_some_iff {source : List Char} {offset : Nat} {l : Location} :
    ofOffset? source offset = some l ↔
      ∃ before after, before ++ after = source ∧ byteSize before = min offset (byteSize source) ∧
        between before after = l := by
  rw [ofOffset?, Option.map_eq_some_iff, Prod.exists]
  simp only [cut?_eq_some_iff, and_assoc]
  rfl

/-- A location says where a position is: how many newlines are before it, how many characters of its
line, and what the line is without the carriage returns at its end. -/
structure Marks {text : List Char} {offset : Nat} (l : Location) (spot : LineAt text offset) :
    Prop where
  line : l.line = 1 + (spot.above ++ spot.left).count '\n'
  column : l.column = 1 + spot.left.length
  text : ∃ returns, spot.left ++ spot.right = l.text ++ List.replicate returns '\r'
  trimmed : l.text.getLast? ≠ some '\r'

theorem exists_marks (before after : List Char) :
    ∃ spot : LineAt (before ++ after) (byteSize before), (between before after).Marks spot := by
  obtain ⟨above, hbefore, habove, hleft⟩ := exists_lastLine before
  obtain ⟨below, hafter, hbelow, hright⟩ := exists_firstLine after
  obtain ⟨htext, htrimmed⟩ := exists_trimReturns (lastLine before ++ firstLine after)
  refine ⟨⟨above, lastLine before, firstLine after, below, ?_, ?_, habove, ?_, hbelow⟩, ?_⟩
  · rw [hbefore, hafter]
  · rw [hbefore]
  · rw [List.mem_append, not_or]
    exact ⟨hleft, hright⟩
  · exact ⟨by rw [hbefore, between, Nat.add_comm], Nat.add_comm .., htext, htrimmed⟩

/-! ## Order -/

/-- A location is before another one: on an earlier line, or further left on the same line. -/
def Precedes (l l' : Location) : Prop :=
  l.line < l'.line ∨ (l.line = l'.line ∧ l.column < l'.column)

theorem between_precedes (before after after' : List Char) {more : List Char} (h : more ≠ []) :
    (between before after).Precedes (between (before ++ more) after') := by
  by_cases hnewline : '\n' ∈ more
  · have hcount := List.count_pos_iff.2 hnewline
    left
    simp only [between, List.count_append]
    omega
  · have hlength := List.length_pos_iff.2 h
    refine .inr ⟨?_, ?_⟩
    · simp [between, List.count_eq_zero.2 hnewline]
    · simp only [between, lastLine_append before hnewline, List.length_append]
      omega

/-- Of two positions the later one has the later location. -/
theorem precedes_of_lt {source : List Char} {offset offset' : Nat} {l l' : Location}
    (hlt : offset < offset') (hle : offset' ≤ byteSize source)
    (h : ofOffset? source offset = some l) (h' : ofOffset? source offset' = some l') :
    l.Precedes l' := by
  obtain ⟨before, after, hparts, hsize, rfl⟩ := ofOffset?_eq_some_iff.1 h
  obtain ⟨before', after', hparts', hsize', rfl⟩ := ofOffset?_eq_some_iff.1 h'
  have hfront : before <+: source := ⟨after, hparts⟩
  have hfront' : before' <+: source := ⟨after', hparts'⟩
  -- What stands before the later position begins with what stands before the earlier one.
  rcases List.prefix_or_prefix_of_prefix hfront hfront' with ⟨more, rfl⟩ | ⟨more, rfl⟩
  · refine between_precedes before after after' ?_
    rintro rfl
    rw [List.append_nil] at hsize'
    omega
  · rw [byteSize_append] at hsize
    omega

/-- A position of the source has a location exactly if it is between characters; one past the end
counts as the end. The location gives the line by the newlines before the position, which can be
counted in bytes, the column by the characters of the line before it, and the line's text. Later
positions have later locations, so no two have the same line and column. -/
theorem ofOffset?_exact (source : String) :
    (∀ offset, String.Pos.Raw.IsValid source ⟨min offset source.utf8ByteSize⟩ ↔
        ∃ l, ofOffset? source.toList offset = some l) ∧
      (∀ offset l, ofOffset? source.toList offset = some l →
        l.line = 1 + ((utf8 source).take offset).count newline ∧
        ∃ spot : LineAt source.toList (min offset source.utf8ByteSize), l.Marks spot) ∧
      (∀ offset offset' l l', offset < offset' → offset' ≤ source.utf8ByteSize →
        ofOffset? source.toList offset = some l → ofOffset? source.toList offset' = some l' →
        l.Precedes l') ∧
      ∀ offset offset' l l', offset ≤ source.utf8ByteSize → offset' ≤ source.utf8ByteSize →
        ofOffset? source.toList offset = some l → ofOffset? source.toList offset' = some l' →
        l.line = l'.line → l.column = l'.column → offset = offset' := by
  rw [← byteSize_toList]
  refine ⟨fun offset => ?_, fun offset l h => ?_, fun _ _ _ _ => precedes_of_lt, ?_⟩
  · rw [isValid_iff]
    simp only [ofOffset?_eq_some_iff]
    constructor
    · rintro ⟨before, after, hparts, hbefore⟩
      exact ⟨_, before, after, hparts, hbefore, rfl⟩
    · rintro ⟨-, before, after, hparts, hbefore, -⟩
      exact ⟨before, after, hparts, hbefore⟩
  · obtain ⟨before, after, hparts, hbefore, rfl⟩ := ofOffset?_eq_some_iff.1 h
    rw [← hbefore, ← hparts]
    refine ⟨?_, exists_marks before after⟩
    -- Past the end there are no more bytes to take.
    have htake : (utf8 source).take offset = (utf8 source).take (byteSize before) := by
      rw [hbefore, byteSize_toList, ← length_utf8, List.take_eq_take_iff]
      omega
    rw [htake, count_newline_take hparts, between, Nat.add_comm]
  · intro offset offset' l l' hle hle' h h' hline hcolumn
    rcases Nat.lt_trichotomy offset offset' with hlt | heq | hgt
    · have hbefore := precedes_of_lt hlt hle' h h'
      unfold Precedes at hbefore
      omega
    · exact heq
    · have hbefore := precedes_of_lt hgt hle h' h
      unfold Precedes at hbefore
      omega

/-- Three lines. The first two have a letter of two bytes, the second ends in two carriage returns,
and the third has no newline. -/
def accentedLines : String :=
  "é [\r\n  wïdth: 4px;\r\r\n]"

/-- The fifth character of the second line is at byte 11, and no other position has this line and
column. Byte 10 is inside a character, and a position past the end is at the end of the third
line. -/
theorem ofOffset?_exact_accentedLines :
    ofOffset? accentedLines.toList 11 = some ⟨2, 5, "  wïdth: 4px;".toList⟩ ∧
      ((utf8 accentedLines).take 11).count newline = 1 ∧
      (∃ spot : LineAt accentedLines.toList 11,
        Marks ⟨2, 5, "  wïdth: 4px;".toList⟩ spot) ∧
      (∀ offset text, offset ≤ accentedLines.utf8ByteSize →
        ofOffset? accentedLines.toList offset = some ⟨2, 5, text⟩ → offset = 11) ∧
      ¬String.Pos.Raw.IsValid accentedLines ⟨10⟩ ∧
      ofOffset? accentedLines.toList 100 = some ⟨3, 2, [']']⟩ ∧
      String.Pos.Raw.IsValid accentedLines ⟨24⟩ ∧
      Precedes ⟨2, 5, "  wïdth: 4px;".toList⟩ ⟨3, 2, [']']⟩ := by
  obtain ⟨hvalid, hexact, hgrows, hdiffer⟩ := ofOffset?_exact accentedLines
  have hsize : accentedLines.utf8ByteSize = 24 := by decide +kernel
  have hinside : ofOffset? accentedLines.toList 10 = none := by decide +kernel
  have hwidth : ofOffset? accentedLines.toList 11 = some ⟨2, 5, "  wïdth: 4px;".toList⟩ := by
    decide +kernel
  have hend : ofOffset? accentedLines.toList 24 = some ⟨3, 2, [']']⟩ := by decide +kernel
  have hpast : ofOffset? accentedLines.toList 100 = some ⟨3, 2, [']']⟩ := by decide +kernel
  obtain ⟨hline, hspot⟩ := hexact 11 _ hwidth
  have hcount : 1 + 1 = 1 + ((utf8 accentedLines).take 11).count newline := hline
  rw [hsize] at hvalid hgrows hdiffer hspot
  refine ⟨hwidth, (Nat.add_left_cancel hcount).symm, hspot, fun offset text hle h => ?_, fun h => ?_, hpast,
    (hvalid 100).2 ⟨_, hpast⟩, hgrows 11 24 _ _ (by decide) (by decide) hwidth hend⟩
  · exact hdiffer offset 11 _ _ (hsize ▸ hle) (by decide) h hwidth rfl rfl
  · obtain ⟨l, hl⟩ := (hvalid 10).1 h
    rw [hinside] at hl
    cases hl

end Location

end TypedStyle
