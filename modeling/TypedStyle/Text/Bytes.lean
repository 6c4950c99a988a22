/-!
# Texts and their bytes

A text is read as a list of characters, while every position in it counts the bytes of its UTF-8
form. This module holds the measure that ties the two together and the cut of a text at a byte
position. A cut inside a character has no answer.
-/

namespace TypedStyle

/-- A sequence of bytes, as a file holds it. -/
abbrev Bytes := List UInt8

namespace Text

def byteSize : List Char → Nat
  | [] => 0
  | c :: text => c.utf8Size + byteSize text

@[simp]
theorem byteSize_nil : byteSize [] = 0 := rfl

@[simp]
theorem byteSize_cons (c : Char) (text : List Char) :
    byteSize (c :: text) = c.utf8Size + byteSize text := rfl

@[simp]
theorem byteSize_append (text more : List Char) :
    byteSize (text ++ more) = byteSize text + byteSize more := by
  induction text with
  | nil => simp
  | cons c text ih => simp [ih, Nat.add_assoc]

/-- The text before and after a byte position, or `none` when the position lies inside a
character. A position past the end counts as the end. -/
def cut? : List Char → Nat → Option (List Char × List Char)
  | [], _ => some ([], [])
  | c :: text, offset =>
    if offset = 0 then some ([], c :: text)
    else if offset < c.utf8Size then none
    else (cut? text (offset - c.utf8Size)).map fun (before, after) => (c :: before, after)

/-- The two parts of a cut give back the text. -/
theorem append_of_cut? {text before after : List Char} {offset : Nat}
    (h : cut? text offset = some (before, after)) : before ++ after = text := by
  induction text generalizing offset before with
  | nil => simp_all [cut?]
  | cons c text ih =>
    rw [cut?] at h
    split at h
    · simp_all
    · split at h
      · simp at h
      · simp only [Option.map_eq_some_iff] at h
        obtain ⟨⟨first, last⟩, hcut, hparts⟩ := h
        simp only [Prod.mk.injEq] at hparts
        obtain ⟨rfl, rfl⟩ := hparts
        simp [ih hcut]

def utf8 (text : String) : Bytes :=
  text.toUTF8.toList

def ofUtf8? (bytes : Bytes) : Option String :=
  String.fromUTF8? ⟨bytes.toArray⟩

end Text

end TypedStyle
