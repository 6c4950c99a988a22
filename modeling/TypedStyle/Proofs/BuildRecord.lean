import Mathlib.Algebra.Group.Nat.Defs
import TypedStyle.BuildRecord

/-!
# Reading a build record back

What is written for a record is read as that record, whatever follows. Lengths are written in eight
bytes, so this needs a record that `Fits`: one whose texts and list are not longer than that.
-/

namespace TypedStyle

namespace Text

theorem loop_toList (bytes : ByteArray) (i : Nat) (found : List UInt8) :
    ByteArray.toList.loop bytes i found = found.reverse ++ bytes.data.toList.drop i := by
  fun_induction ByteArray.toList.loop bytes i found with
  | case1 i found h ih =>
    have hlt : i < bytes.data.toList.length := h
    -- The loop asks for a byte without a proof that there is one.
    have hget : bytes.get! i = bytes.data.toList[i] := by
      show bytes.data[i]! = _
      rw [getElem!_pos bytes.data i h, Array.getElem_toList]
    rw [ih, hget, List.drop_eq_getElem_cons hlt]
    simp
  | case2 i found h =>
    have hle : bytes.data.toList.length ≤ i := Nat.le_of_not_lt h
    rw [List.drop_of_length_le hle, List.append_nil]

theorem utf8_eq (text : String) : utf8 text = text.toByteArray.data.toList :=
  loop_toList text.toByteArray 0 []

theorem length_utf8 (text : String) : (utf8 text).length = text.utf8ByteSize := by
  rw [utf8_eq]
  rfl

theorem utf8ByteSize_ofList (text : List Char) :
    (String.ofList text).utf8ByteSize = byteSize text := by
  induction text with
  | nil => rfl
  | cons c text ih =>
    have hcons : String.ofList (c :: text) = String.singleton c ++ String.ofList text := by
      apply String.toList_inj.1
      simp
    rw [hcons, String.utf8ByteSize_append, String.utf8ByteSize_singleton, ih, byteSize_cons]

theorem byteSize_le (text : List Char) : byteSize text ≤ 4 * text.length := by
  induction text with
  | nil => simp
  | cons c text ih =>
    have hc := c.utf8Size_le_four
    rw [byteSize_cons, List.length_cons]
    omega

@[simp]
theorem ofUtf8?_utf8 (text : String) : ofUtf8? (utf8 text) = some text := by
  have hbytes : (⟨(utf8 text).toArray⟩ : ByteArray) = text.toByteArray := by
    rw [utf8_eq, Array.toArray_toList]
  rw [ofUtf8?, hbytes, String.fromUTF8?, dif_pos text.isValidUTF8]
  rfl

end Text

namespace BuildRecord

theorem readNumber_littleEndian_mod (width n : Nat) (rest : Bytes) :
    readNumber width (littleEndian width n ++ rest) = some (n % 256 ^ width, rest) := by
  induction width generalizing n with
  | zero => simp [readNumber, littleEndian, Nat.mod_one]
  | succ width ih =>
    have hbyte : (UInt8.ofNat (n % 256)).toNat = n % 256 := by
      simp
    simp only [littleEndian, List.cons_append, readNumber, ih, Option.map_some, hbyte]
    -- The lowest byte and the number above it make up the number again.
    rw [Nat.pow_succ', Nat.mod_mul]

theorem readNumber_littleEndian {width n : Nat} (h : n < 256 ^ width) (rest : Bytes) :
    readNumber width (littleEndian width n ++ rest) = some (n, rest) := by
  rw [readNumber_littleEndian_mod, Nat.mod_eq_of_lt h]

theorem readText_writeText {text : String} (h : text.utf8ByteSize < 2 ^ 64) (rest : Bytes) :
    readText (writeText text ++ rest) = some (text, rest) := by
  have hlength : (Text.utf8 text).length < 256 ^ 8 := by
    rw [Text.length_utf8]
    exact h
  simp [readText, writeText, readNumber_littleEndian hlength, List.append_assoc]

theorem readBool_writeBool (b : Bool) (rest : Bytes) :
    readBool (writeBool b ++ rest) = some (b, rest) := by
  cases b <;> rfl

theorem readOption_writeOption {text : Option String} (h : ∀ t ∈ text, t.utf8ByteSize < 2 ^ 64)
    (rest : Bytes) : readOption (writeOption text ++ rest) = some (text, rest) := by
  cases text with
  | none => rfl
  | some t => simp [readOption, writeOption, readText_writeText (h t rfl)]

/-- The texts of a source are short enough for their lengths to be written. -/
def SourceFits (s : SourceRecord) : Prop :=
  s.path.utf8ByteSize < 2 ^ 64 ∧ s.hash.utf8ByteSize < 2 ^ 64

theorem readSources_writeSource {files : List SourceRecord} (h : ∀ s ∈ files, SourceFits s)
    (rest : Bytes) :
    readSources files.length (files.flatMap writeSource ++ rest) = some (files, rest) := by
  induction files with
  | nil => rfl
  | cons s files ih =>
    obtain ⟨hpath, hhash⟩ := h s List.mem_cons_self
    have hfiles := ih fun s hs => h s (List.mem_cons_of_mem _ hs)
    simp [readSources, readSource, writeSource, List.append_assoc, readText_writeText hpath,
      readText_writeText hhash, hfiles]

/-- All lengths in a record are small enough to be written. -/
structure Fits (r : BuildRecord) : Prop where
  files : r.files.length < 2 ^ 64
  sources : ∀ s ∈ r.files, SourceFits s
  manifestHash : ∀ t ∈ r.manifestHash, t.utf8ByteSize < 2 ^ 64
  toolVersion : r.toolVersion.utf8ByteSize < 2 ^ 64

theorem decode?_encode_append {r : BuildRecord} (h : r.Fits) (rest : Bytes) :
    decode? (r.encode ++ rest) = some r := by
  have hversion : r.version.toNat < 256 ^ 4 := r.version.toNat_lt
  have hfiles : r.files.length < 256 ^ 8 := h.files
  simp [decode?, encode, readNumber_littleEndian hversion, readNumber_littleEndian hfiles,
    readSources_writeSource h.sources, readOption_writeOption h.manifestHash,
    readBool_writeBool, readText_writeText h.toolVersion]

theorem decode?_encode {r : BuildRecord} (h : r.Fits) : decode? r.encode = some r := by
  simpa using decode?_encode_append h []

end BuildRecord

end TypedStyle
