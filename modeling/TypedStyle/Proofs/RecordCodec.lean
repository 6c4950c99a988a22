import TypedStyle.Proofs.BuildRecord

/-!
# Build records are known by their bytes

There is one way to write a record, and reading accepts no other: each reader takes off the front of
some bytes exactly what the writer of its part puts there. Short input, a byte that is no truth
value and bytes that are no text are refused wherever they stand.
-/

namespace TypedStyle

theorem Text.eq_utf8_of_ofUtf8? {bytes : Bytes} {text : String} (h : ofUtf8? bytes = some text) :
    bytes = utf8 text := by
  rw [ofUtf8?, String.fromUTF8?] at h
  split at h
  · obtain rfl := Option.some.inj h
    rw [utf8_eq]
    rfl
  · simp at h

namespace BuildRecord

variable {r : BuildRecord}

instance (s : SourceRecord) : Decidable (SourceFits s) :=
  inferInstanceAs (Decidable (_ ∧ _))

instance (r : BuildRecord) : Decidable r.Fits :=
  decidable_of_iff (r.files.length < 2 ^ 64 ∧ (∀ s ∈ r.files, SourceFits s) ∧
      (∀ t ∈ r.manifestHash, t.utf8ByteSize < 2 ^ 64) ∧ r.toolVersion.utf8ByteSize < 2 ^ 64)
    ⟨fun ⟨hfiles, hsources, hmanifest, htool⟩ => ⟨hfiles, hsources, hmanifest, htool⟩,
      fun h => ⟨h.files, h.sources, h.manifestHash, h.toolVersion⟩⟩

variable {bytes rest : Bytes}

/-! ## What a reader accepts -/

theorem eq_of_readNumber {width n : Nat} (h : readNumber width bytes = some (n, rest)) :
    n < 256 ^ width ∧ bytes = littleEndian width n ++ rest := by
  induction width generalizing bytes n with
  | zero =>
    obtain ⟨rfl, rfl⟩ : 0 = n ∧ bytes = rest := by simpa [readNumber] using h
    simp [littleEndian]
  | succ width ih =>
    cases bytes with
    | nil => simp [readNumber] at h
    | cons b bytes =>
      rw [readNumber, Option.map_eq_some_iff] at h
      obtain ⟨⟨high, rest'⟩, hhigh, heq⟩ := h
      obtain ⟨rfl, rfl⟩ : b.toNat + 256 * high = n ∧ rest' = rest := by simpa using heq
      obtain ⟨hlt, rfl⟩ := ih hhigh
      have hb := b.toNat_lt
      -- The byte is the lowest digit to the base 256, and the number read behind it is the rest.
      have hlow : (b.toNat + 256 * high) % 256 = b.toNat := by omega
      have hrest : (b.toNat + 256 * high) / 256 = high := by omega
      refine ⟨?_, ?_⟩
      · rw [Nat.pow_succ]
        omega
      · rw [littleEndian, hlow, hrest, UInt8.ofNat_toNat]
        rfl

theorem eq_of_readText {text : String} (h : readText bytes = some (text, rest)) :
    text.utf8ByteSize < 2 ^ 64 ∧ bytes = writeText text ++ rest := by
  simp only [readText, Option.bind_eq_bind, Option.bind_eq_some_iff] at h
  obtain ⟨⟨length, content⟩, hlength, h⟩ := h
  obtain ⟨hlt, rfl⟩ := eq_of_readNumber hlength
  dsimp only at h
  split at h
  · next hle =>
    obtain ⟨found, hfound, heq⟩ := Option.bind_eq_some_iff.1 h
    obtain ⟨rfl, rfl⟩ : found = text ∧ content.drop length = rest := by simpa using heq
    -- The text has taken as many bytes as the length in front of it says.
    have htake := Text.eq_utf8_of_ofUtf8? hfound
    have hsize : (Text.utf8 found).length = length := by
      rw [← htake, List.length_take_of_le hle]
    refine ⟨?_, ?_⟩
    · rw [← Text.length_utf8, hsize]
      exact hlt
    · rw [writeText, hsize, ← htake, List.append_assoc, List.take_append_drop]
  · simp at h

theorem eq_of_readBool {b : Bool} (h : readBool bytes = some (b, rest)) :
    bytes = writeBool b ++ rest := by
  unfold readBool at h
  split at h
  · obtain ⟨rfl, rfl⟩ : false = b ∧ _ = rest := by simpa using h
    rfl
  · obtain ⟨rfl, rfl⟩ : true = b ∧ _ = rest := by simpa using h
    rfl
  · simp at h

theorem eq_of_readOption {text : Option String} (h : readOption bytes = some (text, rest)) :
    (∀ t ∈ text, t.utf8ByteSize < 2 ^ 64) ∧ bytes = writeOption text ++ rest := by
  unfold readOption at h
  split at h
  · obtain ⟨rfl, rfl⟩ : none = text ∧ _ = rest := by simpa using h
    exact ⟨by simp, rfl⟩
  · next content =>
    obtain ⟨⟨found, rest'⟩, hfound, heq⟩ := Option.map_eq_some_iff.1 h
    obtain ⟨rfl, rfl⟩ : some found = text ∧ rest' = rest := by simpa using heq
    obtain ⟨hsize, rfl⟩ := eq_of_readText hfound
    exact ⟨by simpa using hsize, rfl⟩
  · simp at h

theorem eq_of_readSource {s : SourceRecord} (h : readSource bytes = some (s, rest)) :
    SourceFits s ∧ bytes = writeSource s ++ rest := by
  simp only [readSource, Option.bind_eq_bind, Option.bind_eq_some_iff] at h
  obtain ⟨⟨path, bytes'⟩, hpath, ⟨hash, rest'⟩, hhash, heq⟩ := h
  obtain ⟨rfl, rfl⟩ : (⟨path, hash⟩ : SourceRecord) = s ∧ rest' = rest := by simpa using heq
  obtain ⟨hfits, rfl⟩ := eq_of_readText hpath
  obtain ⟨hfits', rfl⟩ := eq_of_readText hhash
  exact ⟨⟨hfits, hfits'⟩, by simp [writeSource]⟩

theorem eq_of_readSources {count : Nat} {files : List SourceRecord}
    (h : readSources count bytes = some (files, rest)) :
    files.length = count ∧ (∀ s ∈ files, SourceFits s) ∧
      bytes = files.flatMap writeSource ++ rest := by
  induction count generalizing bytes files with
  | zero =>
    obtain ⟨rfl, rfl⟩ : [] = files ∧ bytes = rest := by simpa [readSources] using h
    simp
  | succ count ih =>
    simp only [readSources, Option.bind_eq_bind, Option.bind_eq_some_iff] at h
    obtain ⟨⟨first, bytes'⟩, hfirst, ⟨more, rest'⟩, hmore, heq⟩ := h
    obtain ⟨rfl, rfl⟩ : first :: more = files ∧ rest' = rest := by simpa using heq
    obtain ⟨hfits, rfl⟩ := eq_of_readSource hfirst
    obtain ⟨rfl, hall, rfl⟩ := ih hmore
    refine ⟨rfl, ?_, by simp⟩
    intro s hs
    rcases List.mem_cons.1 hs with rfl | hs
    · exact hfits
    · exact hall s hs

/-- What is read as a record was written for it, and something may follow. -/
theorem eq_of_decode? (h : decode? bytes = some r) : r.Fits ∧ ∃ rest, bytes = r.encode ++ rest := by
  simp only [decode?, Option.bind_eq_bind, Option.bind_eq_some_iff] at h
  obtain ⟨⟨version, bytes₁⟩, hversion, ⟨count, bytes₂⟩, hcount, ⟨files, bytes₃⟩, hfiles,
    ⟨manifestHash, bytes₄⟩, hmanifest, ⟨selectBranches, bytes₅⟩, hselect,
    ⟨toolVersion, rest⟩, htool, heq⟩ := h
  obtain rfl := Option.some.inj heq
  -- Each part gives way to what was written for it, from the front to the back.
  obtain ⟨hversionFits, rfl⟩ := eq_of_readNumber hversion
  obtain ⟨hcountFits, rfl⟩ := eq_of_readNumber hcount
  obtain ⟨rfl, hsources, rfl⟩ := eq_of_readSources hfiles
  obtain ⟨hmanifestFits, rfl⟩ := eq_of_readOption hmanifest
  obtain rfl := eq_of_readBool hselect
  obtain ⟨htoolFits, rfl⟩ := eq_of_readText htool
  have hnumber : (UInt32.ofNat version).toNat = version := UInt32.toNat_ofNat_of_lt' hversionFits
  refine ⟨⟨hcountFits, hsources, hmanifestFits, htoolFits⟩, rest, ?_⟩
  simp [encode, hnumber]

/-! ## Records and bytes -/

/-- Bytes are read as a record exactly when they start with what is written for it. -/
theorem decode?_eq_some_iff : decode? bytes = some r ↔ r.Fits ∧ r.encode <+: bytes := by
  constructor
  · intro h
    obtain ⟨hfits, rest, rfl⟩ := eq_of_decode? h
    exact ⟨hfits, List.prefix_append _ _⟩
  · rintro ⟨hfits, rest, rfl⟩
    exact decode?_encode_append hfits rest

theorem eq_of_encode_starts {r' : BuildRecord} (h : r.Fits) (h' : r'.Fits)
    (hstarts : r.encode <+: r'.encode) : r = r' := by
  have hread : decode? r'.encode = some r := decode?_eq_some_iff.2 ⟨h, hstarts⟩
  have hread' : decode? r'.encode = some r' := decode?_encode h'
  exact Option.some.inj (hread.symm.trans hread')

/-- Bytes are read as a record exactly when they start with what is written for it; every record
whose lengths can be written is read back, and no other comes out. Records that differ are written
differently, neither being the front of the other, and a record that breaks off is not read. -/
theorem encode_canonical :
    (∀ (r : BuildRecord) (bytes : Bytes), decode? bytes = some r ↔ r.Fits ∧ r.encode <+: bytes) ∧
      (∀ r r' : BuildRecord, r.Fits → r'.Fits → r ≠ r' → ¬r.encode <+: r'.encode) ∧
      ∀ (r : BuildRecord) (bytes : Bytes), r.Fits → bytes <+: r.encode → bytes ≠ r.encode →
        decode? bytes = none := by
  refine ⟨fun r bytes => decode?_eq_some_iff, ?_, ?_⟩
  · intro r r' h h' hne hstarts
    exact hne (eq_of_encode_starts h h' hstarts)
  · intro r bytes h hfront hne
    cases hread : decode? bytes with
    | none => rfl
    | some r' =>
      -- A record read from the front would be written inside that of `r`, so it would be `r`.
      obtain ⟨h', hstarts⟩ := decode?_eq_some_iff.1 hread
      obtain rfl := eq_of_encode_starts h' h (hstarts.trans hfront)
      exact absurd (hfront.eq_of_length (Nat.le_antisymm hfront.length_le hstarts.length_le)) hne

/-- A record with a letter of two bytes in the path of a source, a source of empty texts and a
manifest. -/
def accented : BuildRecord :=
  { version := 1
    files := [⟨"é/main.icss", "0a"⟩, ⟨"", ""⟩]
    manifestHash := some "ff"
    selectBranches := true
    toolVersion := "0.1.0" }

/-- The record is read although a byte follows, is not the front of the one without a manifest, and
is not read without its last byte. -/
theorem encode_canonical_accented :
    accented.Fits ∧ decode? (accented.encode ++ [7]) = some accented ∧
      ¬accented.encode <+: ({ accented with manifestHash := none } : BuildRecord).encode ∧
      decode? accented.encode.dropLast = none := by
  have hfits : accented.Fits := by decide
  obtain ⟨hread, hdiffer, hbroken⟩ := encode_canonical
  refine ⟨hfits, (hread _ _).2 ⟨hfits, List.prefix_append _ _⟩, ?_, ?_⟩
  · refine hdiffer _ _ hfits (by decide) ?_
    decide
  · refine hbroken _ _ hfits (List.dropLast_prefix _) ?_
    intro heq
    have hlength := congrArg List.length heq
    rw [List.length_dropLast] at hlength
    revert hlength
    decide +kernel

end BuildRecord

end TypedStyle
