import TypedStyle.Disk

/-!
# Where paths lead

Where a path leads can be told without looking at the files: `Disk.spot` follows its pieces from the
root or from the working directory, and a disk only decides whether one gets there. So the
operations of a disk on a path are about what there is at that place and at those on the way to it.
The place of an absolute path, `Path.place`, is told by its text alone.

When the working directory is removed, one stands in what is left of it (`Standpoint.Sinks`). Paths
that still lead to a file then lead where they did before.
-/

namespace TypedStyle

/-- Where a piece of a path leads from a place. -/
def Place.enter (p : Place) (segment : String) : Place :=
  if Path.isIdle segment then p
  else if segment = ".." then p.dropLast
  else p ++ [segment]

/-- A name under which something can be in a directory. -/
structure Place.IsName (name : String) : Prop where
  not_idle : Path.isIdle name = false
  ne_up : name ≠ ".."
  no_slash : '/' ∉ name.toList

theorem Place.enter_of_isIdle {p : Place} {segment : String} (h : Path.isIdle segment = true) :
    Place.enter p segment = p := by
  simp [Place.enter, h]

theorem Place.enter_name {p : Place} {name : String} (h : Place.IsName name) :
    Place.enter p name = p ++ [name] := by
  simp [Place.enter, h.not_idle, h.ne_up]

theorem Place.foldl_enter_names {names : List String} (h : ∀ name ∈ names, Place.IsName name)
    (p : Place) : names.foldl Place.enter p = p ++ names := by
  induction names generalizing p with
  | nil => simp
  | cons name rest ih =>
    rw [List.foldl_cons, Place.enter_name (h name List.mem_cons_self),
      ih fun s hs => h s (List.mem_cons_of_mem _ hs), List.append_assoc]
    rfl

/-! ## Standpoints -/

namespace Standpoint

variable {s : Standpoint}

/-- Where a piece of a path leads from where one stands. A name leads on only from a directory that
has not been removed. -/
def enter (s : Standpoint) (segment : String) : Standpoint :=
  if Path.isIdle segment then s
  else if segment = ".." then s.up
  else { place := s.place ++ [segment] }

theorem enter_of_isIdle {segment : String} (h : Path.isIdle segment = true) :
    s.enter segment = s := by
  simp [enter, h]

theorem enter_name {name : String} (h : Place.IsName name) :
    s.enter name = { place := s.place ++ [name] } := by
  simp [enter, h.not_idle, h.ne_up]

theorem foldl_enter_of_idle {segments : List String} (h : ∀ x ∈ segments, Path.isIdle x = true)
    (s : Standpoint) : segments.foldl enter s = s := by
  induction segments with
  | nil => rfl
  | cons segment rest ih =>
    rw [List.foldl_cons, enter_of_isIdle (h segment List.mem_cons_self)]
    exact ih fun x hx => h x (List.mem_cons_of_mem _ hx)

theorem foldl_enter_place (segments : List String) (p : Place) :
    segments.foldl enter { place := p } = { place := segments.foldl Place.enter p } := by
  induction segments generalizing p with
  | nil => rfl
  | cons segment rest ih =>
    have hstep : enter { place := p } segment = { place := Place.enter p segment } := by
      unfold enter Place.enter
      split
      · rfl
      · split <;> rfl
    rw [List.foldl_cons, hstep, ih, List.foldl_cons]

theorem entry?_eq_file {t : FileTree} {content : Bytes} (h : s.entry? t = some (.file content)) :
    s.lost = 0 ∧ t.get? s.place = some (.file content) := by
  unfold entry? at h
  split at h
  · next hlost => exact ⟨hlost, h⟩
  · simp at h

theorem entry?_mono {t t' : FileTree} {e : Entry}
    (h : t.get? s.place = some e → t'.get? s.place = some e) (hs : s.entry? t = some e) :
    s.entry? t' = some e := by
  by_cases hlost : s.lost = 0
  · rw [Standpoint.entry?, if_pos hlost] at hs ⊢
    exact h hs
  · rw [Standpoint.entry?, if_neg hlost] at hs ⊢
    exact hs

/-- Some of the directories in which one stood are removed. -/
def Sinks (s s' : Standpoint) : Prop :=
  ∃ names, s.place = s'.place ++ names ∧ s'.lost = s.lost + names.length

theorem Sinks.refl (s : Standpoint) : s.Sinks s :=
  ⟨[], by simp⟩

theorem Sinks.trans {s' s'' : Standpoint} (h : s.Sinks s') (h' : s'.Sinks s'') : s.Sinks s'' := by
  obtain ⟨names, hplace, hlost⟩ := h
  obtain ⟨names', hplace', hlost'⟩ := h'
  refine ⟨names' ++ names, by rw [hplace, hplace', List.append_assoc], ?_⟩
  rw [hlost', hlost, List.length_append]
  omega

theorem Sinks.eq_of_lost {s' : Standpoint} (h : s.Sinks s') (hlost : s'.lost = 0) : s = s' := by
  obtain ⟨names, hplace, hsum⟩ := h
  obtain rfl : names = [] := List.length_eq_zero_iff.1 (by omega)
  obtain ⟨place, lost⟩ := s
  obtain ⟨place', lost'⟩ := s'
  simp_all

theorem Sinks.up {s s' : Standpoint} (h : s.Sinks s') : s.up.Sinks s'.up := by
  by_cases hlost' : s'.lost = 0
  · rw [h.eq_of_lost hlost']
    exact .refl _
  · obtain ⟨names, hplace, hsum⟩ := h
    -- From among the lost directories one goes up by one of them.
    rw [Standpoint.up, Standpoint.up, if_neg hlost']
    by_cases hlost : s.lost = 0
    · have hnames : names ≠ [] := by
        rintro rfl
        simp at hsum
        omega
      rw [if_pos hlost]
      refine ⟨names.dropLast, ?_, ?_⟩
      · rw [hplace, List.dropLast_append_of_ne_nil hnames]
      · simp only [List.length_dropLast]
        omega
    · rw [if_neg hlost]
      refine ⟨names, hplace, ?_⟩
      simp only
      omega

theorem sinks_afterClear (s : Standpoint) (p : Place) : s.Sinks (s.afterClear p) := by
  unfold afterClear
  split
  · next hprefix =>
    obtain ⟨names, hnames⟩ := List.isPrefixOf_iff_prefix.1 hprefix
    exact ⟨names, hnames.symm, by simp [← hnames]⟩
  · exact .refl s

theorem sinks_afterRemove (s : Standpoint) (p : Place) : s.Sinks (s.afterRemove p) := by
  unfold afterRemove
  split
  · exact s.sinks_afterClear p.dropLast
  · exact .refl s

end Standpoint

namespace Path

variable {p : Path} {name : String}

/-- The place that an absolute path names. -/
def place (p : Path) : Place :=
  p.segments.foldl Place.enter []

/-! ## Pieces -/

theorem split_ne_nil (text : List Char) : split text ≠ [] := by
  fun_cases split text <;> simp_all

theorem split_append_slash (front rest : List Char) :
    split (front ++ '/' :: rest) = split front ++ split rest := by
  induction front with
  | nil => simp [split]
  | cons c front ih =>
    by_cases hc : c = '/'
    · simp [split, hc, ih]
    · -- Another character is put in front of the first piece, and there always is one.
      obtain ⟨first, more, hsplit⟩ := List.exists_cons_of_ne_nil (split_ne_nil front)
      simp [split, hc, ih, hsplit]

theorem split_of_no_slash {text : List Char} (h : '/' ∉ text) : split text = [text] := by
  induction text with
  | nil => rfl
  | cons c text ih =>
    rw [List.mem_cons, not_or] at h
    simp [split, Ne.symm h.1, ih h.2]

theorem no_slash_of_mem_split {text piece : List Char} (h : piece ∈ split text) : '/' ∉ piece := by
  fun_induction split text generalizing piece with
  | case1 => simp_all
  | case2 rest ih =>
    rcases List.mem_cons.1 h with rfl | h
    · simp
    · exact ih h
  | case3 c rest hc hsplit => exact absurd hsplit (split_ne_nil rest)
  | case4 c rest hc first more hsplit ih =>
    -- The first piece gets a character that is no slash; the others are those of the rest.
    rw [hsplit] at ih
    rcases List.mem_cons.1 h with rfl | h
    · have hfirst : '/' ∉ first := ih List.mem_cons_self
      simp [Ne.symm hc, hfirst]
    · exact ih (List.mem_cons_of_mem _ h)

theorem intercalate_split (text : List Char) : ['/'].intercalate (split text) = text := by
  fun_induction split text with
  | case1 => rfl
  | case2 rest ih =>
    obtain ⟨first, more, hsplit⟩ := List.exists_cons_of_ne_nil (split_ne_nil rest)
    rw [hsplit] at ih ⊢
    simpa [List.intercalate] using ih
  | case3 c rest hc hsplit => exact absurd hsplit (split_ne_nil rest)
  | case4 c rest hc first more hsplit ih =>
    rw [hsplit] at ih
    cases more <;> simpa [List.intercalate] using ih

theorem eq_of_segments {q : Path} (h : p.segments = q.segments) : p = q := by
  have hpieces : split p.text.toList = split q.text.toList :=
    (List.map_inj_right fun _ _ => String.ofList_injective).1 h
  have htext : p.text.toList = q.text.toList := by
    rw [← intercalate_split p.text.toList, hpieces, intercalate_split]
  obtain ⟨text⟩ := p
  obtain ⟨text'⟩ := q
  exact congrArg Path.mk (String.toList_inj.1 htext)

theorem segments_slash (front rest : String) :
    segments ⟨front ++ "/" ++ rest⟩ = segments ⟨front⟩ ++ segments ⟨rest⟩ := by
  have htext : (front ++ "/" ++ rest).toList = front.toList ++ '/' :: rest.toList := by simp
  simp only [segments, htext, split_append_slash, List.map_append]

theorem segments_of_no_slash {text : String} (h : '/' ∉ text.toList) :
    segments ⟨text⟩ = [text] := by
  simp [segments, split_of_no_slash h]

theorem intercalate_cons_cons (first next : String) (rest : List String) :
    "/".intercalate (first :: next :: rest) =
      first ++ "/" ++ "/".intercalate (next :: rest) := by
  apply String.toList_inj.1
  simp [String.toList_intercalate, List.intercalate]

theorem segments_intercalate {names : List String} (hne : names ≠ [])
    (h : ∀ name ∈ names, '/' ∉ name.toList) : segments ⟨"/".intercalate names⟩ = names := by
  induction names with
  | nil => exact absurd rfl hne
  | cons name rest ih =>
    have hname : segments ⟨name⟩ = [name] := segments_of_no_slash (h name List.mem_cons_self)
    cases rest with
    | nil => exact hname
    | cons next rest =>
      rw [intercalate_cons_cons, segments_slash, hname,
        ih (List.cons_ne_nil _ _) fun s hs => h s (List.mem_cons_of_mem _ hs)]
      rfl

theorem exists_intercalate_eq {pieces : List String} {piece : String} (h : piece ∈ pieces) :
    ∃ before after, "/".intercalate pieces = before ++ piece ++ after := by
  induction pieces with
  | nil => simp at h
  | cons first rest ih =>
    cases rest with
    | nil =>
      obtain rfl := List.mem_singleton.1 h
      exact ⟨"", "", by simp⟩
    | cons next rest =>
      rw [intercalate_cons_cons]
      rcases List.mem_cons.1 h with rfl | h
      · exact ⟨"", "/" ++ "/".intercalate (next :: rest), by simp [String.append_assoc]⟩
      · obtain ⟨before, after, heq⟩ := ih h
        exact ⟨first ++ "/" ++ before, after, by simp [heq, String.append_assoc]⟩

/-! ## Joining -/

theorem isAbsolute_of_text {rest : String} (h : p.text = "/" ++ rest) : p.isAbsolute = true := by
  simp [isAbsolute, h]

theorem isEmpty_text (h : p.isAbsolute = true) : p.text.isEmpty = false := by
  cases hempty : p.text.isEmpty with
  | false => rfl
  | true => simp [isAbsolute, String.isEmpty_iff.1 hempty] at h

theorem not_isAbsolute_of_no_slash {text : String} (h : '/' ∉ text.toList) :
    isAbsolute ⟨text⟩ = false := by
  cases htext : text.toList with
  | nil => simp [isAbsolute, htext]
  | cons c rest =>
    rw [htext, List.mem_cons, not_or] at h
    simp [isAbsolute, htext, Ne.symm h.1]

/-- What the texts of paths start with that are seen from a directory. -/
def front (dir : Path) : String :=
  if dir.text.isEmpty || dir.text.toList.getLast? == some '/' then dir.text else dir.text ++ "/"

theorem join_eq_front (dir : Path) (hp : p.isAbsolute = false) :
    dir.join p = ⟨dir.front ++ p.text⟩ := by
  rw [join, if_neg (by simp [hp]), front]
  split <;> rfl

theorem exists_front_eq (dir : Path) : ∃ slash, dir.front = dir.text ++ slash := by
  unfold front
  split
  · exact ⟨"", by simp⟩
  · exact ⟨"/", rfl⟩

/-- The pieces of a path seen from a directory are those of the directory and its own; an empty
piece at the end of the directory may be left out. -/
theorem segments_join (dir : Path) (hp : p.isAbsolute = false) :
    ∃ front, (dir.join p).segments = front ++ p.segments ∧
      (dir.segments = front ∨ dir.segments = front ++ [""]) := by
  unfold join
  rw [if_neg (by simp [hp])]
  split
  · next hend =>
    rcases Bool.or_eq_true_iff.1 hend with hempty | hslash
    · -- From nowhere, the path is seen as it is.
      rw [String.isEmpty_iff.1 hempty, String.empty_append]
      exact ⟨[], rfl, .inr (by simp [segments, split, String.isEmpty_iff.1 hempty])⟩
    · -- The directory ends in a slash, and no second one is put behind it.
      rw [beq_iff_eq, List.getLast?_eq_some_iff] at hslash
      obtain ⟨front, hfront⟩ := hslash
      refine ⟨segments ⟨String.ofList front⟩, ?_, .inr ?_⟩
      · simp [segments, hfront, split_append_slash]
      · simp [segments, hfront, split_append_slash, split]
  · exact ⟨dir.segments, segments_slash dir.text p.text, .inl rfl⟩

theorem isAbsolute_join {dir : Path} (hdir : dir.isAbsolute = true) (p : Path) :
    (dir.join p).isAbsolute = true := by
  unfold join
  split
  · assumption
  · have hhead : ∀ rest, isAbsolute ⟨dir.text ++ rest⟩ = true := by
      intro rest
      cases htext : dir.text.toList with
      | nil => simp [isAbsolute, htext] at hdir
      | cons c more => simpa [isAbsolute, htext] using hdir
    split
    · exact hhead p.text
    · rw [String.append_assoc]
      exact hhead ("/" ++ p.text)

theorem isAbsolute_join_of_relative (dir : Path) (hp : p.isAbsolute = false) :
    (dir.join p).isAbsolute = dir.isAbsolute := by
  cases hdir : dir.isAbsolute with
  | true => exact isAbsolute_join hdir p
  | false =>
    unfold join
    rw [if_neg (by simp [hp])]
    cases htext : dir.text.toList with
    | nil =>
      have hempty : dir.text = "" := String.toList_inj.1 htext
      simpa [hempty] using hp
    | cons c rest =>
      -- A text that goes on from that of the directory starts as it does.
      have hhead : ∀ more, isAbsolute ⟨dir.text ++ more⟩ = false := by
        intro more
        simpa [isAbsolute, htext] using hdir
      split
      · exact hhead p.text
      · rw [String.append_assoc]
        exact hhead ("/" ++ p.text)

theorem foldl_segments_join (dir : Path) (hp : p.isAbsolute = false) (s : Standpoint) :
    (dir.join p).segments.foldl Standpoint.enter s =
      p.segments.foldl Standpoint.enter (dir.segments.foldl Standpoint.enter s) := by
  obtain ⟨front, hjoin, hfront⟩ := segments_join dir hp
  have hdir : dir.segments.foldl Standpoint.enter s = front.foldl Standpoint.enter s := by
    -- An empty piece leads nowhere, so it does not matter whether it is left out.
    rcases hfront with h | h
    · rw [h]
    · rw [h, List.foldl_append, List.foldl_cons, List.foldl_nil, Standpoint.enter_of_isIdle rfl]
  rw [hjoin, List.foldl_append, hdir]

theorem place_join_name {dir : Path} (h : Place.IsName name) :
    (dir.join ⟨name⟩).place = dir.place ++ [name] := by
  have hjoin := foldl_segments_join dir (not_isAbsolute_of_no_slash h.no_slash) { place := [] }
  rw [Standpoint.foldl_enter_place, Standpoint.foldl_enter_place,
    segments_of_no_slash h.no_slash, List.foldl_cons, List.foldl_nil,
    Standpoint.enter_name h] at hjoin
  exact congrArg Standpoint.place hjoin

/-! ## Names -/

theorem no_slash_of_mem_segments {s : String} (h : s ∈ p.segments) : '/' ∉ s.toList := by
  obtain ⟨piece, hpiece, rfl⟩ := List.mem_map.1 h
  rw [String.toList_ofList]
  exact no_slash_of_mem_split hpiece

theorem mem_segments_of_mem_body {s : String} (h : s ∈ p.leadAndBody.2) : s ∈ p.segments := by
  unfold leadAndBody at h
  split at h
  · exact List.mem_of_mem_tail h
  · split at h
    · exact List.mem_of_mem_tail h
    · exact h

theorem isName_of_mem_components (h : .name name ∈ p.components) : Place.IsName name := by
  -- Pieces hold no slash, and components are pieces that are neither idle nor lead up.
  have hbody : ∀ s ∈ p.leadAndBody.2, '/' ∉ s.toList := fun s hs =>
    no_slash_of_mem_segments (mem_segments_of_mem_body hs)
  unfold components at h
  rcases List.mem_append.1 h with hlead | hname
  · dsimp only at hlead
    split at hlead <;> simp at hlead
  · obtain ⟨s, hs, heq⟩ := List.mem_map.1 hname
    rw [List.mem_filter] at hs
    split at heq
    · simp at heq
    · next hup =>
      obtain rfl : s = name := by simpa using heq
      exact ⟨by simpa using hs.2, hup, hbody s hs.1⟩

theorem isName_of_fileName? (h : p.fileName? = some name) : Place.IsName name := by
  unfold fileName? at h
  split at h
  · next text hlast =>
    obtain rfl : text = name := by simpa using h
    exact isName_of_mem_components (List.mem_of_getLast? hlast)
  · simp at h

theorem mem_of_mem_stemOf {name : List Char} {c : Char} (h : c ∈ stemOf name) : c ∈ name := by
  unfold stemOf at h
  split at h
  · exact h
  · exact h
  · -- The stem is what is left in front of the last dot.
    next first before _ hdrop =>
    have hmem : c ∈ name.reverse.dropWhile (· != '.') := by
      rw [hdrop]
      exact List.mem_cons_of_mem _ (List.mem_reverse.1 h)
    exact List.mem_reverse.1 ((List.dropWhile_sublist _).mem hmem)

theorem isName_of_stem? {stem extension : String} (h : p.stem? = some stem)
    (hslash : '/' ∉ extension.toList) (hlength : 3 ≤ extension.toList.length) :
    Place.IsName (stem ++ extension) := by
  obtain ⟨name, hname, rfl⟩ := Option.map_eq_some_iff.1 h
  have hstem : '/' ∉ stemOf name.toList :=
    fun hmem => (isName_of_fileName? hname).no_slash (mem_of_mem_stemOf hmem)
  -- With its extension the name is longer than all those that are not names.
  have hlong : ∀ text : String, text.toList.length < 3 →
      String.ofList (stemOf name.toList) ++ extension ≠ text := by
    rintro text htext rfl
    simp only [String.toList_append, List.length_append] at htext
    omega
  refine ⟨?_, hlong ".." (by decide), ?_⟩
  · simp [isIdle, hlong "" (by decide), hlong "." (by decide)]
  · simp [hstem, hslash]

end Path

/-! ## Paths of places -/

namespace Place

variable {p : Place} {name : String}

def path (p : Place) : Path :=
  ⟨"/" ++ "/".intercalate p⟩

theorem isAbsolute_path (p : Place) : (path p).isAbsolute = true :=
  Path.isAbsolute_of_text rfl

theorem segments_path (hne : p ≠ []) (h : ∀ name ∈ p, IsName name) :
    (path p).segments = "" :: p := by
  have hslash : path p = ⟨"" ++ "/" ++ "/".intercalate p⟩ := by simp [path]
  rw [hslash, Path.segments_slash, Path.segments_intercalate hne fun s hs => (h s hs).no_slash]
  rfl

theorem place_path (h : ∀ name ∈ p, IsName name) : (path p).place = p := by
  by_cases hne : p = []
  · subst hne
    rfl
  · rw [Path.place, segments_path hne h, List.foldl_cons, enter_of_isIdle rfl,
      foldl_enter_names h, List.nil_append]

theorem segments_join_path (h : ∀ name ∈ p, IsName name) (hname : IsName name) :
    ((path p).join ⟨name⟩).segments = "" :: (p ++ [name]) := by
  have hrelative : Path.isAbsolute ⟨name⟩ = false :=
    Path.not_isAbsolute_of_no_slash hname.no_slash
  have hsegments : Path.segments ⟨name⟩ = [name] := Path.segments_of_no_slash hname.no_slash
  -- The path of the root ends in a slash, unlike all others.
  by_cases hne : p = []
  · have hjoin : (path []).join ⟨name⟩ = ⟨"" ++ "/" ++ name⟩ := by
      simp [Path.join, hrelative, path]
    rw [hne, hjoin, Path.segments_slash, hsegments]
    rfl
  · obtain ⟨front, hjoin, hfront⟩ := Path.segments_join (path p) hrelative
    rw [segments_path hne h] at hfront
    rcases hfront with rfl | hlast
    · rw [hjoin, hsegments]
      rfl
    · -- The last piece of the path is a name, so it is not empty.
      have hmem : "" ∈ p := by
        cases front with
        | nil => exact absurd (List.cons.inj hlast).2 hne
        | cons first rest => simp [(List.cons.inj hlast).2]
      exact absurd (h "" hmem).not_idle (by decide)

theorem join_path (h : ∀ name ∈ p, IsName name) (hname : IsName name) :
    (path p).join ⟨name⟩ = path (p ++ [name]) := by
  have hnames : ∀ n ∈ p ++ [name], IsName n := by
    intro n hn
    rcases List.mem_append.1 hn with hn | hn
    · exact h n hn
    · rwa [List.mem_singleton.1 hn]
  apply Path.eq_of_segments
  rw [segments_join_path h hname, segments_path (by simp) hnames]

theorem parent?_join_path (h : ∀ name ∈ p, IsName name) (hname : IsName name) :
    ((path p).join ⟨name⟩).parent? = some (path p) := by
  have habsolute := Path.isAbsolute_join (isAbsolute_path p) ⟨name⟩
  -- No name is idle, so none is passed over on the way up.
  have hidle : p.reverse.dropWhile Path.isIdle = p.reverse := by
    cases hreverse : p.reverse with
    | nil => rfl
    | cons last rest =>
      have hlast : last ∈ p := List.mem_reverse.1 (hreverse ▸ List.mem_cons_self)
      simp [(h last hlast).not_idle]
  simp only [Path.parent?, Path.parents, Path.leadAndBody, habsolute, if_true,
    segments_join_path h hname, List.tail_cons, List.reverse_append, List.reverse_singleton,
    List.singleton_append, Path.shorter, hname.not_idle, hidle]
  simp [Path.build, path]

end Place

end TypedStyle
