import TypedStyle.Proofs.Place

/-!
# The parts of paths

Of the pieces of a path only some lead anywhere: `Path.steps` leaves out empty pieces and dots. The
components of a path are its steps, behind what it starts with, and the directory and the name of a
file are found by taking off the last step.
-/

namespace TypedStyle.Path

variable {p dir dir' : Path} {name : String}

/-! ## Steps -/

/-- The pieces of a path that lead somewhere. -/
def steps (p : Path) : List String :=
  p.segments.filter (!isIdle ·)

theorem foldl_filter_idle (segments : List String) (s : Standpoint) :
    (segments.filter (!isIdle ·)).foldl Standpoint.enter s =
      segments.foldl Standpoint.enter s := by
  induction segments generalizing s with
  | nil => rfl
  | cons segment rest ih =>
    by_cases hidle : isIdle segment = true
    · rw [List.filter_cons_of_neg (by simp [hidle]), List.foldl_cons,
        Standpoint.enter_of_isIdle hidle, ih]
    · rw [List.filter_cons_of_pos (by simpa using hidle), List.foldl_cons, List.foldl_cons, ih]

theorem foldl_steps (p : Path) (s : Standpoint) :
    p.steps.foldl Standpoint.enter s = p.segments.foldl Standpoint.enter s :=
  foldl_filter_idle p.segments s

theorem steps_join (dir : Path) (hp : p.isAbsolute = false) :
    (dir.join p).steps = dir.steps ++ p.steps := by
  obtain ⟨front, hjoin, hfront⟩ := segments_join dir hp
  rw [steps, steps, steps, hjoin, List.filter_append]
  rcases hfront with h | h
  · rw [h]
  · rw [h, List.filter_append, List.filter_cons_of_neg (by decide), List.filter_nil,
      List.append_nil]

theorem steps_name (h : Place.IsName name) : steps ⟨name⟩ = [name] := by
  rw [steps, segments_of_no_slash h.no_slash]
  simp [h.not_idle]

/-! ## Starts -/

theorem segments_of_isAbsolute (h : p.isAbsolute = true) : ∃ rest, p.segments = "" :: rest := by
  cases htext : p.text.toList with
  | nil => simp [isAbsolute, htext] at h
  | cons c rest =>
    obtain rfl : c = '/' := by simpa [isAbsolute, htext] using h
    exact ⟨(split rest).map String.ofList, by simp [segments, htext, split]⟩

theorem text_of_segments_head (h : p.isAbsolute = false) (hhead : p.segments.head? = some "") :
    p.text = "" := by
  cases htext : p.text.toList with
  | nil => exact String.toList_inj.1 htext
  | cons c rest =>
    have hc : c ≠ '/' := by simpa [isAbsolute, htext] using h
    obtain ⟨first, more, hsplit⟩ := List.exists_cons_of_ne_nil (split_ne_nil rest)
    simp [segments, htext, split, hc, hsplit] at hhead

def start (p : Path) : List Component :=
  if p.isAbsolute then [.root] else if p.segments.head? = some "." then [.here] else []

def component (step : String) : Component :=
  if step = ".." then .up else .name step

def Lead.pieces : Lead → List String
  | absolute => [""]
  | dot => ["."]
  | plain => []

theorem segments_eq_pieces (p : Path) :
    p.segments = p.leadAndBody.1.pieces ++ p.leadAndBody.2 := by
  unfold leadAndBody
  split
  · next habsolute =>
    obtain ⟨rest, hrest⟩ := segments_of_isAbsolute habsolute
    rw [hrest]
    rfl
  · split
    · next hdot =>
      obtain ⟨rest, hrest⟩ := List.head?_eq_some_iff.1 hdot
      rw [hrest]
      rfl
    · rfl

theorem filter_body (p : Path) : p.leadAndBody.2.filter (!isIdle ·) = p.steps := by
  rw [steps, segments_eq_pieces, List.filter_append]
  cases p.leadAndBody.1 <;> rfl

theorem components_eq (p : Path) : p.components = p.start ++ p.steps.map component := by
  have hstart : (match p.leadAndBody.1 with
      | .absolute => [Component.root]
      | .dot => [.here]
      | .plain => []) = p.start := by
    rw [leadAndBody, start]
    by_cases habsolute : p.isAbsolute = true
    · rw [if_pos habsolute, if_pos habsolute]
    · rw [if_neg habsolute, if_neg habsolute]
      by_cases hdot : p.segments.head? = some "."
      · rw [if_pos hdot, if_pos hdot]
      · rw [if_neg hdot, if_neg hdot]
  rw [← filter_body p, ← hstart]
  rfl

/-- A path is seen from a directory as behind it; from nowhere it is seen as it is. -/
theorem start_join (dir : Path) (hp : p.isAbsolute = false) :
    (dir.join p).start = if dir.text = "" then p.start else dir.start := by
  by_cases hempty : dir.text = ""
  · have hjoin : dir.join p = p := by
      rw [join, if_neg (by simp [hp]), hempty]
      simp
    rw [if_pos hempty, hjoin]
  · rw [if_neg hempty, start, start, isAbsolute_join_of_relative dir hp]
    cases hdir : dir.isAbsolute with
    | true => rfl
    | false =>
      -- The first piece of the directory is not empty, so it is the first of both.
      obtain ⟨front, hjoin, hfront⟩ := segments_join dir hp
      have hne : front ≠ [] := by
        rintro rfl
        refine hempty (text_of_segments_head hdir ?_)
        rcases hfront with h | h
        · exact absurd (List.map_eq_nil_iff.1 h) (split_ne_nil _)
        · rw [h]
          rfl
      obtain ⟨first, rest, rfl⟩ := List.exists_cons_of_ne_nil hne
      have hhead : dir.segments.head? = some first := by
        rcases hfront with h | h <;> rw [h] <;> rfl
      rw [hjoin, hhead]
      rfl

theorem component_inj {a b : String} (h : component a = component b) : a = b := by
  unfold component at h
  split at h
  · next ha =>
    split at h
    · next hb => rw [ha, hb]
    · simp at h
  · split at h
    · simp at h
    · simpa using h

/-- Whether a component can only be the first one. -/
def Component.isStart : Component → Bool
  | root | here => true
  | _ => false

theorem filter_isStart_components (p : Path) :
    p.components.filter Component.isStart = p.start ∧
      p.components.filter (!Component.isStart ·) = p.steps.map component := by
  have hstart : ∀ c ∈ p.start, c.isStart = true := by
    unfold start
    split
    · simp [Component.isStart]
    · split <;> simp [Component.isStart]
  have hsteps : ∀ c ∈ p.steps.map component, c.isStart = false := by
    refine List.forall_mem_map.2 fun s _ => ?_
    unfold component
    split <;> rfl
  rw [components_eq, List.filter_append, List.filter_append]
  rw [List.filter_eq_self.2 hstart, List.filter_eq_nil_iff.2 (by simpa using hsteps),
    List.append_nil]
  refine ⟨rfl, ?_⟩
  rw [List.filter_eq_nil_iff.2 (by simpa using hstart), List.nil_append]
  exact List.filter_eq_self.2 (by simpa using hsteps)

theorem same_iff {q : Path} : p.same q = true ↔ p.start = q.start ∧ p.steps = q.steps := by
  rw [same, beq_iff_eq]
  constructor
  · intro h
    obtain ⟨hstart, hsteps⟩ := filter_isStart_components p
    rw [h, (filter_isStart_components q).1] at hstart
    rw [h, (filter_isStart_components q).2] at hsteps
    exact ⟨hstart.symm, ((List.map_inj_right fun _ _ => component_inj).1 hsteps).symm⟩
  · rintro ⟨hstart, hsteps⟩
    rw [components_eq, components_eq, hstart, hsteps]

theorem text_eq_empty_iff : p.text = "" ↔ p.start = [] ∧ p.steps = [] := by
  constructor
  · intro hempty
    simp [start, steps, isAbsolute, segments, split, isIdle, hempty]
  rintro ⟨hstart, hsteps⟩
  have hrelative : p.isAbsolute = false := by
    cases habsolute : p.isAbsolute with
    | false => rfl
    | true => simp [start, habsolute] at hstart
  refine text_of_segments_head hrelative ?_
  have hidle := List.filter_eq_nil_iff.1 hsteps
  cases hsegments : p.segments with
  | nil => exact absurd (List.map_eq_nil_iff.1 hsegments) (split_ne_nil _)
  | cons first rest =>
    -- The first piece leads nowhere, and it is no dot.
    have hfirst : first = "" ∨ first = "." := by
      have hfirst := hidle first (by simp [hsegments])
      simpa [isIdle, Classical.or_iff_not_imp_left] using hfirst
    rcases hfirst with rfl | rfl
    · rfl
    · simp [start, hrelative, hsegments] at hstart

theorem start_name (h : Place.IsName name) : start ⟨name⟩ = [] := by
  rw [start, not_isAbsolute_of_no_slash h.no_slash, segments_of_no_slash h.no_slash]
  have hdot : name ≠ "." := by
    rintro rfl
    exact absurd h.not_idle (by decide)
  simp [hdot]

/-- Names are seen from directories that are the same as paths that are the same. -/
theorem same_join_name_iff (h : Place.IsName name) :
    (dir.join ⟨name⟩).same (dir'.join ⟨name⟩) = true ↔ dir.same dir' = true := by
  have hrelative := not_isAbsolute_of_no_slash h.no_slash
  -- A directory that is empty starts with nothing, as a name does.
  have hstart : ∀ dir : Path, (dir.join ⟨name⟩).start = dir.start := by
    intro dir
    rw [start_join dir hrelative, start_name h]
    split
    · next hempty => exact (text_eq_empty_iff.1 hempty).1.symm
    · rfl
  rw [same_iff, same_iff, hstart, hstart, steps_join dir hrelative, steps_join dir' hrelative,
    List.append_left_inj]

/-- From directories that are the same, a path is seen as the same. -/
theorem same_join (h : dir.same dir' = true) (p : Path) :
    (dir.join p).same (dir'.join p) = true := by
  cases hp : p.isAbsolute with
  | true => simp [join, hp, same]
  | false =>
    obtain ⟨hstart, hsteps⟩ := same_iff.1 h
    have hempty : dir.text = "" ↔ dir'.text = "" := by
      rw [text_eq_empty_iff, text_eq_empty_iff, hstart, hsteps]
    rw [same_iff, start_join dir hp, start_join dir' hp, steps_join dir hp, steps_join dir' hp,
      hstart, hsteps]
    simp [hempty]

/-! ## Names and directories of files -/

theorem fileName?_eq_some_iff :
    p.fileName? = some name ↔ p.steps.getLast? = some name ∧ name ≠ ".." := by
  have hlast : p.components.getLast? = (p.steps.getLast?.map component).or p.start.getLast? := by
    rw [components_eq, List.getLast?_append, List.getLast?_map]
  have hstart : ∀ text, p.start.getLast? ≠ some (.name text) := by
    intro text
    unfold start
    split
    · simp
    · split <;> simp
  unfold fileName?
  rw [hlast]
  cases p.steps.getLast? with
  | none =>
    cases hfirst : p.start.getLast? with
    | none => simp
    | some c =>
      have hc := hstart
      cases c <;> simp_all
  | some step =>
    unfold component
    by_cases hup : step = ".."
    · simp [hup]
      rintro rfl
      simp
    · simp [hup]
      rintro rfl
      exact hup

/-- The last step of a path whose pieces end in a step and then lead nowhere. -/
theorem head?_shorter {pieces : List String} {last : String} {rest : List String}
    (h : pieces.filter (!isIdle ·) = last :: rest) :
    ∃ more, (shorter pieces).head? = some (more.dropWhile isIdle) ∧ more <:+ pieces ∧
      more.filter (!isIdle ·) = rest := by
  induction pieces with
  | nil => simp at h
  | cons piece pieces ih =>
    rw [shorter]
    by_cases hidle : isIdle piece = true
    · rw [List.filter_cons_of_neg (by simp [hidle])] at h
      obtain ⟨more, hhead, hsuffix, hmore⟩ := ih h
      rw [if_pos hidle]
      exact ⟨more, hhead, hsuffix.trans (List.suffix_cons _ _), hmore⟩
    · rw [List.filter_cons_of_pos (by simpa using hidle)] at h
      rw [if_neg hidle]
      exact ⟨pieces, rfl, List.suffix_cons _ _, (List.cons.inj h).2⟩

theorem filter_dropWhile_idle (pieces : List String) :
    (pieces.dropWhile isIdle).filter (!isIdle ·) = pieces.filter (!isIdle ·) := by
  induction pieces with
  | nil => rfl
  | cons piece rest ih =>
    by_cases hidle : isIdle piece = true
    · rw [List.dropWhile_cons_of_pos hidle, ih, List.filter_cons_of_neg (by simp [hidle])]
    · rw [List.dropWhile_cons_of_neg hidle]

theorem segments_build {pieces : List String} (hne : pieces ≠ [])
    (h : ∀ s ∈ pieces, '/' ∉ s.toList) (lead : Lead) :
    (build lead pieces).segments = lead.pieces ++ pieces := by
  have hpieces := segments_intercalate hne h
  obtain ⟨first, rest, rfl⟩ := List.exists_cons_of_ne_nil hne
  cases lead with
  | absolute =>
    have htext : "/" ++ "/".intercalate (first :: rest) =
        "" ++ "/" ++ "/".intercalate (first :: rest) := by simp
    rw [build, htext, segments_slash, hpieces]
    rfl
  | dot =>
    have htext : "./" ++ "/".intercalate (first :: rest) =
        "." ++ "/" ++ "/".intercalate (first :: rest) := rfl
    rw [build, htext, segments_slash, hpieces]
    · rfl
    · simp
  | plain => exact hpieces

theorem steps_build {pieces : List String} (h : ∀ s ∈ pieces, '/' ∉ s.toList) (lead : Lead) :
    (build lead pieces).steps = pieces.filter (!isIdle ·) := by
  by_cases hne : pieces = []
  · subst hne
    cases lead <;> rfl
  · rw [steps, segments_build hne h, List.filter_append]
    cases lead <;> rfl

theorem front_eq (h : p.segments.getLast? ≠ some "") : p.front = p.text ++ "/" := by
  rw [front, if_neg]
  intro hend
  rcases Bool.or_eq_true_iff.1 hend with hempty | hslash
  · exact h (by simp [segments, split, String.isEmpty_iff.1 hempty])
  · rw [beq_iff_eq, List.getLast?_eq_some_iff] at hslash
    obtain ⟨text, htext⟩ := hslash
    exact h (by simp [segments, htext, split_append_slash, split])

theorem front_join_name (dir : Path) (h : Place.IsName name) :
    (dir.join ⟨name⟩).front = dir.front ++ name ++ "/" := by
  have hrelative := not_isAbsolute_of_no_slash h.no_slash
  have hlast : (dir.join ⟨name⟩).segments.getLast? ≠ some "" := by
    obtain ⟨front, hjoin, -⟩ := segments_join dir hrelative
    rw [hjoin, segments_of_no_slash h.no_slash, List.getLast?_concat]
    rintro hempty
    exact absurd h.not_idle (by rw [Option.some.inj hempty]; decide)
  rw [front_eq hlast, join_eq_front dir hrelative]

theorem join_congr (h : dir.front = dir'.front) (p : Path) : dir.join p = dir'.join p := by
  cases hp : p.isAbsolute with
  | true => simp [join, hp]
  | false => rw [join_eq_front dir hp, join_eq_front dir' hp, h]

theorem front_join_name_inj (h : Place.IsName name) :
    (dir.join ⟨name⟩).front = (dir'.join ⟨name⟩).front ↔ dir.front = dir'.front := by
  rw [front_join_name dir h, front_join_name dir' h, String.append_left_inj,
    String.append_left_inj]

theorem segments_front_build {pieces : List String} (h : ∀ s ∈ pieces, '/' ∉ s.toList)
    (hlast : pieces.getLast? ≠ some "") (lead : Lead) (rest : String) :
    segments ⟨(build lead pieces).front ++ rest⟩ = lead.pieces ++ pieces ++ segments ⟨rest⟩ := by
  by_cases hne : pieces = []
  · subst hne
    cases lead with
    | absolute => exact segments_slash "" rest
    | dot => exact segments_slash "." rest
    | plain => simp [build, front, Lead.pieces]
  · have hsegments := segments_build hne h lead
    have hlast' : (build lead pieces).segments.getLast? ≠ some "" := by
      rw [hsegments, List.getLast?_append, List.getLast?_eq_some_getLast hne, Option.some_or]
      rwa [List.getLast?_eq_some_getLast hne] at hlast
    rw [front_eq hlast', segments_slash, ← hsegments]

theorem isAbsolute_build (hsteps : p.steps ≠ []) {pieces : List String}
    (hpieces : pieces <+: p.leadAndBody.2) (hslash : ∀ s ∈ pieces, '/' ∉ s.toList) :
    (build p.leadAndBody.1 pieces).isAbsolute = p.isAbsolute := by
  unfold leadAndBody at hpieces ⊢
  cases habsolute : p.isAbsolute with
  | true => exact isAbsolute_of_text rfl
  | false =>
    simp only [habsolute, Bool.false_eq_true, if_false] at hpieces ⊢
    split
    · -- Behind a dot no slash is the first character.
      cases pieces <;> simp [build, isAbsolute]
    · next hdot =>
      rw [if_neg hdot] at hpieces
      by_cases hne : pieces = []
      · subst hne
        rfl
      · -- The first piece is that of the path, which is not empty.
        cases hbuild : (build .plain pieces).isAbsolute with
        | false => rfl
        | true =>
          obtain ⟨rest, hrest⟩ := segments_of_isAbsolute hbuild
          rw [build, segments_intercalate hne hslash] at hrest
          obtain ⟨more, hmore⟩ : pieces <+: p.segments := hpieces
          have hhead : p.segments.head? = some "" := by rw [← hmore, hrest]; rfl
          have hempty := text_of_segments_head habsolute hhead
          exact absurd (text_eq_empty_iff.1 hempty).2 hsteps

/-- The pieces of the directory of a file are those before its name, without what leads nowhere. -/
theorem exists_pieces (h : p.fileName? = some name) :
    ∃ pieces rest, p.parent? = some (build p.leadAndBody.1 pieces) ∧
      p.leadAndBody.2 = pieces ++ rest ∧ rest.filter (!isIdle ·) = [name] ∧
      pieces.getLast? ≠ some "" := by
  obtain ⟨hlast, -⟩ := fileName?_eq_some_iff.1 h
  obtain ⟨front, hfront⟩ := List.getLast?_eq_some_iff.1 hlast
  have hbody : p.leadAndBody.2.reverse.filter (!isIdle ·) = name :: front.reverse := by
    rw [List.filter_reverse, filter_body, hfront]
    simp
  obtain ⟨more, hhead, hsuffix, hmore⟩ := head?_shorter hbody
  have hpieces : (more.dropWhile isIdle).reverse.filter (!isIdle ·) = front := by
    rw [List.filter_reverse, filter_dropWhile_idle, hmore, List.reverse_reverse]
  obtain ⟨rest, hrest⟩ : (more.dropWhile isIdle).reverse <+: p.leadAndBody.2 := by
    rw [← List.reverse_suffix, List.reverse_reverse]
    exact (List.dropWhile_suffix _).trans hsuffix
  refine ⟨(more.dropWhile isIdle).reverse, rest, ?_, hrest.symm, ?_, ?_⟩
  · have habove : ((shorter p.leadAndBody.2.reverse).map fun body =>
        build p.leadAndBody.1 body.reverse).head? =
          some (build p.leadAndBody.1 (more.dropWhile isIdle).reverse) := by
      rw [List.head?_map, hhead]
      rfl
    rw [parent?, parents]
    generalize p.leadAndBody = parts at habove ⊢
    obtain ⟨lead, body⟩ := parts
    cases lead with
    | dot => rw [List.head?_append, habove, Option.some_or]
    | _ => exact habove
  · -- The steps are those of the directory and the name.
    have hsteps := congrArg (List.filter (!isIdle ·)) hrest
    rw [List.filter_append, hpieces, filter_body, hfront] at hsteps
    exact List.append_cancel_left hsteps
  · rw [List.getLast?_reverse]
    intro hempty
    have hidle := List.head?_dropWhile_not isIdle more
    rw [hempty] at hidle
    simp [isIdle] at hidle

/-- A path with a file name has a directory, from which the name leads to the file. In its text, the
directory comes first and then, perhaps behind more slashes and dots, the name. -/
theorem exists_parent? (h : p.fileName? = some name) :
    ∃ dir, p.parent? = some dir ∧ p.steps = dir.steps ++ [name] ∧
      dir.isAbsolute = p.isAbsolute ∧
      ∃ pieces, p.text = dir.front ++ "/".intercalate pieces ∧ name ∈ pieces := by
  obtain ⟨pieces, rest, hparent, hbody, hrest, hlast⟩ := exists_pieces h
  have hslash : ∀ s ∈ pieces ++ rest, '/' ∉ s.toList := fun s hs =>
    no_slash_of_mem_segments (mem_segments_of_mem_body (hbody ▸ hs))
  have hslash' : ∀ s ∈ pieces, '/' ∉ s.toList := fun s hs =>
    hslash s (List.mem_append_left _ hs)
  have hname : name ∈ rest := by
    have hmem : name ∈ rest.filter (!isIdle ·) := by simp [hrest]
    exact (List.mem_filter.1 hmem).1
  have hsteps : p.steps = pieces.filter (!isIdle ·) ++ [name] := by
    rw [← filter_body, hbody, List.filter_append, hrest]
  refine ⟨build p.leadAndBody.1 pieces, hparent, ?_, ?_, rest, ?_, hname⟩
  · rw [steps_build hslash', hsteps]
  · exact isAbsolute_build (by simp [hsteps]) ⟨rest, hbody.symm⟩ hslash'
  · have heq : p = ⟨(build p.leadAndBody.1 pieces).front ++ "/".intercalate rest⟩ := by
      apply eq_of_segments
      rw [segments_front_build hslash' hlast, segments_intercalate (List.ne_nil_of_mem hname)
        fun s hs => hslash s (List.mem_append_right _ hs), List.append_assoc, ← hbody,
        segments_eq_pieces]
    exact congrArg Path.text heq

/-! ## Stems -/

theorem stemOf_append {stem extension : List Char} (hne : stem ≠ []) (h : '.' ∉ extension) :
    stemOf (stem ++ '.' :: extension) = stem := by
  have hreverse : (stem ++ '.' :: extension).reverse = extension.reverse ++ '.' :: stem.reverse := by
    simp
  have hdrop : (stem ++ '.' :: extension).reverse.dropWhile (· != '.') = '.' :: stem.reverse := by
    rw [hreverse, List.dropWhile_append_of_pos, List.dropWhile_cons_of_neg (by simp)]
    intro c hc
    have hc' : c ≠ '.' := fun heq => h (heq ▸ List.mem_reverse.1 hc)
    simpa using hc'
  obtain ⟨last, front, hstem⟩ := List.exists_cons_of_ne_nil (List.reverse_ne_nil_iff.2 hne)
  rw [stemOf, hdrop, hstem]
  show (last :: front).reverse = stem
  rw [← hstem, List.reverse_reverse]

theorem stemOf_ne_nil {name : List Char} (h : name ≠ []) : stemOf name ≠ [] := by
  unfold stemOf
  split
  · exact h
  · exact h
  · next first before hbefore _ =>
    intro hnil
    exact hbefore (List.reverse_eq_nil_iff.1 hnil)

theorem stem_ne_empty {stem : String} (h : p.stem? = some stem) : stem ≠ "" := by
  obtain ⟨name, hname, rfl⟩ := Option.map_eq_some_iff.1 h
  have hne : name.toList ≠ [] := by
    intro hnil
    obtain ⟨hlast, -⟩ := fileName?_eq_some_iff.1 hname
    have hmem := (List.mem_filter.1 (List.mem_of_getLast? hlast)).2
    simp [String.toList_eq_nil_iff.1 hnil, isIdle] at hmem
  intro hempty
  exact stemOf_ne_nil hne (by simpa using congrArg String.toList hempty)

/-- A file named by a stem and an extension has this stem. -/
theorem stem?_of_extension {stem : String} (extension : String) (hstem : stem ≠ "")
    (hextension : '.' ∉ extension.toList) (h : p.fileName? = some (stem ++ ("." ++ extension))) :
    p.stem? = some stem := by
  have hname : (stem ++ ("." ++ extension)).toList = stem.toList ++ '.' :: extension.toList := by
    simp
  have hne : stem.toList ≠ [] := fun hnil => hstem (String.toList_eq_nil_iff.1 hnil)
  rw [stem?, h, Option.map_some, hname, stemOf_append hne hextension, String.ofList_toList]

end TypedStyle.Path
