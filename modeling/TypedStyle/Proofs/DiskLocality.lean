import TypedStyle.Proofs.ProjectPlace

/-!
# Where the operations of a disk look

An operation on a path looks at the places on the way to where the path leads (`Disk.OnWay`) and
nowhere else. On disks that are alike at these places it does the same, for the same reason if it
cannot be done (`Disk.Alike`). Making a directory with all those around it works on several paths,
but what is around a path is on its way.
-/

namespace TypedStyle

/-! ## The directories around a path -/

namespace Path

/-- A path with the text and the steps that another path starts with. -/
structure Above (dir p : Path) : Prop where
  isAbsolute : dir.isAbsolute = p.isAbsolute
  ne_nil : p.steps ≠ []
  steps : dir.steps <+: p.steps.dropLast
  text : ∃ more, p.text = dir.text ++ more

theorem shorter_dropWhile (pieces : List String) :
    shorter (pieces.dropWhile isIdle) = shorter pieces := by
  induction pieces with
  | nil => rfl
  | cons piece rest ih =>
    by_cases hidle : isIdle piece = true
    · rw [List.dropWhile_cons_of_pos hidle, ih, shorter, if_pos hidle]
    · rw [List.dropWhile_cons_of_neg hidle]

theorem suffix_of_mem_shorter {pieces less : List String} (h : less ∈ shorter pieces) :
    less <:+ pieces ∧ pieces.filter (!isIdle ·) ≠ [] ∧
      less.filter (!isIdle ·) <:+ (pieces.filter (!isIdle ·)).tail := by
  induction pieces with
  | nil => simp [shorter] at h
  | cons piece rest ih =>
    rw [shorter] at h
    by_cases hidle : isIdle piece = true
    · rw [if_pos hidle] at h
      obtain ⟨hsuffix, hsteps⟩ := ih h
      rw [List.filter_cons_of_neg (by simp [hidle])]
      exact ⟨hsuffix.trans (List.suffix_cons _ _), hsteps⟩
    · rw [if_neg hidle] at h
      rw [List.filter_cons_of_pos (by simpa using hidle), List.tail_cons]
      rcases List.mem_cons.1 h with rfl | h
      · rw [filter_dropWhile_idle]
        exact ⟨(List.dropWhile_suffix _).trans (List.suffix_cons _ _), by simp, List.suffix_refl _⟩
      · obtain ⟨hsuffix, -, hsteps⟩ := ih h
        exact ⟨hsuffix.trans (List.suffix_cons _ _), by simp,
          hsteps.trans (List.tail_suffix _)⟩

theorem pairwise_shorter (pieces : List String) :
    (shorter pieces).Pairwise fun more less => less ∈ shorter more := by
  induction pieces with
  | nil => exact .nil
  | cons piece rest ih =>
    rw [shorter]
    split
    · exact ih
    · refine List.pairwise_cons.2 ⟨?_, ih⟩
      intro less hless
      rwa [shorter_dropWhile]

theorem exists_intercalate_append {front : List String} (hne : front ≠ []) (rest : List String) :
    ∃ more, "/".intercalate (front ++ rest) = "/".intercalate front ++ more := by
  induction front with
  | nil => exact absurd rfl hne
  | cons first front ih =>
    cases front with
    | nil =>
      cases rest with
      | nil => exact ⟨"", by simp⟩
      | cons next rest =>
        exact ⟨"/" ++ "/".intercalate (next :: rest), by
          rw [List.singleton_append, intercalate_cons_cons, String.append_assoc]
          simp⟩
    | cons next front =>
      obtain ⟨more, hmore⟩ := ih (List.cons_ne_nil _ _)
      refine ⟨more, ?_⟩
      rw [List.cons_append, List.cons_append, intercalate_cons_cons, ← List.cons_append, hmore,
        intercalate_cons_cons, ← String.append_assoc]

theorem build_leadAndBody {p : Path} (h : p.steps ≠ []) :
    build p.leadAndBody.1 p.leadAndBody.2 = p := by
  have hne : p.leadAndBody.2 ≠ [] := by
    intro hnil
    exact h (by rw [← filter_body, hnil]; rfl)
  apply eq_of_segments
  rw [segments_build hne fun s hs => no_slash_of_mem_segments (mem_segments_of_mem_body hs),
    ← segments_eq_pieces]

/-- The text of a path starts with that of a path of which fewer pieces are left. -/
theorem exists_text_build (lead : Lead) {front : List String} (rest : List String) :
    (build lead front).text = "" ∨
      ∃ more, (build lead (front ++ rest)).text = (build lead front).text ++ more := by
  by_cases hne : front = []
  · subst hne
    cases lead with
    | absolute => exact .inr ⟨"/".intercalate rest, by simp [build]⟩
    | dot =>
      cases rest with
      | nil => exact .inr ⟨"", by simp⟩
      | cons first rest =>
        exact .inr ⟨"/" ++ "/".intercalate (first :: rest), by
          simp only [build, List.nil_append, ← String.append_assoc]
          rfl⟩
    | plain => exact .inl rfl
  · right
    obtain ⟨more, hmore⟩ := exists_intercalate_append hne rest
    obtain ⟨first, front, rfl⟩ := List.exists_cons_of_ne_nil hne
    refine ⟨more, ?_⟩
    cases lead with
    | absolute =>
      show "/" ++ "/".intercalate (first :: front ++ rest) = _
      rw [hmore, ← String.append_assoc]
      rfl
    | dot =>
      show "./" ++ "/".intercalate (first :: front ++ rest) = _
      rw [hmore, ← String.append_assoc]
      rfl
    | plain => exact hmore

/-- Of the pieces of a path some are left, and then fewer: the paths built of them. -/
theorem above_build {p : Path} (hsteps : p.steps ≠ []) {more less : List String}
    (hmore : more <:+ p.leadAndBody.2.reverse) (hless : less ∈ shorter more) :
    (build p.leadAndBody.1 less.reverse).text = "" ∨
      Above (build p.leadAndBody.1 less.reverse) (build p.leadAndBody.1 more.reverse) := by
  obtain ⟨hsuffix, hne, htail⟩ := suffix_of_mem_shorter hless
  have hbody : more.reverse <+: p.leadAndBody.2 := by
    rw [← List.reverse_reverse p.leadAndBody.2]
    exact List.reverse_prefix.2 hmore
  have hprefix' : less.reverse <+: more.reverse := List.reverse_prefix.2 hsuffix
  have hslash : ∀ s ∈ more.reverse, '/' ∉ s.toList := fun s hs =>
    no_slash_of_mem_segments (mem_segments_of_mem_body (hbody.subset hs))
  have hslash' : ∀ s ∈ less.reverse, '/' ∉ s.toList := fun s hs => hslash s (hprefix'.subset hs)
  obtain ⟨rest, hrest⟩ := hprefix'
  refine (exists_text_build p.leadAndBody.1 rest).imp_right fun htext => ?_
  rw [hrest] at htext
  refine ⟨?_, ?_, ?_, htext⟩
  · rw [isAbsolute_build hsteps (List.IsPrefix.trans ⟨rest, hrest⟩ hbody) hslash',
      isAbsolute_build hsteps hbody hslash]
  · rw [steps_build hslash, List.filter_reverse]
    simpa using hne
  · rw [steps_build hslash, steps_build hslash', List.filter_reverse, List.filter_reverse,
      List.dropLast_reverse]
    exact List.reverse_prefix.2 htail

/-- The directories around a path are each around those before, up to the one from which a relative
path is seen. -/
theorem pairwise_parents (p : Path) :
    (p :: p.parents).Pairwise fun q dir => dir.text = "" ∨ Above dir q := by
  -- If pieces can be left out, there are steps among them.
  have hsteps : ∀ less ∈ shorter p.leadAndBody.2.reverse, p.steps ≠ [] := by
    intro less hless hnil
    refine (suffix_of_mem_shorter hless).2.1 ?_
    rw [List.filter_reverse, filter_body, hnil]
    rfl
  have habove : (p :: (shorter p.leadAndBody.2.reverse).map fun body =>
      build p.leadAndBody.1 body.reverse).Pairwise fun q dir => dir.text = "" ∨ Above dir q := by
    refine List.pairwise_cons.2 ⟨?_, ?_⟩
    · intro dir hdir
      obtain ⟨less, hless, rfl⟩ := List.mem_map.1 hdir
      have h := above_build (hsteps less hless) (List.suffix_refl _) hless
      rwa [List.reverse_reverse, build_leadAndBody (hsteps less hless)] at h
    · rw [List.pairwise_map]
      refine (pairwise_shorter _).imp_of_mem fun hmore _ hless => ?_
      exact above_build (hsteps _ hmore) (suffix_of_mem_shorter hmore).1 hless
  rw [parents]
  generalize p.leadAndBody = parts at habove ⊢
  obtain ⟨lead, body⟩ := parts
  cases lead with
  | dot =>
    rw [← List.cons_append]
    exact List.pairwise_append.2 ⟨habove, List.pairwise_singleton _ _, by simp⟩
  | _ => exact habove

end Path

namespace Disk

variable {path dir : Path} {p : Place} {d d' : Disk} {paths : List Path}

/-! ## Disks that are alike on the way -/

def OnWay (d : Disk) (path : Path) (p : Place) : Prop :=
  ∃ front rest, path.steps = front ++ rest ∧
    p = (front.foldl Standpoint.enter (d.origin path)).place

/-- The disks have the same things at some places. -/
structure Alike (at? : Place → Prop) (d d' : Disk) : Prop where
  cwd : d'.cwd = d.cwd
  get? : ∀ p, at? p → d'.tree.get? p = d.tree.get? p

theorem onWay_of_segments (d : Disk) {front rest : List String}
    (h : path.segments = front ++ rest) :
    d.OnWay path (front.foldl Standpoint.enter (d.origin path)).place :=
  ⟨front.filter (!Path.isIdle ·), rest.filter (!Path.isIdle ·),
    by rw [Path.steps, h, List.filter_append], by rw [Path.foldl_filter_idle]⟩

theorem onWay_spot (d : Disk) (path : Path) : d.OnWay path (d.spot path).place :=
  d.onWay_of_segments (List.append_nil _).symm

theorem onWay_of_above (d : Disk) (h : dir.Above path) (hp : d.OnWay dir p) : d.OnWay path p := by
  obtain ⟨front, rest, hsteps, rfl⟩ := hp
  obtain ⟨more, hmore⟩ := h.steps.trans (List.dropLast_prefix _)
  refine ⟨front, rest ++ more, by rw [← hmore, hsteps, List.append_assoc], ?_⟩
  rw [origin, origin, h.isAbsolute]

theorem onWay_join_name {name : String} (hname : Place.IsName name)
    (hp : d.OnWay (dir.join ⟨name⟩) p) :
    d.OnWay dir p ∨ p = (d.spot dir).place ++ [name] := by
  have hrelative := Path.not_isAbsolute_of_no_slash hname.no_slash
  obtain ⟨front, rest, hsteps, rfl⟩ := hp
  rw [Path.steps_join dir hrelative, Path.steps_name hname] at hsteps
  rw [origin, Path.isAbsolute_join_of_relative dir hrelative, ← origin]
  rcases List.prefix_concat_iff.1 ⟨rest, hsteps.symm⟩ with rfl | ⟨more, hmore⟩
  · right
    rw [List.foldl_append, Path.foldl_steps, ← spot]
    exact congrArg Standpoint.place (Standpoint.enter_name hname)
  · exact .inl ⟨front, more, hmore.symm, rfl⟩

theorem onWay_of_cwd (h : d'.cwd = d.cwd) : d'.OnWay = d.OnWay := by
  funext path p
  simp only [OnWay, origin, h]

/-- Steps that start from the same things lead to the same place. -/
theorem walk_congr {t t' : FileTree} {segments : List String} {s : Standpoint}
    (h : ∀ front rest, segments = front ++ rest →
      t'.get? (front.foldl Standpoint.enter s).place =
        t.get? (front.foldl Standpoint.enter s).place) :
    walk t' s segments = walk t s segments := by
  induction segments generalizing s with
  | nil => rfl
  | cons segment rest ih =>
    have hstep : step t' s segment = step t s segment := by
      have hs : t'.get? s.place = t.get? s.place := h [] _ rfl
      simp only [step, Standpoint.entry?, hs]
    rw [walk, walk, hstep]
    cases hs : step t s segment with
    | error e => rfl
    | ok s' =>
      obtain ⟨rfl, -, -⟩ := step_eq_ok hs
      refine ih fun front more hmore => ?_
      exact h (segment :: front) more (by rw [hmore]; rfl)

namespace Alike

variable {at? : Place → Prop} {d d' : Disk} {path : Path}

theorem origin (h : Alike at? d d') (path : Path) : d'.origin path = d.origin path := by
  rw [Disk.origin, Disk.origin, h.cwd]

section

variable (h : Alike at? d d') (hway : ∀ p, d.OnWay path p → at? p)

include h hway

theorem entry? {front rest : List String} (hsegments : path.segments = front ++ rest) :
    Standpoint.entry? (front.foldl Standpoint.enter (d.origin path)) d'.tree =
      Standpoint.entry? (front.foldl Standpoint.enter (d.origin path)) d.tree := by
  rw [Standpoint.entry?, Standpoint.entry?, h.get? _ (hway _ (d.onWay_of_segments hsegments))]

theorem walk {front rest : List String} (hsegments : path.segments = front ++ rest) :
    Disk.walk d'.tree (d'.origin path) front = Disk.walk d.tree (d.origin path) front := by
  rw [h.origin]
  refine walk_congr fun first more hmore => h.get? _ (hway _ ?_)
  have hfirst : path.segments = first ++ (more ++ rest) := by
    rw [hsegments, hmore, List.append_assoc]
  exact d.onWay_of_segments hfirst

theorem entry : d'.entry path = d.entry path := by
  have hall : path.segments = path.segments ++ [] := (List.append_nil _).symm
  have hresolve : d'.resolve path = d.resolve path := by
    rw [resolve, resolve, h.walk hway hall]
  rw [Disk.entry, Disk.entry, hresolve]
  cases hs : d.resolve path with
  | error e => rfl
  | ok s =>
    obtain ⟨rfl, -, -⟩ := resolve_eq_ok hs
    dsimp only
    rw [Disk.spot, h.entry? hway hall]

theorem isDirectory : d'.isDirectory path = d.isDirectory path := by
  rw [Disk.isDirectory, Disk.isDirectory, h.entry hway]

theorem target : d'.target path = d.target path := by
  rw [Disk.target, Disk.target]
  split
  · rfl
  · dsimp only
    split
    · rfl
    · next last front hdrop =>
      obtain ⟨-, blanks, hblanks, -⟩ := exists_blanks hdrop
      have hsegments : path.segments = front.reverse ++ last :: blanks.reverse := by
        simpa using congrArg List.reverse hblanks
      rw [h.walk hway hsegments]
      cases hwalk : Disk.walk d.tree (d.origin path) front.reverse with
      | error e => rfl
      | ok parent =>
        obtain ⟨rfl, -⟩ := walk_eq_ok hwalk
        dsimp only
        rw [h.entry? hway hsegments]

theorem lookUp {directory : Place} {name : String} {slash : Bool}
    (htarget : d.target path = .ok (.child directory name slash)) :
    d'.lookUp directory name = d.lookUp directory name := by
  have hget := h.get? _ (hway _ (d.onWay_spot path))
  rw [(spot_of_target htarget).1] at hget
  rw [Disk.lookUp, Disk.lookUp, hget]

/-- A directory is made in both disks, or in none. -/
theorem makeDirectory_cases :
    (∃ e, d.makeDirectory path = .error e ∧ d'.makeDirectory path = .error e) ∨
      ∃ directory name, d.makeDirectory path = .ok (d.put directory name .directory) ∧
        d'.makeDirectory path = .ok (d'.put directory name .directory) := by
  unfold makeDirectory
  rw [h.target hway]
  cases htarget : d.target path with
  | error e => exact .inl ⟨e, rfl, rfl⟩
  | ok target =>
    cases target with
    | child directory name slash =>
      dsimp only
      rw [h.lookUp hway htarget]
      cases d.lookUp directory name with
      | error e => exact .inl ⟨e, rfl, rfl⟩
      | ok found =>
        cases found with
        | none => exact .inr ⟨directory, name, rfl, rfl⟩
        | some _ => exact .inl ⟨_, rfl, rfl⟩
    | _ => exact .inl ⟨_, rfl, rfl⟩

/-- A file is written in both disks, or in none. -/
theorem write_cases (content : Bytes) :
    (∃ e, d.write path content = .error e ∧ d'.write path content = .error e) ∨
      ∃ d₁ d₁', d.write path content = .ok d₁ ∧ d'.write path content = .ok d₁' := by
  unfold write
  rw [h.target hway]
  cases htarget : d.target path with
  | error e => exact .inl ⟨e, rfl, rfl⟩
  | ok target =>
    cases target with
    | child directory name slash =>
      cases slash with
      | true => exact .inl ⟨_, rfl, rfl⟩
      | false =>
        dsimp only
        rw [h.lookUp hway htarget]
        cases d.lookUp directory name with
        | error e => exact .inl ⟨e, rfl, rfl⟩
        | ok found =>
          rcases found with _ | _ | content
          · exact .inr ⟨_, _, rfl, rfl⟩
          · exact .inl ⟨_, rfl, rfl⟩
          · exact .inr ⟨_, _, rfl, rfl⟩
    | _ => exact .inl ⟨_, rfl, rfl⟩

end

theorem put (h : Alike at? d d') (directory : Place) (name : String) (e : Entry) :
    Alike at? (d.put directory name e) (d'.put directory name e) := by
  refine ⟨h.cwd, fun p hp => ?_⟩
  rw [Disk.put, Disk.put, FileTree.get?_put _ (by simp), FileTree.get?_put _ (by simp), h.get? p hp]

end Alike

/-! ## Making directories -/

theorem makeDirectory_eq_ok (h : d.makeDirectory path = .ok d') :
    ∃ directory name slash, d.target path = .ok (.child directory name slash) ∧
      isTooLong name = false ∧ d' = d.put directory name .directory := by
  unfold makeDirectory at h
  split at h
  · simp at h
  · next directory name slash htarget =>
    refine ⟨directory, name, slash, htarget, ?_⟩
    cases hlong : isTooLong name with
    | true => simp [lookUp, hlong] at h
    | false =>
      split at h
      · simp at h
      · simp at h
      · exact ⟨rfl, (Except.ok.inj h).symm⟩
  · simp at h

theorem steps_of_target {directory : Place} {name : String} {slash : Bool}
    (h : d.target path = .ok (.child directory name slash)) :
    ∃ front, path.steps = front ++ [name] ∧
      walk d.tree (d.origin path) front = .ok { place := directory } := by
  obtain ⟨-, -, hidle, -, front, blanks, hsegments, hblanks, -, hwalk⟩ := target_eq_child h
  have hrest : blanks.filter (!Path.isIdle ·) = [] := by
    refine List.filter_eq_nil_iff.2 fun b hb => ?_
    rw [hblanks b hb]
    decide
  refine ⟨front.filter (!Path.isIdle ·), ?_, walk_filter hwalk⟩
  rw [Path.steps, hsegments, List.filter_append, List.filter_cons_of_pos (by simp [hidle]), hrest]

theorem get?_makeDirectory (h : d.makeDirectory path = .ok d') (p : Place) :
    d'.tree.get? p = if p = (d.spot path).place then some .directory else d.tree.get? p := by
  obtain ⟨directory, name, slash, htarget, -, rfl⟩ := makeDirectory_eq_ok h
  rw [(spot_of_target htarget).1]
  exact FileTree.get?_put d.tree (by simp) _ p

/-- Directories are made where the paths lead and nowhere else. -/
theorem get?_makeNested (h : ∀ path ∈ paths, path.text = "" ∨ p ≠ (d.spot path).place) :
    (d.makeNested paths).1.tree.get? p = d.tree.get? p := by
  induction paths with
  | nil => rfl
  | cons path around ih =>
    have haround := ih fun q hq => h q (List.mem_cons_of_mem _ hq)
    unfold makeNested
    split
    · rfl
    · next hempty =>
      have hne : p ≠ (d.spot path).place :=
        (h path List.mem_cons_self).resolve_left fun htext => hempty (by simp [htext])
      split
      · next d' hmake => rw [get?_makeDirectory hmake, if_neg hne]
      · split
        · next d' e hnested =>
          rw [hnested] at haround
          exact haround
        · next d' hnested =>
          have hadds := adds_makeNested d around
          rw [hnested] at haround hadds
          split
          · next d'' hmake =>
            rw [get?_makeDirectory hmake, hadds.spot, if_neg hne]
            exact haround
          · exact haround
      · rfl

/-- On disks that are alike on the ways of the paths, the same directories are made. -/
theorem Alike.makeNested {at? : Place → Prop}
    (hway : ∀ path ∈ paths, path.text = "" ∨ ∀ p, d.OnWay path p → at? p) (h : Alike at? d d') :
    (d'.makeNested paths).2 = (d.makeNested paths).2 ∧
      Alike at? (d.makeNested paths).1 (d'.makeNested paths).1 := by
  induction paths with
  | nil => exact ⟨rfl, h⟩
  | cons path around ih =>
    obtain ⟨hstatus, hafter⟩ := ih fun q hq => hway q (List.mem_cons_of_mem _ hq)
    unfold Disk.makeNested
    split
    · exact ⟨rfl, h⟩
    · next hempty =>
      have hpath : ∀ p, d.OnWay path p → at? p :=
        (hway path List.mem_cons_self).resolve_left fun htext => hempty (by simp [htext])
      rcases h.makeDirectory_cases hpath with ⟨e, he, he'⟩ | ⟨directory, name, hd, hd'⟩
      · rw [he, he']
        cases e with
        | notFound =>
          dsimp only
          have hcwd := (adds_makeNested d around).cwd
          rcases hnested : d.makeNested around with ⟨d₁, _ | e₁⟩
          · rcases hnested' : d'.makeNested around with ⟨d₁', _ | e₁'⟩
            · rw [hnested] at hafter hcwd
              rw [hnested'] at hafter
              dsimp only at hafter hcwd ⊢
              -- The directories around are there now, and the first is tried again.
              have hpath' : ∀ p, d₁.OnWay path p → at? p := by
                rwa [onWay_of_cwd hcwd]
              rcases hafter.makeDirectory_cases hpath' with ⟨e, he, he'⟩ | ⟨directory, name, hd, hd'⟩
              · rw [he, he', hafter.isDirectory hpath']
                exact ⟨rfl, hafter⟩
              · rw [hd, hd']
                exact ⟨rfl, hafter.put directory name _⟩
            · simp [hnested, hnested'] at hstatus
          · rcases hnested' : d'.makeNested around with ⟨d₁', _ | e₁'⟩
            · simp [hnested, hnested'] at hstatus
            · rw [hnested, hnested'] at hstatus hafter
              exact ⟨hstatus, hafter⟩
        | _ =>
          dsimp only
          rw [h.isDirectory hpath]
          exact ⟨rfl, h⟩
      · rw [hd, hd']
        exact ⟨rfl, h.put directory name _⟩

theorem isDirectory_makeDirectory (h : d.makeDirectory path = .ok d') :
    d'.isDirectory path = true := by
  have hadds := adds_makeDirectory h
  have hget := get?_makeDirectory h (d.spot path).place
  obtain ⟨directory, name, slash, htarget, hshort, -⟩ := makeDirectory_eq_ok h
  obtain ⟨hrefusal, hdirectory, hidle, hup, -⟩ := target_eq_child htarget
  obtain ⟨front, hsteps, hwalk⟩ := steps_of_target htarget
  have hfront := walk_mono (fun p => hadds.writes.directory) hwalk
  have hlast : walk d'.tree { place := directory } [name] =
      .ok { place := directory ++ [name] } := by
    simp [walk, step, Standpoint.entry?, hadds.writes.directory hdirectory, hidle, hup, hshort]
  rw [if_pos rfl, (spot_of_target htarget).1] at hget
  refine isDirectory_iff.2 (entry_of_stands ⟨?_, ?_⟩ hrefusal)
  · rw [hsteps, origin, hadds.cwd, ← origin, walk_append, hfront, hadds.spot,
      (spot_of_target htarget).1]
    exact hlast
  · rw [hadds.spot, (spot_of_target htarget).1]
    exact hget

theorem exists_target (hlost : d.cwd.lost = 0) {e : Entry} (h : d.entry path = .ok e) :
    ∃ target, d.target path = .ok target := by
  obtain ⟨hrefusal, hwalk⟩ := walk_of_entry h
  unfold target
  rw [hrefusal]
  dsimp only
  split
  · exact ⟨_, rfl⟩
  · next last front hdrop =>
    obtain ⟨-, blanks, hblanks, -⟩ := exists_blanks hdrop
    have hsegments : path.segments = front.reverse ++ last :: blanks.reverse := by
      simpa using congrArg List.reverse hblanks
    rw [hsegments, walk_append] at hwalk
    cases hfront : walk d.tree (d.origin path) front.reverse with
    | error e => simp [hfront] at hwalk
    | ok parent =>
      rw [hfront] at hwalk
      dsimp only at hwalk ⊢
      rw [walk] at hwalk
      cases hstep : step d.tree parent last with
      | error e => simp [hstep] at hwalk
      | ok s =>
        have hparent : parent.lost = 0 := by
          rw [(walk_eq_ok hfront).1]
          refine Proper.lost_foldl _ ?_
          unfold origin
          split
          · rfl
          · exact hlost
        rw [(step_eq_ok hstep).2.1]
        dsimp only
        split
        · exact ⟨_, rfl⟩
        · split
          · exact ⟨_, rfl⟩
          · rw [if_neg (by simp [hparent])]
            exact ⟨_, rfl⟩

theorem makeNested_of_isDirectory (hlost : d.cwd.lost = 0) (h : d.isDirectory path = true)
    (around : List Path) :
    d.makeNested (path :: around) = (d, none) := by
  have hentry := isDirectory_iff.1 h
  have hallows := allows_of_entry hentry
  have htext : path.text.isEmpty = false := by
    cases hempty : path.text.isEmpty with
    | false => rfl
    | true => simp [Allows, refusal?, String.isEmpty_iff.1 hempty] at hallows
  have hmake : d.makeDirectory path = .error .alreadyExists := by
    obtain ⟨target, htarget⟩ := exists_target hlost hentry
    unfold makeDirectory
    rw [htarget]
    cases target with
    | child directory name slash =>
      obtain ⟨-, -, -, -, front, blanks, hsegments, -⟩ := target_eq_child htarget
      have hget := entry_eq_ok hentry
      rw [(spot_of_target htarget).1] at hget
      have hget' : d.tree.get? (directory ++ [name]) = some .directory := hget
      have hshort : isTooLong name = false := hallows.2 name (by simp [hsegments])
      simp [lookUp, hshort, hget']
    | _ => rfl
  simp [makeNested, htext, hmake, h]

/-- On the way to a directory there are directories: a step is made from each, and the last is where
one gets to. -/
theorem walk_front {t : FileTree} {s r : Standpoint} {front rest : List String}
    (h : walk t s (front ++ rest) = .ok r) (hr : r.entry? t = some .directory) :
    ∃ m, walk t s front = .ok m ∧ m.entry? t = some .directory := by
  rw [walk_append] at h
  cases hfront : walk t s front with
  | error e => simp [hfront] at h
  | ok m =>
    rw [hfront] at h
    refine ⟨m, rfl, ?_⟩
    cases rest with
    | nil =>
      obtain rfl : m = r := Except.ok.inj h
      exact hr
    | cons next rest =>
      dsimp only at h
      rw [walk] at h
      cases hstep : step t m next with
      | error e => simp [hstep] at h
      | ok _ => exact (step_eq_ok hstep).2.1

/-- What is around a path that is a directory, or that can be made one, is a directory. -/
theorem isDirectory_of_above (h : dir.Above path) (hdir : dir.text ≠ "")
    (huse : (∃ d', d.makeDirectory path = .ok d') ∨ d.isDirectory path = true) :
    d.isDirectory dir = true := by
  -- One gets to all but the last step, and there is a directory.
  have hparent : refusal? path = none ∧ ∃ s,
      walk d.tree (d.origin path) path.steps.dropLast = .ok s ∧
        s.entry? d.tree = some .directory := by
    rcases huse with ⟨d', hmake⟩ | hthere
    · obtain ⟨directory, name, slash, htarget, -⟩ := makeDirectory_eq_ok hmake
      obtain ⟨front, hsteps, hwalk⟩ := steps_of_target htarget
      obtain ⟨hrefusal, hdirectory, -⟩ := target_eq_child htarget
      rw [hsteps, List.dropLast_concat]
      exact ⟨hrefusal, _, hwalk, hdirectory⟩
    · obtain ⟨hrefusal, hwalk⟩ := walk_of_entry (isDirectory_iff.1 hthere)
      have hsteps := walk_filter hwalk
      rw [← Path.steps, ← List.dropLast_concat_getLast h.ne_nil] at hsteps
      obtain ⟨s, hfront, hstep⟩ := walk_concat_eq_ok hsteps
      exact ⟨hrefusal, s, hfront, (step_eq_ok hstep).2.1⟩
  obtain ⟨hrefusal, s, hwalk, hs⟩ := hparent
  obtain ⟨rest, hrest⟩ := h.steps
  rw [← hrest] at hwalk
  obtain ⟨r, hdirwalk, hr⟩ := walk_front hwalk hs
  have hspot : r = d.spot dir := by
    rw [(walk_eq_ok hdirwalk).1, Path.foldl_steps, spot, origin, origin, h.isAbsolute]
  have hrefusal' : refusal? dir = none := by
    obtain ⟨more, hmore⟩ := h.text
    obtain ⟨text⟩ := dir
    have hlonger : refusal? ⟨text ++ more⟩ = none := by
      rw [← hmore]
      exact hrefusal
    exact refusal?_of_append (by simpa using hdir) hlonger
  rw [hspot, origin, ← h.isAbsolute, ← origin] at hdirwalk
  exact isDirectory_iff.2 (entry_of_stands ⟨hdirwalk, hspot ▸ hr⟩ hrefusal')

/-- How making directories ends: the first is there, those around it cannot be made, or it cannot
itself. -/
theorem makeNested_cases {around : List Path} {failure : Option DiskError}
    (htext : path.text ≠ "") (h : d.makeNested (path :: around) = (d', failure)) :
    (failure = none ∧ d'.isDirectory path = true) ∨
      (∃ e, failure = some e ∧ d.makeNested around = (d', some e)) ∨
      ∃ e, failure = some e ∧ d'.makeDirectory path = .error e ∧ d'.isDirectory path = false ∧
        (e = .notFound → d.makeNested around = (d', none)) := by
  have htried : ∀ {d₁ : Disk} {e : DiskError}, d₁.makeDirectory path = .error e →
      (e = .notFound → d.makeNested around = (d₁, none)) →
      (d₁, if d₁.isDirectory path then none else some e) = (d', failure) →
      (failure = none ∧ d'.isDirectory path = true) ∨
        ∃ e, failure = some e ∧ d'.makeDirectory path = .error e ∧ d'.isDirectory path = false ∧
          (e = .notFound → d.makeNested around = (d', none)) := by
    intro d₁ e hmake haround heq
    obtain ⟨rfl, rfl⟩ := Prod.mk.inj heq
    cases hthere : d₁.isDirectory path with
    | true => exact .inl ⟨rfl, rfl⟩
    | false => exact .inr ⟨e, rfl, hmake, rfl, haround⟩
  unfold makeNested at h
  rw [if_neg (by simpa using htext)] at h
  split at h
  · next d₁ hmake =>
    obtain ⟨rfl, rfl⟩ := Prod.mk.inj h
    exact .inl ⟨rfl, isDirectory_makeDirectory hmake⟩
  · split at h
    · next d₁ e hnested =>
      obtain ⟨rfl, rfl⟩ := Prod.mk.inj h
      exact .inr (.inl ⟨e, rfl, hnested⟩)
    · next d₁ hnested =>
      split at h
      · next d₂ hmake =>
        obtain ⟨rfl, rfl⟩ := Prod.mk.inj h
        exact .inl ⟨rfl, isDirectory_makeDirectory hmake⟩
      · next e hmake => exact (htried hmake (fun _ => hnested) h).imp_right .inr
  · next e hne hmake => exact (htried hmake (fun heq => absurd heq hne) h).imp_right .inr

theorem exists_of_makeNested_failed {e : DiskError} (h : d.makeNested paths = (d', some e)) :
    ∃ path ∈ paths, path.text ≠ "" ∧ d'.isDirectory path = false := by
  induction paths generalizing e with
  | nil => simp [makeNested] at h
  | cons path around ih =>
    by_cases htext : path.text = ""
    · simp [makeNested, htext] at h
    · rcases makeNested_cases htext h with ⟨hnone, -⟩ | ⟨e', -, hnested⟩ | ⟨e', -, -, hfails, -⟩
      · simp at hnone
      · obtain ⟨q, hq, hfails⟩ := ih hnested
        exact ⟨q, List.mem_cons_of_mem _ hq, hfails⟩
      · exact ⟨path, List.mem_cons_self, htext, hfails⟩

theorem isDirectory_of_makeNested {around : List Path} (htext : path.text ≠ "")
    (h : d.makeNested (path :: around) = (d', none)) :
    d'.isDirectory path = true := by
  rcases makeNested_cases htext h with ⟨-, hthere⟩ | ⟨e, hfails, -⟩ | ⟨e, hfails, -⟩
  · exact hthere
  · simp at hfails
  · simp at hfails

theorem makeNested_again (hlost : d.cwd.lost = 0) (h : d.makeNested paths = (d', none)) :
    d'.makeNested paths = (d', none) := by
  cases paths with
  | nil => rfl
  | cons path around =>
    by_cases htext : path.text = ""
    · simp [makeNested, htext]
    · have hcwd := (adds_makeNested d (path :: around)).cwd
      rw [h] at hcwd
      exact makeNested_of_isDirectory (by rwa [hcwd]) (isDirectory_of_makeNested htext h) around

/-- Directories that could not be made still cannot, and nothing more is made. -/
theorem makeNested_failed_again (hlost : d.cwd.lost = 0)
    (hpaths : paths.Pairwise fun q dir => dir.text = "" ∨ dir.Above q) {e : DiskError}
    (h : d.makeNested paths = (d', some e)) : ∃ e', d'.makeNested paths = (d', some e') := by
  induction paths generalizing e with
  | nil => simp [makeNested] at h
  | cons path around ih =>
    obtain ⟨habove, haround⟩ := List.pairwise_cons.1 hpaths
    by_cases htext : path.text = ""
    · simp [makeNested, htext] at h
    · have hempty : path.text.isEmpty = false := by simpa using htext
      rcases makeNested_cases htext h with ⟨hnone, -⟩ | ⟨e', -, hnested⟩ | ⟨e', -, hmake, hfails, hnested⟩
      · simp at hnone
      · -- What is missing around the path keeps it from being made.
        obtain ⟨q, hq, hqtext, hmissing⟩ := exists_of_makeNested_failed hnested
        have hno : ¬((∃ d₁, d'.makeDirectory path = .ok d₁) ∨ d'.isDirectory path = true) := by
          intro huse
          have hthere := isDirectory_of_above ((habove q hq).resolve_left hqtext) hqtext huse
          simp [hmissing] at hthere
        obtain ⟨e₁, hnested'⟩ := ih haround hnested
        have hfails : d'.isDirectory path = false := by simpa using fun h => hno (.inr h)
        cases hmake : d'.makeDirectory path with
        | ok d₁ => exact absurd (.inl ⟨d₁, hmake⟩) hno
        | error e₂ => cases e₂ <;> simp [makeNested, hempty, hmake, hfails, hnested']
      · cases e' with
        | notFound =>
          have hnested' := makeNested_again hlost (hnested rfl)
          simp [makeNested, hempty, hmake, hfails, hnested']
        | _ => simp [makeNested, hempty, hmake, hfails]

/-! ## Making a directory with all those around it -/

theorem onWay_of_mem_parents (d : Disk) {q : Path} (hq : q ∈ path :: path.parents) :
    q.text = "" ∨ ∀ p, d.OnWay q p → d.OnWay path p := by
  rcases List.mem_cons.1 hq with rfl | hq
  · exact .inr fun _ hp => hp
  · have habove := (List.pairwise_cons.1 path.pairwise_parents).1 q hq
    exact habove.imp_right fun h _ hp => d.onWay_of_above h hp

theorem get?_makeDirectories (h : ¬d.OnWay path p) :
    (d.makeDirectories path).1.tree.get? p = d.tree.get? p := by
  refine get?_makeNested fun q hq => ?_
  refine (d.onWay_of_mem_parents hq).imp_right ?_
  rintro hway rfl
  exact h (hway _ (d.onWay_spot q))

/-- On disks that are alike on the way, the same directories are made. -/
theorem Alike.makeDirectories (h : Alike (d.OnWay path) d d') :
    (d'.makeDirectories path).2 = (d.makeDirectories path).2 ∧
      Alike (d.OnWay path) (d.makeDirectories path).1 (d'.makeDirectories path).1 :=
  h.makeNested fun _ hq => d.onWay_of_mem_parents hq

theorem makeDirectories_of_adds {d₁ : Disk} (hlost : d.cwd.lost = 0)
    (h : d.makeDirectories path = (d₁, none)) {places : List Place} (hadds : Adds places d₁ d') :
    d'.makeDirectories path = (d', none) := by
  by_cases htext : path.text = ""
  · simp [Disk.makeDirectories, Disk.makeNested, htext]
  · have hcwd := (adds_makeDirectories d path).cwd
    rw [h] at hcwd
    have hthere := isDirectory_iff.1 (isDirectory_of_makeNested htext h)
    refine makeNested_of_isDirectory (by rwa [hadds.cwd, hcwd]) (isDirectory_iff.2 ?_) _
    exact entry_mono hadds.cwd (fun _ => hadds.writes.directory) hthere
      (Standpoint.entry?_mono hadds.writes.directory (entry_eq_ok hthere))

/-- Making directories once more changes nothing, and it fails if it failed before. -/
theorem makeDirectories_again (hlost : d.cwd.lost = 0) {failure : Option DiskError}
    (h : d.makeDirectories path = (d', failure)) :
    (d'.makeDirectories path).1 = d' ∧
      (d'.makeDirectories path).2.isSome = failure.isSome := by
  cases failure with
  | none =>
    rw [Disk.makeDirectories, makeNested_again hlost h]
    exact ⟨rfl, rfl⟩
  | some e =>
    obtain ⟨e', hagain⟩ := makeNested_failed_again hlost path.pairwise_parents h
    rw [Disk.makeDirectories, hagain]
    exact ⟨rfl, rfl⟩

end Disk

end TypedStyle
