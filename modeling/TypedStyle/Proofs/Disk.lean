import TypedStyle.Proofs.FileTree
import TypedStyle.Proofs.Place

/-!
# What the operations of a disk do

An operation on a path is about what there is where the path leads, `Disk.spot`, and on the way
there. For each operation, what it finds and what it leaves: `Disk.Adds` for those that make
directories and write files, `Disk.Drops` for those that take away.
-/

namespace TypedStyle

namespace Disk

variable {segment name : String} {t : FileTree} {s s' : Standpoint} {segments : List String}
  {p directory : Place} {d d' was : Disk} {path : Path} {e : Entry} {content : Bytes} {slash : Bool}
  {places : List Place}

/-! ## Following paths -/

theorem isTooLong_of_isIdle (h : Path.isIdle segment = true) : isTooLong segment = false := by
  rw [Path.isIdle, Bool.or_eq_true, beq_iff_eq, beq_iff_eq] at h
  rcases h with rfl | rfl <;> decide

theorem step_eq_ok (h : step t s segment = .ok s') :
    s' = s.enter segment ∧ s.entry? t = some .directory ∧ isTooLong segment = false := by
  unfold step at h
  split at h
  · simp at h
  · simp at h
  · next hentry =>
    unfold Standpoint.enter
    split at h
    · next hidle =>
      refine ⟨?_, hentry, isTooLong_of_isIdle hidle⟩
      simpa [hidle] using h.symm
    · next hidle =>
      rw [if_neg hidle]
      split at h
      · next hup =>
        refine ⟨?_, hentry, by rw [hup]; decide⟩
        rw [if_pos hup]
        simpa using h.symm
      · next hup =>
        rw [if_neg hup]
        split at h
        · simp at h
        · split at h
          · simp at h
          · next hlong => exact ⟨by simpa using h.symm, hentry, by simpa using hlong⟩

theorem lost_of_step (h : step t s segment = .ok s') (hidle : ¬Path.isIdle segment = true)
    (hup : segment ≠ "..") :
    s.lost = 0 := by
  unfold step at h
  split at h
  · simp at h
  · simp at h
  · rw [if_neg hidle, if_neg hup] at h
    split at h
    · simp at h
    · next hlost => exact Decidable.not_not.1 hlost

/-- Following pieces leads to where they lead, if it can be done. -/
theorem walk_eq_ok (h : walk t s segments = .ok s') :
    s' = segments.foldl Standpoint.enter s ∧
      ∀ segment ∈ segments, isTooLong segment = false := by
  induction segments generalizing s with
  | nil => exact ⟨by simpa [walk] using h.symm, by simp⟩
  | cons segment rest ih =>
    rw [walk] at h
    split at h
    · simp at h
    · next s₁ hstep =>
      obtain ⟨rfl, -, hshort⟩ := step_eq_ok hstep
      obtain ⟨hs, hrest⟩ := ih h
      refine ⟨hs, fun segment' hmem => ?_⟩
      rcases List.mem_cons.1 hmem with rfl | hmem
      · exact hshort
      · exact hrest segment' hmem

theorem walk_append (t : FileTree) (s : Standpoint) (front back : List String) :
    walk t s (front ++ back) =
      match walk t s front with
      | .error e => .error e
      | .ok s => walk t s back := by
  induction front generalizing s with
  | nil => rfl
  | cons segment rest ih =>
    rw [List.cons_append, walk, walk]
    cases step t s segment with
    | error e => rfl
    | ok s => exact ih s

theorem walk_concat_eq_ok {r : Standpoint} {front : List String} {last : String}
    (h : walk t s (front ++ [last]) = .ok r) :
    ∃ s', walk t s front = .ok s' ∧ step t s' last = .ok r := by
  rw [walk_append] at h
  split at h
  · simp at h
  · next s' hfront =>
    refine ⟨s', hfront, ?_⟩
    rw [walk] at h
    split at h
    · simp at h
    · next s₁ hstep =>
      rw [hstep]
      exact h

theorem walk_mono {t' : FileTree}
    (hdir : ∀ p, t.get? p = some .directory → t'.get? p = some .directory)
    (h : walk t s segments = .ok s') :
    walk t' s segments = .ok s' := by
  induction segments generalizing s with
  | nil => exact h
  | cons segment rest ih =>
    rw [walk] at h ⊢
    split at h
    · simp at h
    · next s₁ hstep =>
      -- A step looks at the directory it starts from and at nothing else.
      obtain ⟨-, hs, -⟩ := step_eq_ok hstep
      have hs' : s.entry? t' = some .directory := Standpoint.entry?_mono (hdir _) hs
      have hstep' : step t' s segment = step t s segment := by
        rw [step, step, hs, hs']
      rw [hstep', hstep]
      exact ih h

/-- In a well-formed tree, names of proper length lead to a directory that is there. -/
theorem walk_names (ht : t.WellFormed) {names : List String}
    (hnames : ∀ name ∈ names, Place.IsName name ∧ isTooLong name = false)
    (h : t.get? (p ++ names) = some .directory) :
    walk t { place := p } names = .ok { place := p ++ names } := by
  induction names generalizing p with
  | nil => simp [walk]
  | cons name rest ih =>
    obtain ⟨hname, hshort⟩ := hnames name List.mem_cons_self
    -- The step can be made because there are directories all the way.
    have hp : t.get? p = some .directory := ht.directory_of_append (List.cons_ne_nil _ _) h
    have hstep : step t { place := p } name = .ok { place := p ++ [name] } := by
      simp [step, Standpoint.entry?, hp, hname.not_idle, hname.ne_up, hshort]
    rw [walk, hstep]
    have hrest := ih (p := p ++ [name]) (fun s hs => hnames s (List.mem_cons_of_mem _ hs))
      (by simpa using h)
    simpa using hrest

/-- Where a path leads, if it can be followed. -/
def spot (d : Disk) (path : Path) : Standpoint :=
  path.segments.foldl Standpoint.enter (d.origin path)

theorem spot_of_cwd (h : d'.cwd = d.cwd) : d'.spot = d.spot := by
  funext path
  rw [spot, spot, origin, origin, h]

theorem spot_of_isAbsolute (d : Disk) (h : path.isAbsolute = true) :
    d.spot path = { place := path.place } := by
  rw [spot, origin, if_pos h]
  exact Standpoint.foldl_enter_place _ _

theorem spot_join (d : Disk) (dir : Path) (h : path.isAbsolute = false) :
    d.spot (dir.join path) = path.segments.foldl Standpoint.enter (d.spot dir) := by
  rw [spot, Path.foldl_segments_join dir h, origin, Path.isAbsolute_join_of_relative dir h]
  rfl

theorem spot_join_name (d : Disk) (dir : Path) (h : Place.IsName name) :
    d.spot (dir.join ⟨name⟩) = { place := (d.spot dir).place ++ [name] } := by
  rw [spot_join d dir (Path.not_isAbsolute_of_no_slash h.no_slash),
    Path.segments_of_no_slash h.no_slash]
  exact Standpoint.enter_name h

theorem resolve_eq_ok (h : d.resolve path = .ok s) :
    s = d.spot path ∧ refusal? path = none ∧
      walk d.tree (d.origin path) path.segments = .ok s := by
  unfold resolve at h
  split at h
  · simp at h
  · next hrefusal => exact ⟨(walk_eq_ok h).1, hrefusal, h⟩

theorem entry_eq_ok (h : d.entry path = .ok e) :
    Standpoint.entry? (d.spot path) d.tree = some e := by
  unfold entry at h
  split at h
  · simp at h
  · next s hs =>
    obtain ⟨rfl, -, -⟩ := resolve_eq_ok hs
    split at h
    · next e' he' =>
      obtain rfl : e' = e := by simpa using h
      exact he'
    · simp at h

theorem walk_of_entry (h : d.entry path = .ok e) :
    refusal? path = none ∧ walk d.tree (d.origin path) path.segments = .ok (d.spot path) := by
  unfold entry at h
  split at h
  · simp at h
  · next s hs =>
    obtain ⟨rfl, hrefusal, hwalk⟩ := resolve_eq_ok hs
    exact ⟨hrefusal, hwalk⟩

theorem entry_mono (hcwd : d'.cwd = d.cwd)
    (hdir : ∀ p, d.tree.get? p = some .directory → d'.tree.get? p = some .directory) {e' : Entry}
    (h : d.entry path = .ok e) (he' : Standpoint.entry? (d.spot path) d'.tree = some e') :
    d'.entry path = .ok e' := by
  obtain ⟨hrefusal, hwalk⟩ := walk_of_entry h
  have hresolve : d'.resolve path = .ok (d.spot path) := by
    rw [resolve, hrefusal, origin, hcwd]
    exact walk_mono hdir hwalk
  simp [entry, hresolve, he']

theorem read_eq_ok_iff : d.read path = .ok content ↔ d.entry path = .ok (.file content) := by
  unfold read
  split <;> simp_all

theorem get?_of_read (h : d.read path = .ok content) :
    (d.spot path).lost = 0 ∧ d.tree.get? (d.spot path).place = some (.file content) :=
  Standpoint.entry?_eq_file (entry_eq_ok (read_eq_ok_iff.1 h))

theorem has_iff : d.has path = true ↔ ∃ e, d.entry path = .ok e := by
  unfold has
  cases d.entry path <;> simp [Except.toBool]

theorem isDirectory_iff : d.isDirectory path = true ↔ d.entry path = .ok .directory := by
  unfold isDirectory
  split <;> simp_all

theorem readText_eq_ok_iff {text : String} :
    d.readText path = .ok text ↔
      ∃ content, d.read path = .ok content ∧ Text.ofUtf8? content = some text := by
  unfold readText
  split
  · simp_all
  · split <;> simp_all

/-- Following pieces after things were taken away is like following them before, but for the
directories that are lost. -/
theorem sinks_of_walk {r : Standpoint} (hsinks : s.Sinks s') (h : walk t s' segments = .ok r) :
    (segments.foldl Standpoint.enter s).Sinks r := by
  induction segments generalizing s s' with
  | nil =>
    obtain rfl : s' = r := by simpa [walk] using h
    exact hsinks
  | cons segment rest ih =>
    rw [walk] at h
    split at h
    · simp at h
    · next s₁ hstep =>
      refine ih ?_ h
      obtain ⟨rfl, -, -⟩ := step_eq_ok hstep
      unfold Standpoint.enter
      split
      · exact hsinks
      · split
        · exact hsinks.up
        · next hidle hup =>
          rw [hsinks.eq_of_lost (lost_of_step hstep hidle hup)]
          exact .refl _

theorem sinks_origin (h : d.cwd.Sinks d'.cwd) (path : Path) :
    (d.origin path).Sinks (d'.origin path) := by
  unfold origin
  split
  · exact .refl _
  · exact h

/-! ## Naming a target -/

/-- Pieces in reverse from which the empty ones in front are dropped. -/
theorem exists_blanks {front : List String} {last : String}
    (h : segments.dropWhile (· == "") = last :: front) :
    last ≠ "" ∧ ∃ blanks, segments = blanks ++ last :: front ∧ (∀ b ∈ blanks, b = "") ∧
      (segments.head? ≠ some "" → blanks = []) := by
  induction segments with
  | nil => simp at h
  | cons segment rest ih =>
    by_cases hsegment : segment = ""
    · subst hsegment
      obtain ⟨hlast, blanks, hrest, hblanks, -⟩ := ih (by simpa using h)
      refine ⟨hlast, "" :: blanks, by simp [hrest], ?_, by simp⟩
      simpa using hblanks
    · obtain ⟨rfl, rfl⟩ : segment = last ∧ rest = front := by
        simpa [List.dropWhile_cons, hsegment] using h
      exact ⟨hsegment, [], by simp⟩

/-- The name that a path ends in, and the directory that the pieces before it lead to. -/
theorem target_eq_child (h : d.target path = .ok (.child directory name slash)) :
    refusal? path = none ∧ d.tree.get? directory = some .directory ∧
      Path.isIdle name = false ∧ name ≠ ".." ∧
      ∃ front blanks, path.segments = front ++ name :: blanks ∧ (∀ b ∈ blanks, b = "") ∧
        (slash = false → blanks = []) ∧
        walk d.tree (d.origin path) front = .ok { place := directory } := by
  unfold target at h
  split at h
  · simp at h
  · next hrefusal =>
    dsimp only at h
    split at h
    · simp at h
    · next last front hdrop =>
      split at h
      · simp at h
      · next parent hwalk =>
        split at h
        · simp at h
        · simp at h
        · next hparent =>
          split at h
          · simp at h
          · split at h
            · simp at h
            · next hdot hup =>
              split at h
              · simp at h
              · next hlost =>
                obtain ⟨place, lost⟩ := parent
                obtain rfl : lost = 0 := Decidable.not_not.1 hlost
                simp only [Except.ok.injEq, Target.child.injEq] at h
                obtain ⟨rfl, rfl, rfl⟩ := h
                -- The pieces were taken from the end, so they stand in reverse here.
                obtain ⟨hname, blanks, hsegments, hblanks, hslash⟩ := exists_blanks hdrop
                refine ⟨hrefusal, hparent, by simp [Path.isIdle, hname, hdot], hup,
                  front.reverse, blanks.reverse, ?_, by simpa using hblanks, ?_, hwalk⟩
                · simpa using congrArg List.reverse hsegments
                · intro hfalse
                  rw [hslash (by simpa using hfalse), List.reverse_nil]

theorem spot_of_target_of_sinks (hwas : was.cwd.Sinks d.cwd)
    (h : d.target path = .ok (.child directory name slash)) :
    was.spot path = { place := directory ++ [name] } := by
  obtain ⟨-, -, hidle, hup, front, blanks, hsegments, hblanks, -, hwalk⟩ := target_eq_child h
  have hfront := (sinks_of_walk (sinks_origin hwas path) hwalk).eq_of_lost rfl
  have hidles : ∀ b ∈ blanks, Path.isIdle b = true := by
    intro b hb
    rw [hblanks b hb]
    rfl
  rw [spot, hsegments, List.foldl_append, hfront, List.foldl_cons,
    Standpoint.foldl_enter_of_idle hidles]
  simp [Standpoint.enter, hidle, hup]

theorem spot_of_target (h : d.target path = .ok (.child directory name slash)) :
    d.spot path = { place := directory ++ [name] } ∧ d.tree.get? directory = some .directory :=
  ⟨spot_of_target_of_sinks (.refl _) h, (target_eq_child h).2.1⟩

/-! ## Writing -/

/-- Nothing in the text of a path keeps a disk from following it. -/
def Allows (path : Path) : Prop :=
  refusal? path = none ∧ ∀ segment ∈ path.segments, isTooLong segment = false

/-- From one disk to another directories are made and files are written, at the `places`. -/
structure Adds (places : List Place) (d d' : Disk) : Prop where
  writes : FileTree.Writes places d.tree d'.tree
  wellFormed : d.tree.WellFormed → d'.tree.WellFormed
  cwd : d'.cwd = d.cwd

theorem Adds.refl (d : Disk) : Adds [] d d :=
  ⟨.refl _, id, rfl⟩

theorem Adds.trans {places' : List Place} {d'' : Disk} (h : Adds places d d')
    (h' : Adds places' d' d'') : Adds (places ++ places') d d'' :=
  ⟨h.writes.trans h'.writes, h'.wellFormed ∘ h.wellFormed, h'.cwd.trans h.cwd⟩

theorem Adds.mono {places' : List Place} (h : Adds places d d') (hsub : places ⊆ places') :
    Adds places' d d' :=
  ⟨h.writes.mono hsub, h.wellFormed, h.cwd⟩

theorem Adds.sinks (h : Adds places d d') (hwas : was.cwd.Sinks d.cwd) : was.cwd.Sinks d'.cwd := by
  rwa [h.cwd]

theorem Adds.spot (h : Adds places d d') : d'.spot = d.spot :=
  spot_of_cwd h.cwd

theorem Adds.entry (h : Adds places d d') (hplace : (d.spot path).place ∉ places)
    (he : d.entry path = .ok e) :
    d'.entry path = .ok e := by
  refine entry_mono h.cwd (fun _ => h.writes.directory) he ?_
  exact Standpoint.entry?_mono (h.writes.get? hplace) (entry_eq_ok he)

theorem write_eq_ok (h : d.write path content = .ok d') :
    ∃ directory name, d.target path = .ok (.child directory name false) ∧
      isTooLong name = false ∧ d.tree.get? (directory ++ [name]) ≠ some .directory ∧
      d' = d.put directory name (.file content) := by
  unfold write at h
  split at h
  · simp at h
  · next directory name htarget =>
    refine ⟨directory, name, htarget, ?_⟩
    unfold lookUp at h
    cases hlong : isTooLong name with
    | true => simp [hlong] at h
    | false =>
      rw [hlong] at h
      split at h
      · simp at h
      · simp at h
      · next found hfile hlook =>
        refine ⟨rfl, ?_, by simpa using h.symm⟩
        intro hdir
        simp_all
  · simp at h

theorem get?_write (h : d.write path content = .ok d') (p : Place) :
    d'.tree.get? p =
      if p = (d.spot path).place then some (.file content) else d.tree.get? p := by
  obtain ⟨directory, name, htarget, -, -, rfl⟩ := write_eq_ok h
  rw [(spot_of_target htarget).1]
  exact FileTree.get?_put d.tree (by simp) _ p

theorem adds_write (h : d.write path content = .ok d') : Adds [(d.spot path).place] d d' := by
  obtain ⟨directory, name, htarget, -, hfile, rfl⟩ := write_eq_ok h
  obtain ⟨hspot, hdirectory⟩ := spot_of_target htarget
  have hne : directory ++ [name] ≠ [] := by simp
  rw [hspot]
  refine ⟨FileTree.writes_put_file hne hfile content, fun ht => ht.put hne ?_ (.inr hfile), rfl⟩
  rwa [List.dropLast_concat]

theorem adds_write_of_sinks (hwas : was.cwd.Sinks d.cwd) (h : d.write path content = .ok d') :
    Adds [(was.spot path).place] d d' := by
  have hadds := adds_write h
  obtain ⟨directory, name, htarget, -⟩ := write_eq_ok h
  rwa [(spot_of_target htarget).1, ← spot_of_target_of_sinks hwas htarget] at hadds

theorem allows_of_write (h : d.write path content = .ok d') : Allows path := by
  obtain ⟨directory, name, htarget, hshort, -, -⟩ := write_eq_ok h
  obtain ⟨hrefusal, -, -, -, front, blanks, hsegments, -, hblanks, hwalk⟩ :=
    target_eq_child htarget
  refine ⟨hrefusal, fun segment hmem => ?_⟩
  rw [hsegments, hblanks rfl, List.mem_append, List.mem_singleton] at hmem
  rcases hmem with hmem | rfl
  · exact (walk_eq_ok hwalk).2 segment hmem
  · exact hshort

theorem read_write (h : d.write path content = .ok d') : d'.read path = .ok content := by
  have hadds := adds_write h
  have hget := get?_write h (d.spot path).place
  obtain ⟨directory, name, htarget, hshort, -, -⟩ := write_eq_ok h
  obtain ⟨hrefusal, hdirectory, hidle, hup, front, blanks, hsegments, -, hblanks, hwalk⟩ :=
    target_eq_child htarget
  -- The path is followed as before up to the directory, and from there by its last name.
  have hfront := walk_mono (fun p => hadds.writes.directory) hwalk
  have hlast : walk d'.tree { place := directory } [name] =
      .ok { place := directory ++ [name] } := by
    simp [walk, step, Standpoint.entry?, hadds.writes.directory hdirectory, hidle, hup, hshort]
  have hresolve : d'.resolve path = .ok { place := directory ++ [name] } := by
    rw [resolve, hrefusal, origin, hadds.cwd, ← origin, hsegments, hblanks rfl, walk_append, hfront]
    exact hlast
  rw [if_pos rfl, (spot_of_target htarget).1] at hget
  rw [read_eq_ok_iff, entry, hresolve]
  simp [Standpoint.entry?, hget]

/-! ## Making directories -/

theorem adds_makeDirectory (h : d.makeDirectory path = .ok d') : Adds [] d d' := by
  unfold makeDirectory at h
  split at h
  · simp at h
  · next directory name slash htarget =>
    obtain ⟨-, hdirectory⟩ := spot_of_target htarget
    have hne : directory ++ [name] ≠ [] := by simp
    split at h
    · simp at h
    · simp at h
    · next hlook =>
      have hnone : d.tree.get? (directory ++ [name]) = none := by
        unfold lookUp at hlook
        split at hlook <;> simp_all
      obtain rfl : d.put directory name .directory = d' := by simpa using h
      refine ⟨FileTree.writes_put_directory hne hnone, fun ht => ht.put hne ?_ (.inl rfl), rfl⟩
      rwa [List.dropLast_concat]
  · simp at h

theorem adds_makeNested (d : Disk) (paths : List Path) : Adds [] d (d.makeNested paths).1 := by
  induction paths with
  | nil => exact .refl d
  | cons path around ih =>
    unfold makeNested
    split
    · exact .refl d
    · split
      · next d' hmake => exact adds_makeDirectory hmake
      · -- There is nothing around it yet: what is around it is made first.
        split
        · next d' e hnested =>
          rw [hnested] at ih
          exact ih
        · next d' hnested =>
          rw [hnested] at ih
          split
          · next d'' hmake => exact ih.trans (adds_makeDirectory hmake)
          · exact ih
      · exact .refl d

theorem adds_makeDirectories (d : Disk) (path : Path) : Adds [] d (d.makeDirectories path).1 :=
  adds_makeNested d _

/-! ## Removing -/

/-- From one disk to another things are only taken away. -/
structure Drops (d d' : Disk) : Prop where
  removes : d.tree.Removes d'.tree
  wellFormed : d.tree.WellFormed → d'.tree.WellFormed
  cwd : d.cwd.Sinks d'.cwd

theorem Drops.refl (d : Disk) : Drops d d :=
  ⟨.refl _, id, .refl _⟩

theorem Drops.trans {d'' : Disk} (h : Drops d d') (h' : Drops d' d'') : Drops d d'' :=
  ⟨h.removes.trans h'.removes, h'.wellFormed ∘ h.wellFormed, h.cwd.trans h'.cwd⟩

theorem drops_clear (d : Disk) (s : Standpoint) : Drops d (d.clear s) := by
  unfold clear
  split
  · exact ⟨d.tree.removes_clear s.place, fun ht => ht.clear s.place,
      d.cwd.sinks_afterClear s.place⟩
  · exact .refl d

theorem drops_removeEmptied (d : Disk) (path : Path) : Drops d (d.removeEmptied path).1 := by
  unfold removeEmptied
  split
  · exact .refl d
  · exact .refl d
  · next directory name slash _ =>
    have hne : directory ++ [name] ≠ [] := by simp
    exact ⟨d.tree.removes_remove hne, fun ht => ht.remove hne, d.cwd.sinks_afterRemove _⟩
  all_goals exact .refl d

theorem drops_removeDirectory (d : Disk) (path : Path) : Drops d (d.removeDirectory path).1 := by
  unfold removeDirectory
  split
  · exact .refl d
  · split
    · exact .refl d
    · exact .refl d
    · exact (drops_clear d _).trans (drops_removeEmptied _ path)

theorem get?_removeDirectory (hlost : (d.spot path).lost = 0)
    (h : d.removeDirectory path = (d', none)) {q : Place} (hq : q ≠ []) :
    d'.tree.get? ((d.spot path).place ++ q) = none := by
  unfold removeDirectory at h
  split at h
  · simp at h
  · next s hs =>
    obtain ⟨rfl, -, -⟩ := resolve_eq_ok hs
    split at h
    · simp at h
    · simp at h
    · -- First all that is in the directory is taken away, and afterwards nothing comes back.
      have hdrops := drops_removeEmptied (d.clear (d.spot path)) path
      rw [h] at hdrops
      have hcleared : (d.clear (d.spot path)).tree.get? ((d.spot path).place ++ q) = none := by
        simp [clear, hlost, FileTree.get?_clear, hq]
      rcases hdrops.removes ((d.spot path).place ++ q) with heq | hnone
      · rw [heq, hcleared]
      · exact hnone

theorem spot_of_sinks (h : d.cwd.Sinks d'.cwd) (he : d'.entry path = .ok e)
    (hlost : (d'.spot path).lost = 0) :
    d.spot path = d'.spot path :=
  (sinks_of_walk (sinks_origin h path) (walk_of_entry he).2).eq_of_lost hlost

/-! ## By the paths of places -/

/-- A disk that follows the text of a path also follows what is in it. -/
theorem refusal?_of_subset {path' : Path} (hne : path.text.isEmpty = false)
    (hchars : path.text.toList ⊆ path'.text.toList)
    (hsize : path.text.utf8ByteSize ≤ path'.text.utf8ByteSize) (h : refusal? path' = none) :
    refusal? path = none := by
  unfold refusal? at h ⊢
  split at h
  · simp at h
  · next hnul =>
    split at h
    · simp at h
    · split at h
      · simp at h
      · rw [if_neg, if_neg, if_neg]
        · omega
        · simp [hne]
        · intro hmem
          exact hnul (by simpa using hchars (by simpa using hmem))

theorem refusal?_of_append {text more : String} (hne : text.isEmpty = false)
    (h : refusal? ⟨text ++ more⟩ = none) : refusal? ⟨text⟩ = none := by
  refine refusal?_of_subset hne ?_ ?_ h
  · simp
  · simp

/-- If nothing keeps a disk from following a path, nothing keeps it from going to the directory. -/
theorem Allows.of_append (hnames : ∀ n ∈ p ++ [name], Place.IsName n)
    (h : Allows (Place.path (p ++ [name]))) : Allows (Place.path p) := by
  have hp : ∀ n ∈ p, Place.IsName n := fun n hn => hnames n (List.mem_append_left _ hn)
  constructor
  · -- The text goes on from that of the directory, so that it is not shorter.
    have hjoin := Place.join_path hp (hnames name (by simp))
    have hrelative := Path.not_isAbsolute_of_no_slash (hnames name (by simp)).no_slash
    obtain ⟨slash, hslash⟩ := (Place.path p).exists_front_eq
    rw [Path.join_eq_front _ hrelative, hslash, String.append_assoc] at hjoin
    exact refusal?_of_append (Path.isEmpty_text (Place.isAbsolute_path p)) (hjoin ▸ h.1)
  · intro segment hmem
    by_cases hne : p = []
    · rw [hne] at hmem
      have hidle : segment ∈ ["", ""] := hmem
      simp only [List.mem_cons, List.not_mem_nil, or_false, or_self] at hidle
      rw [hidle]
      decide
    · apply h.2
      rw [Place.segments_path hne hp] at hmem
      rw [Place.segments_path (by simp) hnames]
      rcases List.mem_cons.1 hmem with rfl | hmem
      · exact List.mem_cons_self
      · exact List.mem_cons_of_mem _ (List.mem_append_left _ hmem)

theorem Allows.isTooLong (hnames : ∀ n ∈ p, Place.IsName n) (h : Allows (Place.path p)) :
    ∀ n ∈ p, Disk.isTooLong n = false := by
  intro n hn
  apply h.2
  rw [Place.segments_path (List.ne_nil_of_mem hn) hnames]
  exact List.mem_cons_of_mem _ hn

theorem walk_path (ht : t.WellFormed) (hnames : ∀ n ∈ p, Place.IsName n)
    (hallows : Allows (Place.path p)) (hdir : t.get? p = some .directory) :
    walk t { place := [] } ("" :: p) = .ok { place := p } := by
  have hroot : step t { place := [] } "" = .ok { place := [] } := rfl
  rw [walk, hroot]
  exact walk_names ht (fun n hn => ⟨hnames n hn, hallows.isTooLong hnames n hn⟩) hdir

theorem allows_of_entry (h : d.entry path = .ok e) : Allows path := by
  obtain ⟨hrefusal, hwalk⟩ := walk_of_entry h
  exact ⟨hrefusal, (walk_eq_ok hwalk).2⟩

section

variable {d : Disk} (ht : d.tree.WellFormed) {p : Place} {name : String}
  (hnames : ∀ n ∈ p ++ [name], Place.IsName n) (hallows : Allows (Place.path (p ++ [name])))

include ht hnames hallows

theorem target_path (hdir : d.tree.get? p = some .directory) :
    d.target (Place.path (p ++ [name])) = .ok (.child p name false) := by
  have hname := hnames name (by simp)
  have hne : name ≠ "" ∧ name ≠ "." := by simpa [Path.isIdle] using hname.not_idle
  have hwalk := walk_path ht (fun n hn => hnames n (List.mem_append_left _ hn))
    (hallows.of_append hnames) hdir
  unfold target
  rw [hallows.1, Place.segments_path (by simp) hnames]
  simp [origin, Place.isAbsolute_path, Standpoint.root, hwalk, Standpoint.entry?, hdir, hne,
    hname.ne_up]

/-- In a well-formed tree the path of a place leads to what is there. -/
theorem entry_path {e : Entry} (he : d.tree.get? (p ++ [name]) = some e) :
    d.entry (Place.path (p ++ [name])) = .ok e := by
  have hname := hnames name (by simp)
  have hparent : d.tree.get? p = some .directory := by
    simpa using ht _ _ he
  have hwalk := walk_path ht (fun n hn => hnames n (List.mem_append_left _ hn))
    (hallows.of_append hnames) hparent
  have hlast : walk d.tree { place := p } [name] = .ok { place := p ++ [name] } := by
    simp [walk, step, Standpoint.entry?, hparent, hname.not_idle, hname.ne_up,
      hallows.isTooLong hnames name (by simp)]
  have hresolve : d.resolve (Place.path (p ++ [name])) = .ok { place := p ++ [name] } := by
    rw [resolve, hallows.1, Place.segments_path (by simp) hnames, ← List.cons_append]
    simp only [origin, Place.isAbsolute_path, if_true, Standpoint.root, walk_append, hwalk, hlast]
  rw [entry, hresolve]
  simp [Standpoint.entry?, he]

theorem makeDirectories_path (hdir : d.tree.get? (p ++ [name]) = some .directory) :
    d.makeDirectories (Place.path (p ++ [name])) = (d, none) := by
  have hparent : d.tree.get? p = some .directory := by
    simpa using ht _ _ hdir
  have hmake : d.makeDirectory (Place.path (p ++ [name])) = .error .alreadyExists := by
    simp [makeDirectory, target_path ht hnames hallows hparent, lookUp,
      hallows.isTooLong hnames name (by simp), hdir]
  have hthere : d.isDirectory (Place.path (p ++ [name])) = true :=
    isDirectory_iff.2 (entry_path ht hnames hallows hdir)
  have htext := Path.isEmpty_text (Place.isAbsolute_path (p ++ [name]))
  simp [makeDirectories, makeNested, hmake, hthere, htext]

theorem write_path {content : Bytes} (hfile : d.tree.get? (p ++ [name]) = some (.file content))
    (new : Bytes) : ∃ d', d.write (Place.path (p ++ [name])) new = .ok d' := by
  have hparent : d.tree.get? p = some .directory := by
    simpa using ht _ _ hfile
  refine ⟨d.put p name (.file new), ?_⟩
  simp [write, target_path ht hnames hallows hparent, lookUp,
    hallows.isTooLong hnames name (by simp), hfile]

end

end Disk

end TypedStyle
