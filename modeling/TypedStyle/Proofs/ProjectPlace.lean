import TypedStyle.Proofs.Build
import TypedStyle.Proofs.PathParts

/-!
# Where a project is

A project is loaded from a manifest, or from no manifest in the working directory. Its directory is
always there (`Project.stands_base`), and if the manifest has the usual name, it is the one that is
found in this directory (`Project.load_usual`).
-/

namespace TypedStyle

/-! ## Following steps -/

namespace Disk

variable {s : Standpoint} {d : Disk} {path dir : Path} {name : String}

/-- Pieces that lead nowhere need not be followed. -/
theorem walk_filter {t : FileTree} {segments : List String} {r : Standpoint}
    (h : walk t s segments = .ok r) : walk t s (segments.filter (!Path.isIdle ·)) = .ok r := by
  induction segments generalizing s with
  | nil => exact h
  | cons segment rest ih =>
    rw [walk] at h
    split at h
    · simp at h
    · next s' hstep =>
      by_cases hidle : Path.isIdle segment = true
      · obtain ⟨rfl, -, -⟩ := step_eq_ok hstep
        rw [Standpoint.enter_of_isIdle hidle] at h
        rw [List.filter_cons_of_neg (by simp [hidle])]
        exact ih h
      · rw [List.filter_cons_of_pos (by simpa using hidle), walk, hstep]
        exact ih h

/-- Pieces that lead nowhere can be followed on the way to a directory. -/
theorem walk_of_filter {t : FileTree} {segments : List String} {r : Standpoint}
    (h : walk t s (segments.filter (!Path.isIdle ·)) = .ok r) (hr : r.entry? t = some .directory) :
    walk t s segments = .ok r := by
  induction segments generalizing s with
  | nil => exact h
  | cons segment rest ih =>
    by_cases hidle : Path.isIdle segment = true
    · rw [List.filter_cons_of_neg (by simp [hidle])] at h
      -- One stands in a directory: the last one, or one from which a step was made.
      have hs : s.entry? t = some .directory := by
        cases hsteps : rest.filter (!Path.isIdle ·) with
        | nil =>
          obtain rfl : s = r := by simpa [hsteps, walk] using h
          exact hr
        | cons step more =>
          rw [hsteps, walk] at h
          split at h
          · simp at h
          · next hstep => exact (step_eq_ok hstep).2.1
      have hstep : step t s segment = .ok s := by simp [step, hs, hidle]
      rw [walk, hstep]
      exact ih h
    · rw [List.filter_cons_of_pos (by simpa using hidle), walk] at h
      rw [walk]
      split at h
      · simp at h
      · exact ih h

/-- A directory is where a path leads, and it can be reached. -/
def Stands (d : Disk) (path : Path) : Prop :=
  walk d.tree (d.origin path) path.steps = .ok (d.spot path) ∧
    Standpoint.entry? (d.spot path) d.tree = some .directory

theorem stands_of_entry (h : d.entry path = .ok .directory) : d.Stands path :=
  ⟨walk_filter (walk_of_entry h).2, entry_eq_ok h⟩

theorem entry_of_stands (h : d.Stands path) (hrefusal : refusal? path = none) :
    d.entry path = .ok .directory := by
  have hresolve : d.resolve path = .ok (d.spot path) := by
    rw [resolve, hrefusal]
    exact walk_of_filter h.1 h.2
  simp [entry, hresolve, h.2]

theorem spot_of_parent (d : Disk) (hname : Place.IsName name)
    (hsteps : path.steps = dir.steps ++ [name]) (habsolute : dir.isAbsolute = path.isAbsolute) :
    d.spot path = d.spot (dir.join ⟨name⟩) := by
  rw [d.spot_join_name dir hname, spot, spot, ← Path.foldl_steps, ← Path.foldl_steps, hsteps,
    List.foldl_append, origin, origin, habsolute]
  exact Standpoint.enter_name hname

/-- A path seen from a directory that can be reached is followed from there. -/
theorem walk_join_of_stands (h : d.Stands dir) {p : Path} (hp : p.isAbsolute = false) :
    walk d.tree (d.origin (dir.join p)) (dir.join p).segments =
      walk d.tree (d.spot dir) p.segments := by
  obtain ⟨front, hjoin, hfront⟩ := Path.segments_join dir hp
  -- An empty piece at the end of the directory may be missing, but it leads nowhere.
  have hsteps : front.filter (!Path.isIdle ·) = dir.steps := by
    rcases hfront with heq | heq
    · rw [Path.steps, heq]
    · rw [Path.steps, heq, List.filter_append, List.filter_cons_of_neg (by decide), List.filter_nil,
        List.append_nil]
  have hwalk : walk d.tree (d.origin dir) front = .ok (d.spot dir) :=
    walk_of_filter (hsteps ▸ h.1) h.2
  rw [hjoin, origin, Path.isAbsolute_join_of_relative dir hp, ← origin, walk_append, hwalk]

theorem resolve_join_of_stands (h : d.Stands dir) (hname : Place.IsName name)
    (hrefusal : refusal? (dir.join ⟨name⟩) = none) (hstep : step d.tree (d.spot dir) name = .ok s) :
    d.resolve (dir.join ⟨name⟩) = .ok s := by
  have hrelative := Path.not_isAbsolute_of_no_slash hname.no_slash
  rw [resolve, hrefusal]
  dsimp only
  rw [walk_join_of_stands h hrelative, Path.segments_of_no_slash hname.no_slash, walk, hstep]
  rfl

/-- The path from the directory of a file is not longer, so that a disk follows it too. -/
theorem refusal?_join_of_text {pieces : List String} (hname : Place.IsName name)
    (htext : path.text = dir.front ++ "/".intercalate pieces) (hmem : name ∈ pieces)
    (h : refusal? path = none) : refusal? (dir.join ⟨name⟩) = none := by
  have hne : name.isEmpty = false := by
    cases hempty : name.isEmpty with
    | false => rfl
    | true => simpa [String.isEmpty_iff.1 hempty, Path.isIdle] using hname.not_idle
  obtain ⟨before, after, heq⟩ := Path.exists_intercalate_eq hmem
  rw [heq] at htext
  rw [Path.join_eq_front _ (Path.not_isAbsolute_of_no_slash hname.no_slash)]
  refine refusal?_of_subset (by simpa using fun _ => hne) ?_ ?_ h
  · intro c hc
    rw [htext]
    simp only [String.toList_append, List.mem_append] at hc ⊢
    exact hc.imp_right fun hc => .inl (.inr hc)
  · simp only [htext, String.utf8ByteSize_append]
    omega

theorem exists_parent_of_read {content : Bytes} (hread : d.read path = .ok content)
    (hname : path.fileName? = some name) :
    ∃ dir, path.parent? = some dir ∧ d.Stands dir ∧
      d.read (dir.join ⟨name⟩) = .ok content := by
  obtain ⟨dir, hparent, hsteps, habsolute, pieces, htext, hpieces⟩ := Path.exists_parent? hname
  have hisName := Path.isName_of_fileName? hname
  obtain ⟨hrefusal, hwalk⟩ := walk_of_entry (read_eq_ok_iff.1 hread)
  have hwalk := walk_filter hwalk
  rw [← Path.steps, hsteps, origin, ← habsolute, ← origin] at hwalk
  obtain ⟨s, hdir, hstep⟩ := walk_concat_eq_ok hwalk
  obtain rfl : s = d.spot dir := by
    rw [(walk_eq_ok hdir).1, Path.foldl_steps]
    rfl
  have hstands : d.Stands dir := ⟨hdir, (step_eq_ok hstep).2.1⟩
  have hrefusal' := refusal?_join_of_text hisName htext hpieces hrefusal
  refine ⟨dir, hparent, hstands, ?_⟩
  rw [read_eq_ok_iff, entry, resolve_join_of_stands hstands hisName hrefusal' hstep]
  simp [entry_eq_ok (read_eq_ok_iff.1 hread)]

theorem exists_spot_eq (d : Disk) (h : path.fileName? = some name) :
    ∃ p : Place, d.spot path = { place := p ++ [name] } := by
  obtain ⟨dir, -, hsteps, habsolute, -⟩ := Path.exists_parent? h
  have hname := Path.isName_of_fileName? h
  rw [d.spot_of_parent hname hsteps habsolute, d.spot_join_name dir hname]
  exact ⟨_, rfl⟩

/-- A disk on which a program runs: all there is stands in a directory, and so does the program. -/
structure Proper (d : Disk) : Prop where
  wellFormed : d.tree.WellFormed
  lost : d.cwd.lost = 0
  directory : d.tree.get? d.cwd.place = some .directory
  isName : ∀ name ∈ d.cwd.place, Place.IsName name ∧ isTooLong name = false

namespace Proper

variable {d : Disk}

theorem origin (h : d.Proper) (path : Path) :
    (d.origin path).lost = 0 ∧ d.tree.get? (d.origin path).place = some .directory := by
  unfold Disk.origin
  split
  · exact ⟨rfl, rfl⟩
  · exact ⟨h.lost, h.directory⟩

theorem lost_up {s : Standpoint} (hs : s.lost = 0) : s.up.lost = 0 := by
  rw [Standpoint.up, if_pos hs]
  exact hs

theorem lost_foldl (segments : List String) {s : Standpoint} (hs : s.lost = 0) :
    (segments.foldl Standpoint.enter s).lost = 0 := by
  induction segments generalizing s with
  | nil => exact hs
  | cons segment rest ih =>
    refine ih ?_
    unfold Standpoint.enter
    split
    · exact hs
    · split
      · exact lost_up hs
      · rfl

theorem lost_spot (h : d.Proper) (path : Path) : (d.spot path).lost = 0 :=
  lost_foldl _ (h.origin path).1

theorem stands_join (h : d.Proper) {dir : Path} (hdir : d.Stands dir) {name : String}
    (hname : Place.IsName name) (hshort : isTooLong name = false)
    (hget : d.tree.get? ((d.spot dir).place ++ [name]) = some .directory) :
    d.Stands (dir.join ⟨name⟩) := by
  have hrelative := Path.not_isAbsolute_of_no_slash hname.no_slash
  have hstep : step d.tree (d.spot dir) name = .ok { place := (d.spot dir).place ++ [name] } := by
    simp [step, hdir.2, hname.not_idle, hname.ne_up, h.lost_spot dir, hshort]
  rw [Stands, d.spot_join_name dir hname, Path.steps_join dir hrelative, Path.steps_name hname,
    walk_append, Disk.origin, Path.isAbsolute_join_of_relative dir hrelative, ← Disk.origin, hdir.1]
  refine ⟨?_, by simpa [Standpoint.entry?] using hget⟩
  dsimp only
  rw [walk, hstep]
  rfl

/-- The working directory can be reached by its path. -/
theorem stands_cwdPath (h : d.Proper) : d.Stands d.cwdPath := by
  have hpath : d.cwdPath = Place.path d.cwd.place := rfl
  have hnames : ∀ name ∈ d.cwd.place, Place.IsName name := fun name hname => (h.isName name hname).1
  have hspot : d.spot d.cwdPath = { place := d.cwd.place } := by
    rw [hpath, d.spot_of_isAbsolute (Place.isAbsolute_path _), Place.place_path hnames]
  have hsteps : d.cwdPath.steps = d.cwd.place := by
    by_cases hne : d.cwd.place = []
    · rw [hpath, hne]
      rfl
    · rw [Path.steps, hpath, Place.segments_path hne hnames, List.filter_cons_of_neg (by decide)]
      exact List.filter_eq_self.2 fun name hname => by simp [(hnames name hname).not_idle]
  refine ⟨?_, by simpa [hspot, Standpoint.entry?] using h.directory⟩
  rw [hsteps, hspot, Disk.origin, hpath, if_pos (Place.isAbsolute_path _)]
  exact walk_names h.wellFormed h.isName (p := []) h.directory

theorem exists_fileName? (h : d.Proper) {path : Path} {content : Bytes}
    (hread : d.read path = .ok content) : ∃ name, path.fileName? = some name := by
  obtain ⟨-, hfile⟩ := get?_of_read hread
  have hwalk := walk_filter (walk_of_entry (read_eq_ok_iff.1 hread)).2
  rw [← Path.steps] at hwalk
  cases hlast : path.steps.getLast? with
  | none =>
    -- Without a step one is where one started, in a directory.
    rw [List.getLast?_eq_none_iff.1 hlast, walk] at hwalk
    rw [← Except.ok.inj hwalk, (h.origin path).2] at hfile
    simp at hfile
  | some last =>
    refine ⟨last, Path.fileName?_eq_some_iff.2 ⟨hlast, ?_⟩⟩
    rintro rfl
    obtain ⟨front, hfront⟩ := List.getLast?_eq_some_iff.1 hlast
    rw [hfront] at hwalk
    obtain ⟨s, hwalk, hstep⟩ := walk_concat_eq_ok hwalk
    have hs : s.lost = 0 := by
      rw [(walk_eq_ok hwalk).1]
      exact lost_foldl _ (h.origin path).1
    -- Two dots lead to the directory around another.
    obtain ⟨hup, hdirectory, -⟩ := step_eq_ok hstep
    have hplace : (d.spot path).place = s.place.dropLast := by
      rw [hup]
      simp [Standpoint.enter, Path.isIdle, Standpoint.up, hs]
    rw [Standpoint.entry?, if_pos hs] at hdirectory
    rw [hplace, h.wellFormed _ _ hdirectory] at hfile
    simp at hfile

end Proper

end Disk

/-! ## The directory and the manifest of a project -/

namespace Project

variable {d : Disk} {asked : Option Path} {project : Project}

theorem load_eq_ok (h : load d asked = .ok project) :
    (locate d asked = none ∧ project = { manifest := none, directory := none }) ∨
      ∃ path directory text manifest, locate d asked = some (path, directory) ∧
        d.readText path = .ok text ∧ Manifest.parse? text = some manifest ∧
        project = { manifest := some manifest, directory } := by
  unfold load at h
  split at h
  · next hlocate => exact .inl ⟨hlocate, (Except.ok.inj h).symm⟩
  · next path directory hlocate =>
    split at h
    · simp at h
    · next text htext =>
      split at h
      · simp at h
      · next manifest hmanifest =>
        exact .inr ⟨path, directory, text, manifest, hlocate, htext, hmanifest,
          (Except.ok.inj h).symm⟩

theorem locate_eq_some {path : Path} {directory : Option Path}
    (h : locate d asked = some (path, directory)) :
    (∃ dir, asked = some dir ∧ d.isDirectory dir = true ∧ path = dir.join manifestName ∧
        directory = some dir) ∨
      (directory = path.parent? ∧
        (asked = some path ∧ d.isDirectory path = false ∨
          asked = none ∧ ∃ dir : Path, path = dir.join manifestName)) := by
  unfold locate at h
  split at h
  · next dir =>
    split at h
    · next hdir =>
      obtain ⟨rfl, rfl⟩ : _ ∧ _ := by simpa using h
      exact .inl ⟨dir, rfl, hdir, rfl, rfl⟩
    · next hdir =>
      obtain ⟨rfl, rfl⟩ : _ ∧ _ := by simpa using h
      exact .inr ⟨rfl, .inl ⟨rfl, by simpa using hdir⟩⟩
  · -- The nearest manifest is one of those that were looked for.
    obtain ⟨found, hfound, heq⟩ := Option.map_eq_some_iff.1 h
    obtain ⟨rfl, rfl⟩ : found = path ∧ found.parent? = directory := by simpa using heq
    obtain ⟨dir, -, rfl⟩ := List.mem_map.1 (List.mem_of_find?_eq_some hfound)
    exact .inr ⟨rfl, .inr ⟨rfl, dir, rfl⟩⟩

theorem stands_base (hd : d.Proper) (h : load d asked = .ok project) :
    d.Stands (project.base d) := by
  rcases load_eq_ok h with ⟨-, rfl⟩ | ⟨path, directory, text, manifest, hlocate, htext, -, rfl⟩
  · exact hd.stands_cwdPath
  · rcases locate_eq_some hlocate with ⟨dir, -, hdir, -, rfl⟩ | ⟨rfl, -⟩
    · exact Disk.stands_of_entry (Disk.isDirectory_iff.1 hdir)
    · obtain ⟨content, hread, -⟩ := Disk.readText_eq_ok_iff.1 htext
      obtain ⟨name, hname⟩ := hd.exists_fileName? hread
      obtain ⟨dir, hparent, hstands, -⟩ := Disk.exists_parent_of_read hread hname
      rw [base, hparent]
      exact hstands

/-- The manifest in the directory of a project is the one that was loaded, if this is where one looks
for it or has the usual name. -/
theorem load_usual (h : load d asked = .ok project)
    (hasked : ∀ path ∈ asked, d.isDirectory path = true ∨ path.fileName? = some "icss.toml") :
    project = { manifest := none, directory := none } ∨
      ∃ dir content, d.read (dir.join manifestName) = .ok content ∧
        project = { manifest := some (Manifest.ofContent (some content)), directory := some dir } := by
  rcases load_eq_ok h with ⟨-, rfl⟩ | ⟨path, directory, text, manifest, hlocate, htext, hparse, rfl⟩
  · exact .inl rfl
  right
  obtain ⟨content, hread, hutf8⟩ := Disk.readText_eq_ok_iff.1 htext
  obtain rfl : Manifest.ofContent (some content) = manifest := by
    simp [Manifest.ofContent, hutf8, hparse]
  rcases locate_eq_some hlocate with ⟨dir, -, -, rfl, rfl⟩ | ⟨rfl, hfound⟩
  · exact ⟨dir, content, hread, rfl⟩
  · have hname : path.fileName? = some "icss.toml" := by
      rcases hfound with ⟨rfl, hfile⟩ | ⟨-, dir, rfl⟩
      · exact (hasked path rfl).resolve_left (by simp [hfile])
      · have hsteps : (dir.join manifestName).steps = dir.steps ++ ["icss.toml"] := by
          rw [Path.steps_join dir rfl, manifestName, Path.steps_name isName_manifest]
        exact Path.fileName?_eq_some_iff.2 ⟨by simp [hsteps], by decide⟩
    obtain ⟨dir, hparent, -, hread'⟩ := Disk.exists_parent_of_read hread hname
    exact ⟨dir, content, hread', by rw [hparent]⟩

end Project

end TypedStyle
