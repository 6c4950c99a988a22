import TypedStyle.Proofs.BuildOutputs
import TypedStyle.Proofs.Overlay

/-!
# What is decided about an entry

Before anything of an entry is stored its source, its record and the manifest are read, and there is
a stylesheet to store, nothing to do or a failure: `Plan.decision`.
-/

namespace TypedStyle

/-! ## Names of files -/

theorem append_css_ne_icss (stem : String) : stem ++ ".css" ≠ ".icss" := by
  intro h
  have hchars : stem.toList ++ ['.', 'c', 's', 's'] = ['.'] ++ ['i', 'c', 's', 's'] := by
    simpa using congrArg String.toList h
  exact absurd (List.append_inj' hchars rfl).2 (by decide)

theorem append_meta_ne_icss (stem : String) : stem ++ ".meta" ≠ ".icss" := by
  intro h
  have hlast := getLast?_append_meta stem
  rw [h] at hlast
  simp at hlast

theorem append_css_ne_build (stem : String) : stem ++ ".css" ≠ "build" := by
  intro h
  have hlast := getLast?_append_css stem
  rw [h] at hlast
  simp at hlast

theorem append_meta_ne_build (stem : String) : stem ++ ".meta" ≠ "build" := by
  intro h
  have hlast := getLast?_append_meta stem
  rw [h] at hlast
  simp at hlast

namespace Plan

/-! ## What is decided about an entry -/

/-- What is decided about an entry before anything is stored. -/
inductive Decision where
  /-- Nothing is stored, and this went well or not. -/
  | leave (success : Bool)
  | store (job : Job) (css : String) (record : BuildRecord)

/-- What is decided about an entry of which the files and the new record are known. -/
def jobDecision (plan : Plan) (d : Disk) (job : Job) (record : BuildRecord) : Decision :=
  if isUpToDate d job record then .leave true
  else match (compileFile d plan.options job.entry).2.toOption with
  | none => .leave false
  | some css => .store job css record

def decision (plan : Plan) (d : Disk) (entry : Path) : Decision :=
  match plan.job entry, (plan.record d entry).toOption with
  | .ok job, some record => plan.jobDecision d job record
  | _, _ => .leave false

/-- The disk after a decision is carried out, and whether all went well. -/
def Decision.carryOut (plan : Plan) (d : Disk) : Decision → Disk × Bool
  | leave success => (d, success)
  | store job css record =>
    ((plan.storeAll d job css record).1, (plan.storeAll d job css record).2.isNone)

theorem buildEntry_eq_carryOut (plan : Plan) (d : Disk) (entry : Path) :
    ((plan.buildEntry d entry).disk, (plan.buildEntry d entry).result.success) =
      (plan.decision d entry).carryOut plan d := by
  unfold buildEntry decision
  cases plan.job entry with
  | error e => rfl
  | ok job =>
    cases plan.record d entry with
    | error e => rfl
    | ok record =>
      show ((plan.buildJob d job record).disk, (plan.buildJob d job record).result.success) =
        (plan.jobDecision d job record).carryOut plan d
      unfold buildJob jobDecision
      by_cases hcurrent : isUpToDate d job record = true
      · rw [if_pos hcurrent, if_pos hcurrent]
        rfl
      · rw [if_neg hcurrent, if_neg hcurrent]
        rcases compileFile d plan.options job.entry with ⟨notices, failure | css⟩
        · rfl
        · dsimp only [Except.toOption, Decision.carryOut]
          rcases plan.storeAll d job css record with ⟨d', _ | failure⟩ <;> rfl

/-! ## Where a build is -/

/-- A build on a disk on which all its files are down from directories that are there, and which does
not make a directory of a manifest that it looks for in vain. -/
structure Settled (plan : Plan) (d : Disk) : Prop where
  proper : d.Proper
  base : d.Stands plan.base
  outDir : d.Descends plan.outDir
  manifest : ∀ path ∈ plan.manifest, path = plan.base.join Project.manifestName ∧
    (d.has path = true ∨ ¬(d.spot path).place <+: (d.spot plan.outDir).place)

variable {plan : Plan} {d d' : Disk}

namespace Settled

theorem recordDirectory (h : plan.Settled d) : d.Descends (Project.recordDirectory plan.base) := by
  have hicss : d.Descends (plan.base.join ⟨".icss"⟩) :=
    ⟨plan.base, ⟨".icss"⟩, h.base, rfl, by decide +kernel⟩
  exact hicss.join_name Project.isName_build

theorem not_prefix_recordDirectory (h : plan.Settled d) {p : Place} {name : String}
    (hicss : name ≠ ".icss") (hbuild : name ≠ "build")
    (hget : d.tree.get? (p ++ [name]) ≠ some .directory) :
    ¬p ++ [name] <+: (d.spot (Project.recordDirectory plan.base)).place := by
  rw [Project.spot_recordDirectory]
  intro hprefix
  rcases List.prefix_concat_iff.1 hprefix with heq | hprefix
  · exact hbuild (List.singleton_inj.1 (List.append_inj' heq rfl).2)
  · rcases List.prefix_concat_iff.1 hprefix with heq | hprefix
    · exact hicss (List.singleton_inj.1 (List.append_inj' heq rfl).2)
    · -- Around the directory of the project there are directories.
      have hbase : d.tree.get? (d.spot plan.base).place = some .directory := by
        have hentry := h.base.2
        rwa [Standpoint.entry?, if_pos (h.proper.lost_spot _)] at hentry
      obtain ⟨rest, hrest⟩ := hprefix
      refine hget ?_
      by_cases hne : rest = []
      · rw [hne, List.append_nil] at hrest
        rwa [hrest]
      · rw [← hrest] at hbase
        exact h.proper.wellFormed.directory_of_append hne hbase

end Settled

/-! ## What stays as it was -/

/-- Directories are made on the ways to the outputs and to the records, and files of the entries
`done` are written. All else is as it was. -/
structure Since (plan : Plan) (d : Disk) (done : List Path) (d' : Disk) : Prop where
  adds : Disk.Adds (done.flatMap (plan.spots d)) d d'
  get? : ∀ p, d'.tree.get? p = d.tree.get? p ∨ p ∈ done.flatMap (plan.spots d) ∨
    d.tree.get? p = none ∧ d'.tree.get? p = some .directory ∧
      (p <+: (d.spot plan.outDir).place ∨
        p <+: (d.spot (Project.recordDirectory plan.base)).place)

section

variable {done : List Path}

theorem Since.file_iff (h : plan.Since d done d') {p : Place}
    (hp : p ∉ done.flatMap (plan.spots d)) (content : Bytes) :
    d.tree.get? p = some (.file content) ↔ d'.tree.get? p = some (.file content) := by
  rcases h.get? p with heq | hmem | ⟨hnone, hdir, -⟩
  · rw [heq]
  · exact absurd hmem hp
  · simp [hnone, hdir]

variable {entry : Path} {stem : String} (hd : plan.Settled d) (h : plan.Since d done d')

include hd h

theorem Since.read_eq {path : Path} (hpath : d.Descends path)
    (hp : (d.spot path).place ∉ done.flatMap (plan.spots d)) :
    (d'.read path).toOption = (d.read path).toOption :=
  (Disk.Adds.read_congr hd.proper (.refl d) h.adds hpath (h.file_iff hp)).symm

/-- Making a directory of the build takes nothing else from what it was. -/
theorem Since.makeDirectories {path : Path}
    (hpath : path = plan.outDir ∨ path = Project.recordDirectory plan.base) :
    plan.Since d done (d'.makeDirectories path).1 := by
  have hmakes := Disk.adds_makeDirectories d' path
  refine ⟨by simpa using h.adds.trans hmakes, fun p => ?_⟩
  have hdescends : d'.Descends path := by
    refine h.adds.descends ?_
    rcases hpath with rfl | rfl
    · exact hd.outDir
    · exact hd.recordDirectory
  rcases hdescends.makeDirectories (h.adds.proper hd.proper) p with heq | ⟨hnone, hdir, hway⟩
  · rw [heq]
    exact h.get? p
  · rcases h.get? p with heq | hmem | ⟨-, hdir', -⟩
    · rw [h.adds.spot] at hway
      refine .inr (.inr ⟨heq.symm.trans hnone, hdir, ?_⟩)
      rcases hpath with rfl | rfl
      · exact .inl hway
      · exact .inr hway
    · exact .inr (.inl hmem)
    · rw [hnone] at hdir'
      simp at hdir'

theorem Since.get?_eq {p : Place} {name : String}
    (hp : p ++ [name] ∉ done.flatMap (plan.spots d)) (hicss : name ≠ ".icss")
    (hbuild : name ≠ "build")
    (hout : d.tree.get? (p ++ [name]) = none → ¬p ++ [name] <+: (d.spot plan.outDir).place) :
    d'.tree.get? (p ++ [name]) = d.tree.get? (p ++ [name]) := by
  rcases h.get? (p ++ [name]) with heq | hmem | ⟨hnone, -, hway⟩
  · exact heq
  · exact absurd hmem hp
  · have hrecords := hd.not_prefix_recordDirectory (p := p) hicss hbuild (by simp [hnone])
    exact (hway.elim (hout hnone) hrecords).elim

theorem Since.manifestHash_eq : plan.manifestHash d' = plan.manifestHash d := by
  unfold manifestHash
  cases hmanifest : plan.manifest with
  | none => rfl
  | some path =>
    obtain ⟨rfl, hcase⟩ := hd.manifest path hmanifest
    have hspot : d.spot (plan.base.join Project.manifestName) =
        { place := (d.spot plan.base).place ++ ["icss.toml"] } :=
      d.spot_join_name plan.base Project.isName_manifest
    have hdescends : d.Descends (plan.base.join Project.manifestName) :=
      ⟨plan.base, Project.manifestName, hd.base, rfl, by decide +kernel⟩
    have hfile : (d.spot plan.base).place ++ ["icss.toml"] ∉ done.flatMap (plan.spots d) := by
      rw [List.mem_flatMap]
      rintro ⟨entry, -, hmem⟩
      exact manifest_not_mem_spots _ hmem
    have hget : d.tree.get? (d.spot (plan.base.join Project.manifestName)).place =
        d'.tree.get? (d.spot (plan.base.join Project.manifestName)).place := by
      rw [hspot]
      refine (h.get?_eq hd hfile (by decide) (by decide) fun hnone => ?_).symm
      rw [hspot] at hcase
      refine hcase.resolve_left fun hthere => ?_
      obtain ⟨e, he⟩ := Disk.has_iff.1 hthere
      have hentry := Disk.entry_eq_ok he
      rw [hspot, Standpoint.entry?, if_pos rfl, hnone] at hentry
      simp at hentry
    have hhas := Disk.Adds.has_congr hd.proper (.refl d) h.adds hdescends hget
    dsimp only
    rw [← hhas]
    split
    · next hthere =>
      -- What is found there is found again.
      obtain ⟨e, he⟩ := Disk.has_iff.1 hthere
      have he' : d'.entry (plan.base.join Project.manifestName) = .ok e :=
        h.adds.entry (by rw [hspot]; exact hfile) he
      rw [fileHash, fileHash, Disk.read, Disk.read, he, he']
    · rfl

theorem Since.record_eq (hentry : d.Descends entry)
    (hp : (d.spot entry).place ∉ done.flatMap (plan.spots d)) :
    (plan.record d' entry).toOption = (plan.record d entry).toOption := by
  have hread := h.read_eq hd hentry hp
  have hhash : (fileHash d' entry).toOption = (fileHash d entry).toOption := by
    have hmap : ∀ x : Disk, (fileHash x entry).toOption =
        (x.read entry).toOption.map Digest.sha256Hex := by
      intro x
      unfold fileHash
      cases x.read entry <;> rfl
    rw [hmap, hmap, hread]
  unfold Plan.record
  rw [h.manifestHash_eq hd]
  cases hd' : fileHash d' entry with
  | error e =>
    cases hd : fileHash d entry with
    | error e => rfl
    | ok hash => simp [hd, hd', Except.toOption] at hhash
  | ok hash =>
    cases hd : fileHash d entry with
    | error e => simp [hd, hd', Except.toOption] at hhash
    | ok hash' =>
      obtain rfl : hash = hash' := by simpa [hd, hd', Except.toOption] using hhash
      rfl

theorem Since.compileFile_eq (hentry : d.Descends entry)
    (hp : (d.spot entry).place ∉ done.flatMap (plan.spots d)) (options : Options) :
    (compileFile d' options entry).2.toOption = (compileFile d options entry).2.toOption := by
  have hread := h.read_eq hd hentry hp
  have htext : ∀ source, d'.readText entry = .ok source ↔ d.readText entry = .ok source := by
    intro source
    rw [Disk.readText_eq_ok_iff, Disk.readText_eq_ok_iff]
    simp only [← toOption_eq_some_iff, hread]
  ext css
  rw [toOption_eq_some_iff, toOption_eq_some_iff, compileFile_eq_ok_iff, compileFile_eq_ok_iff]
  simp only [htext]

/-- Whether there is an output is known before other entries are built. -/
theorem Since.has_output_eq (hstem : entry.stem? = some stem)
    (hothers : ∀ other ∈ done, other.stem? ≠ some stem) :
    d'.has (plan.outDir.join ⟨stem ++ ".css"⟩) = d.has (plan.outDir.join ⟨stem ++ ".css"⟩) := by
  have hname : Place.IsName (stem ++ ".css") := Path.isName_of_stem? hstem (by decide) (by decide)
  refine (Disk.Adds.has_congr hd.proper (.refl d) h.adds (hd.outDir.join_name hname) ?_).symm
  rw [d.spot_join_name _ hname]
  refine (h.get?_eq hd ?_ (append_css_ne_icss stem) (append_css_ne_build stem) ?_).symm
  · rw [List.mem_flatMap]
    rintro ⟨other, hother, hmem⟩
    exact css_not_mem_spots (hothers other hother) _ hmem
  · -- An output is in the directory of the outputs, not around it.
    intro _ hprefix
    have hlength := hprefix.length_le
    rw [List.length_append, List.length_singleton] at hlength
    omega

theorem Since.kept?_eq (hstem : entry.stem? = some stem)
    (hothers : ∀ other ∈ done, other.stem? ≠ some stem) :
    kept? d' ((Project.recordDirectory plan.base).join ⟨stem ++ ".meta"⟩) =
      kept? d ((Project.recordDirectory plan.base).join ⟨stem ++ ".meta"⟩) := by
  have hname : Place.IsName (stem ++ ".meta") := Path.isName_of_stem? hstem (by decide) (by decide)
  have hplace : (d.spot ((Project.recordDirectory plan.base).join ⟨stem ++ ".meta"⟩)).place ∉
      done.flatMap (plan.spots d) := by
    rw [d.spot_join_name _ hname, List.mem_flatMap]
    rintro ⟨other, hother, hmem⟩
    exact meta_not_mem_spots (hothers other hother) _ hmem
  have hread := h.read_eq hd (hd.recordDirectory.join_name hname) hplace
  ext record
  rw [kept?_eq_some_iff, kept?_eq_some_iff]
  simp only [← toOption_eq_some_iff, hread]

/-- What is built before an entry does not change what is decided about it, if it has another
stem. -/
theorem Since.decision_eq (hentry : d.Descends entry)
    (hstems : ∀ other ∈ done, ∀ stem, entry.stem? = some stem → other.stem? ≠ some stem) :
    plan.decision d' entry = plan.decision d entry := by
  unfold decision
  cases hjob : plan.job entry with
  | error e => rfl
  | ok job =>
    obtain ⟨stem, hstem, rfl⟩ := job_eq_ok hjob
    have hothers := fun other hother => hstems other hother stem hstem
    -- A source may be among the outputs or the records, but only under the name of its own.
    have hsource : (d.spot entry).place ∉ done.flatMap (plan.spots d) := by
      rw [List.mem_flatMap]
      rintro ⟨other, hother, hmem⟩
      exact hothers other hother (name_of_source_mem_spots hstem hmem).1
    rw [h.record_eq hd hentry hsource]
    cases (plan.record d entry).toOption with
    | none => rfl
    | some record =>
      have hcurrent : ∀ job : Job, job.output = plan.outDir.join ⟨stem ++ ".css"⟩ →
          job.record = (Project.recordDirectory plan.base).join ⟨stem ++ ".meta"⟩ →
          isUpToDate d' job record = isUpToDate d job record := by
        intro job houtput hrecord
        rw [isUpToDate, isUpToDate, houtput, hrecord, h.has_output_eq hd hstem hothers,
          h.kept?_eq hd hstem hothers]
      dsimp only [jobDecision]
      rw [hcurrent _ rfl rfl, h.compileFile_eq hd hentry hsource]

end

end Plan

end TypedStyle
