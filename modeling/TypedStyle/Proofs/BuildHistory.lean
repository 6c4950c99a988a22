import TypedStyle.Proofs.BuildCache

/-!
# The build cache over whole histories

A project is built again and again, while its files change in between. `Session.Reaches` are the
histories in which nobody meddles with the build records and with outputs once written, and
`Session.Reaches.sound` says that the records stay sound in all of them.
-/

namespace TypedStyle

variable {goes' : Option Bytes → Path → Prop} {outputs : List Place}

namespace ProjectDirectory

variable (dir : ProjectDirectory) {paths : List Path} {path : Path}

/-- The directory for the outputs under a manifest with a given content. -/
def outDir (content : Option Bytes) : Path :=
  dir.path.join ⟨(Manifest.ofContent content).outDir⟩

/-- The manifest that counts is the one in the directory, if there is one at all. -/
def Owns (t : FileTree) : Prop :=
  Project.nearestManifest (dir.disk t) = none ∨
    Project.nearestManifest (dir.disk t) = some (dir.path.join Project.manifestName)

variable {dir}

theorem isName_manifestPlace : ∀ name ∈ dir.manifestPlace, Place.IsName name :=
  dir.isName_append (by simpa using Project.isName_manifest)

theorem spot_manifest (d : Disk) :
    d.spot (dir.path.join Project.manifestName) = { place := dir.manifestPlace } := by
  rw [d.spot_of_isAbsolute (Path.isAbsolute_join dir.isAbsolute_path _), place_manifest]

theorem Owns.load {t : FileTree} (h : dir.Owns t) {project : Project}
    (hload : Project.load (dir.disk t) none = .ok project) :
    (project = { manifest := none, directory := none } ∧
        Project.nearestManifest (dir.disk t) = none) ∨
      ∃ content, (dir.disk t).read (dir.path.join Project.manifestName) = .ok content ∧
        project = { manifest := some (Manifest.ofContent (some content))
                    directory := some dir.path } := by
  unfold Project.load Project.locate at hload
  rcases h with hnone | hsome
  · rw [hnone] at hload
    exact .inl ⟨by simpa using hload.symm, hnone⟩
  · -- The directory of the manifest is the one where it was looked for first.
    refine .inr ?_
    have hparent : (dir.path.join Project.manifestName).parent? = some dir.path :=
      Place.parent?_join_path dir.isName Project.isName_manifest
    rw [hsome] at hload
    simp only [Option.map_some, hparent] at hload
    split at hload
    · simp at hload
    · next text htext =>
      obtain ⟨content, hread, hutf8⟩ := Disk.readText_eq_ok_iff.1 htext
      refine ⟨content, hread, ?_⟩
      split at hload
      · simp at hload
      · next manifest hmanifest =>
        simpa [Manifest.ofContent, hutf8, hmanifest] using hload.symm

/-- What a plan has to do with the manifest: there is none, or it goes by that of the directory. -/
inductive Follows (dir : ProjectDirectory) (t : FileTree) (plan : Plan) : Prop
  | bare (hnearest : Project.nearestManifest (dir.disk t) = none) (hmanifest : plan.manifest = none)
      (hout : plan.outDir = dir.outDir none)
  | manifest {content : Bytes}
      (hread : (dir.disk t).read (dir.path.join Project.manifestName) = .ok content)
      (hmanifest : plan.manifest = some (dir.path.join Project.manifestName))
      (hout : plan.outDir = dir.outDir (some content))

theorem Owns.follows {t : FileTree} (h : dir.Owns t) {project : Project}
    (hload : Project.load (dir.disk t) none = .ok project) (selectBranches : Bool) :
    dir.Suits (project.plan (dir.disk t) selectBranches) ∧
      dir.Follows t (project.plan (dir.disk t) selectBranches) := by
  rcases h.load hload with ⟨rfl, hnone⟩ | ⟨content, hread, rfl⟩
  · exact ⟨⟨rfl, Path.isAbsolute_join dir.isAbsolute_path _⟩, .bare hnone rfl rfl⟩
  · exact ⟨⟨rfl, Path.isAbsolute_join dir.isAbsolute_path _⟩, .manifest hread rfl rfl⟩

/-! ## The manifest during a build -/

theorem Suits.manifest_not_mem {plan : Plan} (hsuits : dir.Suits plan) (entry : Path) :
    dir.manifestPlace ∉ plan.places entry := by
  rw [← hsuits.spots_eq (dir.disk .empty)]
  exact Plan.manifest_not_mem_spots dir.place

variable {plan : Plan} {t : FileTree} {start d : Disk} {content : Bytes}

theorem manifestPlace_of_read
    (hread : (dir.disk t).read (dir.path.join Project.manifestName) = .ok content) :
    t.get? dir.manifestPlace = some (.file content) := by
  have hget := (Disk.get?_of_read hread).2
  rwa [spot_manifest] at hget

theorem Suits.manifestPlace_not_mem (hsuits : dir.Suits plan) (entries : List Path) :
    dir.manifestPlace ∉ entries.flatMap plan.places := by
  rw [List.mem_flatMap]
  rintro ⟨entry, -, hmem⟩
  exact hsuits.manifest_not_mem entry hmem

/-- A manifest that can be read during a build is the one that was loaded. -/
theorem Suits.eq_of_mem_manifestContent? (hsuits : dir.Suits plan)
    (hread : (dir.disk t).read (dir.path.join Project.manifestName) = .ok content)
    (hmanifest : plan.manifest = some (dir.path.join Project.manifestName))
    (hdrops : Disk.Drops (dir.disk t) start) (hlater : plan.Later start d) {m : Bytes}
    (hm : m ∈ plan.manifestContent? d) : m = content := by
  obtain ⟨entries, hadds⟩ := hlater
  have hnow : d.read (dir.path.join Project.manifestName) = .ok m := by
    rw [Plan.manifestContent?, hmanifest, Option.bind_some] at hm
    exact toOption_eq_some_iff.1 hm
  -- A build does not write the manifest, so a file that is there now was there before.
  have hfile := (Disk.get?_of_read hnow).2
  rw [spot_manifest] at hfile
  have hwas := hdrops.removes.get? (hadds.writes.file (hsuits.manifestPlace_not_mem entries) hfile)
  have hloaded := manifestPlace_of_read hread
  simpa [hloaded, disk] using hwas.symm

/-- A manifest that is there when a build starts can be read throughout. -/
theorem Suits.manifestContent?_eq (hsuits : dir.Suits plan)
    (hread : (dir.disk t).read (dir.path.join Project.manifestName) = .ok content)
    (hmanifest : plan.manifest = some (dir.path.join Project.manifestName))
    (hstart : start.tree.WellFormed)
    (hthere : start.tree.get? dir.manifestPlace = some (.file content))
    (hlater : plan.Later start d) : plan.manifestContent? d = some content := by
  obtain ⟨entries, hadds⟩ := hlater
  have hallows := Disk.allows_of_entry (Disk.read_eq_ok_iff.1 hread)
  rw [join_manifestName] at hallows
  have hentry := Disk.entry_path hstart isName_manifestPlace hallows hthere
  have hnow : d.read (dir.path.join Project.manifestName) = .ok content := by
    rw [Disk.read_eq_ok_iff]
    refine hadds.entry ?_ ?_
    · rw [spot_manifest]
      exact hsuits.manifestPlace_not_mem entries
    · rw [join_manifestName]
      exact hentry
  simp [Plan.manifestContent?, hmanifest, hnow, Except.toOption]

/-! ## Runs -/

/-- A run in the directory is one on its project: the manifest that counts is its own, and no
argument names another. The entries that it digests are among `S`, the manifest is among `M`. -/
structure Runs (dir : ProjectDirectory) (S M : Bytes → Prop) (t : FileTree) (args : List String) :
    Prop where
  owns : dir.Owns t
  unnamed : ∀ allowClean arguments,
    Arguments.read allowClean (Project.isProject (dir.disk t)) args.tail = .ok arguments →
      arguments.manifestPath = none
  sources : ∀ plan start paths, Project.Building (dir.disk t) args plan start paths →
    ∀ c ∈ plan.sources start paths, S c
  manifests : ∀ m, t.get? dir.manifestPlace = some (.file m) → M m

theorem mem_of_mem_distinct (h : path ∈ Project.distinct paths) : path ∈ paths := by
  induction paths with
  | nil => exact h
  | cons first rest ih =>
    rcases List.mem_cons.1 h with rfl | h
    · exact List.mem_cons_self
    · exact List.mem_cons_of_mem _ (ih (List.mem_filter.1 h).1)

theorem isAbsolute_of_mem_entries {asked : Option String} {manifest : Option Manifest}
    {base : Path} (hbase : base.isAbsolute = true)
    (h : Project.entries asked manifest base = .ok paths) (hpath : path ∈ paths) :
    path.isAbsolute = true := by
  unfold Project.entries at h
  split at h
  · simp at h
  · obtain rfl := Except.ok.inj h
    obtain ⟨name, -, rfl⟩ := List.mem_map.1 (mem_of_mem_distinct hpath)
    exact Path.isAbsolute_join hbase _

theorem Runs.building {S M : Bytes → Prop} {args : List String} (hrun : dir.Runs S M t args)
    (h : Project.Building (dir.disk t) args plan start paths) :
    dir.Suits plan ∧ dir.Follows t plan ∧ (∀ path ∈ paths, path.isAbsolute = true) ∧
      (start = dir.disk t ∨ plan.clean (dir.disk t) = (start, none)) := by
  obtain ⟨hread, hload, hentries, hstart⟩ := h
  rw [hrun.unnamed _ _ hread] at hload
  obtain ⟨hsuits, hfollows⟩ := hrun.owns.follows hload _
  refine ⟨hsuits, hfollows, fun path hpath => ?_, ?_⟩
  · exact isAbsolute_of_mem_entries hsuits.isAbsolute_base hentries hpath
  · split at hstart
    · exact .inr hstart
    · exact .inl hstart

/-! ## Histories -/

/-- Where the outputs went under a manifest with a given content, or under none. If a build has lost
the manifest under which it was made, its outputs may be anywhere. -/
def Goes (dir : ProjectDirectory) (lost : Prop) (content : Option Bytes) (path : Path) : Prop :=
  path = dir.outDir content ∨ (content = none ∧ lost)

theorem Goes.mono {lost lost' : Prop} (h : lost → lost') {content : Option Bytes}
    (hgoes : dir.Goes lost content path) : dir.Goes lost' content path :=
  hgoes.imp id fun ⟨hnone, hlost⟩ => ⟨hnone, h hlost⟩

/-- A run has built something although the manifest that it had loaded was taken away. -/
def Loses (dir : ProjectDirectory) (t : FileTree) (o : Outcome) : Prop :=
  o.built ≠ [] ∧ ∃ m, t.get? dir.manifestPlace = some (.file m) ∧
    o.disk.tree.get? dir.manifestPlace ≠ some (.file m)

theorem Follows.manifests {M : Bytes → Prop} (hfollows : dir.Follows t plan)
    (hsuits : dir.Suits plan) (hM : ∀ m, t.get? dir.manifestPlace = some (.file m) → M m)
    (hdrops : Disk.Drops (dir.disk t) start) (hlater : plan.Later start d) :
    ∀ m ∈ plan.manifestContent? d, M m := by
  intro m hm
  cases hfollows with
  | bare _ hmanifest _ => simp [Plan.manifestContent?, hmanifest] at hm
  | manifest hread hmanifest _ =>
    obtain rfl := hsuits.eq_of_mem_manifestContent? hread hmanifest hdrops hlater hm
    exact hM m (manifestPlace_of_read hread)

/-- The outputs of a build go where its manifest says, unless the build loses it. -/
theorem Follows.goes (hfollows : dir.Follows t plan) (hsuits : dir.Suits plan)
    (hdrops : Disk.Drops (dir.disk t) start) (hstart : start.tree.WellFormed) {o : Outcome}
    (hdisk : o.disk = (plan.buildAll start paths).disk) (hbuilt : o.built ≠ []) (lost : Prop)
    (hlater : plan.Later start d) :
    dir.Goes (lost ∨ dir.Loses t o) (plan.manifestContent? d) plan.outDir := by
  cases hfollows with
  | bare _ hmanifest hout =>
    have hnone : plan.manifestContent? d = none := by simp [Plan.manifestContent?, hmanifest]
    rw [hnone]
    exact .inl hout
  | @manifest content hread hmanifest hout =>
    cases hcontent : plan.manifestContent? d with
    | some m =>
      obtain rfl := hsuits.eq_of_mem_manifestContent? hread hmanifest hdrops hlater hcontent
      exact .inl hout
    | none =>
      refine .inr ⟨rfl, .inr ⟨hbuilt, content, manifestPlace_of_read hread, fun hstill => ?_⟩⟩
      -- A manifest that is there in the end was there all the time.
      obtain ⟨entries, hadds⟩ := hsuits.later_buildAll start paths
      rw [hdisk] at hstill
      have hthere := hadds.writes.file (hsuits.manifestPlace_not_mem entries) hstill
      rw [hsuits.manifestContent?_eq hread hmanifest hstart hthere hlater] at hcontent
      simp at hcontent

end ProjectDirectory

/-- What has become of the files, with what there is to remember of the runs. -/
structure Session where
  tree : FileTree
  outputs : List Place
  lost : Prop

namespace Session

/-- What has become of the files after a run in a directory. -/
def afterRun (s : Session) (dir : ProjectDirectory) (args : List String) : Session :=
  let o := Project.run (dir.disk s.tree) args
  { tree := o.disk.tree
    outputs := s.outputs ++ o.built.map fun x => x.2.place
    lost := s.lost ∨ dir.Loses s.tree o }

/-- The histories of a project, from a time when it had no build records: the files are changed, but
nothing is put among the records or where an output has been written, and runs are made. -/
inductive Reaches (dir : ProjectDirectory) (S M : Bytes → Prop) : Session → Prop
  | start {t : FileTree} (ht : t.WellFormed)
      (hnone : ∀ p, t.get? (dir.place ++ ".icss" :: p) = none) :
      Reaches dir S M { tree := t, outputs := [], lost := False }
  | change {s : Session} {t : FileTree} (h : Reaches dir S M s) (ht : t.WellFormed)
      (hrecords : ∀ p ≠ [], s.tree.Spares t (dir.place ++ ".icss" :: p))
      (houtputs : ∀ p ∈ s.outputs, s.tree.Spares t p) : Reaches dir S M { s with tree := t }
  | run {s : Session} {args : List String} (h : Reaches dir S M s)
      (hrun : dir.Runs S M s.tree args) : Reaches dir S M (s.afterRun dir args)

end Session

variable {S M : Bytes → Prop} {dir : ProjectDirectory}

theorem Vouched.mono {goes : Option Bytes → Path → Prop} {t : FileTree} {stem : String}
    {record : BuildRecord} (h : Vouched S M goes t outputs stem record)
    (hgoes : ∀ content path, goes content path → goes' content path) :
    Vouched S M goes' t outputs stem record := by
  obtain ⟨hstem, hrecord, hcontent, hmanifest, hdir, hsource, hcompile, hmem, hkeeps⟩ := h
  exact .mk hstem hrecord hcontent hmanifest (hgoes _ _ hdir) hsource hcompile hmem hkeeps

theorem Sound.mono {goes : Option Bytes → Path → Prop} {t : FileTree}
    (h : Sound S M goes dir t outputs)
    (hgoes : ∀ content path, goes content path → goes' content path) :
    Sound S M goes' dir t outputs := by
  refine ⟨h.wellFormed, fun stem content record hfile hdecode => ?_⟩
  obtain ⟨hallows, hname, hvouched⟩ := h.vouched stem content record hfile hdecode
  exact ⟨hallows, hname, hvouched.mono hgoes⟩

theorem Sound.clean {goes : Option Bytes → Path → Prop} {plan : Plan} {d d' : Disk}
    (hsuits : dir.Suits plan) (h : Sound S M goes dir d.tree outputs)
    (hclean : plan.clean d = (d', none)) : Sound S M goes' dir d'.tree outputs := by
  have hdrops := plan.drops_clean d
  rw [hclean] at hdrops
  refine ⟨hdrops.wellFormed h.wellFormed, fun stem content record hfile hdecode => ?_⟩
  have hwas := hdrops.removes.get? hfile
  obtain ⟨hallows, hname, -⟩ := h.vouched stem content record hwas hdecode
  -- A record that is kept stands in the directory that cleaning has removed.
  have hthere : d.has (Project.recordDirectory plan.base) = true := by
    have hnames := dir.isName_recordsPlace
    have hdirAllows := hallows.of_append (dir.isName_recordPlace hname)
    have hdir : d.tree.get? dir.recordsPlace = some .directory := by
      simpa [ProjectDirectory.recordPlace] using h.wellFormed _ _ hwas
    rw [hsuits.base, dir.recordDirectory_path]
    rw [dir.recordsPlace_eq] at hdir hnames hdirAllows ⊢
    exact Disk.has_iff.2 ⟨_, Disk.entry_path h.wellFormed hnames hdirAllows hdir⟩
  have hgone := Plan.get?_clean hthere hclean (List.cons_ne_nil (stem ++ ".meta") [])
  rw [hsuits.base, dir.recordDirectory_path, d.spot_of_isAbsolute (Place.isAbsolute_path _),
    Place.place_path dir.isName_recordsPlace] at hgone
  rw [ProjectDirectory.recordPlace, hgone] at hfile
  simp at hfile

namespace Session

theorem Reaches.sound {s : Session} (h : Reaches dir S M s) :
    Sound S M (dir.Goes s.lost) dir s.tree s.outputs := by
  induction h with
  | @start t ht hnone =>
    refine ⟨ht, fun stem content record hfile => ?_⟩
    have hgone : t.get? (dir.recordPlace stem) = none := by
      simpa [ProjectDirectory.recordPlace, ProjectDirectory.recordsPlace] using hnone _
    simp [hgone] at hfile
  | @change s t h ht hrecords houtputs ih =>
    refine ih.spares ht (fun stem => ?_) houtputs
    simpa [ProjectDirectory.recordPlace, ProjectDirectory.recordsPlace] using
      hrecords ["build", stem ++ ".meta"] (by simp)
  | @run s args h hrun ih =>
    rcases Project.run_cases (dir.disk s.tree) args with
      ⟨hdrops, hbuilt, -⟩ | ⟨plan, start, paths, hbuilding, hdrops, hdisk, -, hbuilt⟩
    · -- Nothing was built, and things were at most taken away.
      have hsound : Sound S M (dir.Goes (s.afterRun dir args).lost) dir
          (s.afterRun dir args).tree s.outputs :=
        (Sound.drops (d := dir.disk s.tree) ih hdrops).mono fun _ _ h => h.mono .inl
      simpa [afterRun, hbuilt] using hsound
    · obtain ⟨hsuits, hfollows, -, -⟩ := hrun.building hbuilding
      have hsound := Sound.drops (d := dir.disk s.tree) ih hdrops
      have hafter := (hsound.mono fun _ _ h => h.mono .inl).buildAll hsuits
        (hrun.sources plan start paths hbuilding)
        (fun d hd => hfollows.manifests hsuits hrun.manifests hdrops hd)
        (fun hne d hd =>
          hfollows.goes hsuits hdrops hsound.wellFormed hdisk (hbuilt ▸ hne) s.lost hd)
      rw [← hdisk, ← hbuilt] at hafter
      exact hafter

/-- When a build starts its records are sound, and they tell where its own outputs go. -/
theorem Reaches.exists_goes {s : Session} (h : Reaches dir S M s)
    (hlost : s.lost → Project.nearestManifest (dir.disk s.tree) ≠ none) {plan : Plan}
    {start : Disk} (hsuits : dir.Suits plan) (hfollows : dir.Follows s.tree plan)
    (hdrops : Disk.Drops (dir.disk s.tree) start)
    (hstart : start = dir.disk s.tree ∨ plan.clean (dir.disk s.tree) = (start, none)) :
    ∃ goes, Sound S M goes dir start.tree s.outputs ∧ ∀ d, plan.Later start d →
      ∀ outDir, goes (plan.manifestContent? d) outDir ↔ outDir = plan.outDir := by
  have hsound := Sound.drops (d := dir.disk s.tree) h.sound hdrops
  cases hfollows with
  | bare hnearest hmanifest hout =>
    refine ⟨_, hsound, fun d _ outDir => ?_⟩
    -- Records without a manifest are then from builds that had none.
    have hnone : plan.manifestContent? d = none := by simp [Plan.manifestContent?, hmanifest]
    have hkept : ¬s.lost := fun hlost' => hlost hlost' hnearest
    simp [ProjectDirectory.Goes, hnone, hout, hkept]
  | @manifest content hread hmanifest hout =>
    by_cases hthere : start.tree.get? dir.manifestPlace = some (.file content)
    · -- The manifest is digested throughout, and its records tell where outputs went under it.
      refine ⟨_, hsound, fun d hlater outDir => ?_⟩
      rw [hsuits.manifestContent?_eq hread hmanifest hsound.wellFormed hthere hlater]
      simp [ProjectDirectory.Goes, hout]
    · -- The manifest was taken away by cleaning, and the records with it.
      have hclean : plan.clean (dir.disk s.tree) = (start, none) := by
        refine hstart.resolve_left ?_
        rintro rfl
        exact hthere (ProjectDirectory.manifestPlace_of_read hread)
      exact ⟨fun _ path => path = plan.outDir, Sound.clean hsuits h.sound hclean,
        fun _ _ _ => Iff.rfl⟩

end Session

/-! ## Histories that can be computed -/

def Entry.content? : Entry → Option Bytes
  | .directory => none
  | .file content => some content

theorem Entry.content?_eq_some_iff {e : Entry} {content : Bytes} :
    e.content? = some content ↔ e = .file content := by
  cases e <;> simp [content?]

namespace ProjectDirectory

instance (t : FileTree) : Decidable (dir.Owns t) := inferInstanceAs (Decidable (_ ∨ _))

theorem runs_iff {t : FileTree} {args : List String} :
    dir.Runs S M t args ↔ dir.Owns t ∧
      (∀ allowClean, (Arguments.read allowClean (Project.isProject (dir.disk t))
        args.tail).toOption.bind (·.manifestPath) = none) ∧
      (∀ x ∈ Project.building? (dir.disk t) args, ∀ c ∈ x.1.sources x.2.1 x.2.2, S c) ∧
      ∀ m ∈ (t.get? dir.manifestPlace).bind Entry.content?, M m := by
  constructor
  · rintro ⟨howns, hunnamed, hsources, hmanifests⟩
    refine ⟨howns, fun allowClean => ?_, fun ⟨plan, start, paths⟩ hx => ?_, fun m hm => ?_⟩
    · rw [Option.bind_eq_none_iff]
      intro arguments hread
      exact hunnamed allowClean arguments (toOption_eq_some_iff.1 hread)
    · exact hsources plan start paths (Project.building?_eq_some_iff.1 hx)
    · obtain ⟨e, he, hcontent⟩ := Option.bind_eq_some_iff.1 hm
      exact hmanifests m (he.trans (congrArg some (Entry.content?_eq_some_iff.1 hcontent)))
  · rintro ⟨howns, hunnamed, hsources, hmanifests⟩
    refine ⟨howns, fun allowClean arguments hread => ?_, fun plan start paths hbuilding => ?_,
      fun m hm => ?_⟩
    · have hnone := hunnamed allowClean
      rw [hread] at hnone
      exact hnone
    · exact hsources _ (Project.building?_eq_some_iff.2 hbuilding)
    · exact hmanifests m (Option.bind_eq_some_iff.2 ⟨_, hm, rfl⟩)

instance [DecidablePred S] [DecidablePred M] (t : FileTree) (args : List String) :
    Decidable (dir.Runs S M t args) :=
  decidable_of_iff _ runs_iff.symm

end ProjectDirectory

namespace Session

/-- Some of what can happen to a project: something is put into a place or taken away, or a run is
made. -/
inductive Step where
  | put (p : Place) (e : Entry)
  | remove (p : Place)
  | run (args : List String)

/-- A session at the beginning, without any files. -/
def new : Session := { tree := .empty, outputs := [], lost := False }

def after (dir : ProjectDirectory) (s : Session) : Step → Session
  | .put p e => { s with tree := s.tree.put p e }
  | .remove p => { s with tree := s.tree.remove p }
  | .run args => s.afterRun dir args

def Allows (dir : ProjectDirectory) (S M : Bytes → Prop) (s : Session) : Step → Prop
  | .put p e => p ≠ [] ∧ s.tree.get? p.dropLast = some .directory ∧
      (e = .directory ∨ s.tree.get? p ≠ some .directory) ∧
      p ∉ s.outputs ∧ ¬(dir.place ++ [".icss"]).isPrefixOf p
  | .remove p => p ≠ []
  | .run args => dir.Runs S M s.tree args

instance [DecidablePred S] [DecidablePred M] (s : Session) (step : Step) :
    Decidable (s.Allows dir S M step) :=
  match step with
  | .put _ _ => inferInstanceAs (Decidable (_ ∧ _))
  | .remove p => inferInstanceAs (Decidable (p ≠ []))
  | .run args => inferInstanceAs (Decidable (dir.Runs S M s.tree args))

theorem Reaches.new : Reaches dir S M new :=
  .start FileTree.wellFormed_empty fun _ => FileTree.get?_empty (by simp)

theorem Reaches.after {s : Session} (h : Reaches dir S M s) {step : Step}
    (hstep : s.Allows dir S M step) : Reaches dir S M (s.after dir step) := by
  cases step with
  | put p e =>
    obtain ⟨hp, hparent, hentry, houtputs, hrecords⟩ := hstep
    refine .change h (h.sound.wellFormed.put hp hparent hentry) (fun q _ => ?_) fun q hq => ?_
    · refine FileTree.spares_put s.tree hp e ?_
      rintro rfl
      exact hrecords (by simp [List.isPrefixOf_iff_prefix])
    · refine FileTree.spares_put s.tree hp e ?_
      rintro rfl
      exact houtputs hq
  | remove p =>
    have hremoves := FileTree.removes_remove s.tree hstep
    exact .change h (h.sound.wellFormed.remove hstep) (fun q _ => hremoves _) fun q _ => hremoves q
  | run args => exact .run h hstep

def follow (dir : ProjectDirectory) (S M : Bytes → Prop) [DecidablePred S] [DecidablePred M] :
    Session → List Step → Option Session
  | s, [] => some s
  | s, step :: rest =>
    if s.Allows dir S M step then follow dir S M (s.after dir step) rest else none

theorem Reaches.follow [DecidablePred S] [DecidablePred M] {s s' : Session} {steps : List Step}
    (h : Reaches dir S M s) (hsteps : s.follow dir S M steps = some s') : Reaches dir S M s' := by
  induction steps generalizing s with
  | nil => exact Option.some.inj hsteps ▸ h
  | cons step rest ih =>
    rw [Session.follow] at hsteps
    split at hsteps
    · next hstep => exact ih (h.after hstep) hsteps
    · simp at hsteps

theorem Reaches.exists_of_follow [DecidablePred S] [DecidablePred M] {P : Session → Prop}
    (steps : List Step) (h : ∃ s ∈ Session.new.follow dir S M steps, P s) :
    ∃ s, Reaches dir S M s ∧ P s := by
  obtain ⟨s, hs, hP⟩ := h
  exact ⟨s, Reaches.new.follow hs, hP⟩

end Session

end TypedStyle
