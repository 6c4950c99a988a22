import TypedStyle.Project.Tool
import TypedStyle.Proofs.Disk

/-!
# What a build does

`Plan.Turn` says what the build of one entry can do to a disk, and `Project.run_cases` what a whole
run of the project tool can do. All that is proved about builds is derived from these two.
-/

namespace TypedStyle

theorem toOption_eq_some_iff {ε α : Type} {x : Except ε α} {a : α} :
    x.toOption = some a ↔ x = .ok a := by
  cases x <;> simp [Except.toOption]

/-- The entry and the output of which a notice says that it is made. -/
def Notice.built? : Notice → Option (Path × Path)
  | progress _ (.built entry output) => some (entry, output)
  | _ => none

/-- The entries that a run says it has built, with their outputs. -/
def Outcome.built (o : Outcome) : List (Path × Path) :=
  o.notices.filterMap Notice.built?

theorem Event.filterMap_built? (events : List Event) :
    (Event.notices events).filterMap Notice.built? = [] := by
  simp [Event.notices, Notice.built?]

theorem Outcome.success_of_exitCode {o : Outcome} (h : o.exitCode = 0) : o.success = true := by
  cases hsuccess : o.success with
  | true => rfl
  | false => simp [exitCode, hsuccess] at h

/-- The manifest with a given content. Without one, or if it cannot be read, the defaults count. -/
def Manifest.ofContent (content : Option Bytes) : Manifest :=
  ((content.bind Text.ofUtf8?).bind Manifest.parse?).getD {}

/-! ## Names of files -/

theorem getLast?_append_css (stem : String) : (stem ++ ".css").toList.getLast? = some 's' := by
  simp

theorem getLast?_append_meta (stem : String) : (stem ++ ".meta").toList.getLast? = some 'a' := by
  simp

theorem append_css_ne_append_meta (stem stem' : String) : stem ++ ".css" ≠ stem' ++ ".meta" := by
  intro h
  have hlast := getLast?_append_css stem
  rw [h, getLast?_append_meta] at hlast
  simp at hlast

namespace Plan

variable {plan : Plan} {entry path : Path} {job : Job} {d d' : Disk} {record : BuildRecord}
  {content : Bytes} {result : BuildResult}

/-! ## The parts of a build -/

theorem job_eq_ok (h : plan.job entry = .ok job) :
    ∃ stem, entry.stem? = some stem ∧
      job = { entry
              output := plan.outDir.join ⟨stem ++ ".css"⟩
              record := (Project.recordDirectory plan.base).join ⟨stem ++ ".meta"⟩ } := by
  unfold Plan.job at h
  split at h
  · simp at h
  · next stem hstem => exact ⟨stem, hstem, by simpa using h.symm⟩

def recordOf (entry : Path) (content : Bytes) (manifest : Option Bytes) (options : Options) :
    BuildRecord :=
  { version := recordVersion
    files := [{ path := entry.text, hash := Digest.sha256Hex content }]
    manifestHash := manifest.map Digest.sha256Hex
    selectBranches := options.selectBranches
    toolVersion }

/-- The content of the manifest, if it can be read. -/
def manifestContent? (plan : Plan) (d : Disk) : Option Bytes :=
  plan.manifest.bind fun path => (d.read path).toOption

theorem fileHash_eq_ok {hash : String} (h : fileHash d path = .ok hash) :
    ∃ content, d.read path = .ok content ∧ hash = Digest.sha256Hex content := by
  unfold fileHash at h
  split at h
  · simp at h
  · next content hread => exact ⟨content, hread, by simpa using h.symm⟩

theorem manifestHash_eq_ok {hash : Option String} (h : plan.manifestHash d = .ok hash) :
    hash = (plan.manifestContent? d).map Digest.sha256Hex := by
  unfold manifestHash at h
  unfold manifestContent?
  split at h
  · next hnone => simpa [hnone] using h.symm
  · next path hsome =>
    rw [hsome, Option.bind_some]
    split at h
    · cases hhash : fileHash d path with
      | error e => simp [hhash, Except.map] at h
      | ok digest =>
        obtain ⟨content, hread, rfl⟩ := fileHash_eq_ok hhash
        simpa [hhash, Except.map, hread, Except.toOption] using h.symm
    · next hthere =>
      -- A file that can be read is there.
      have hread : (d.read path).toOption = none := by
        cases hread : d.read path with
        | error e => rfl
        | ok content =>
          exact absurd (Disk.has_iff.2 ⟨_, Disk.read_eq_ok_iff.1 hread⟩) hthere
      simpa [hread] using h.symm

theorem record_eq_ok (h : plan.record d entry = .ok record) :
    ∃ content, d.read entry = .ok content ∧
      record = recordOf entry content (plan.manifestContent? d) plan.options := by
  unfold Plan.record at h
  cases hhash : fileHash d entry with
  | error e => simp [hhash, bind, Except.bind] at h
  | ok hash =>
    obtain ⟨content, hread, rfl⟩ := fileHash_eq_ok hhash
    cases hmanifest : plan.manifestHash d with
    | error e => simp [hhash, hmanifest, bind, Except.bind] at h
    | ok manifestHash =>
      refine ⟨content, hread, ?_⟩
      simpa [hhash, hmanifest, bind, Except.bind, pure, Except.pure, recordOf,
        ← manifestHash_eq_ok hmanifest] using h.symm

theorem kept?_eq_some_iff :
    kept? d path = some record ↔
      ∃ content, d.read path = .ok content ∧ BuildRecord.decode? content = some record := by
  unfold kept?
  split <;> simp_all

theorem compileFile_eq_ok_iff {options : Options} {css : String} :
    (compileFile d options entry).2 = .ok css ↔
      ∃ source, d.readText entry = .ok source ∧ compile options source = .ok css := by
  rw [compileFile]
  split
  · next e hread => simp [hread]
  · next source hread =>
    have hcompile : (∃ s, d.readText entry = .ok s ∧ compile options s = .ok css) ↔
        (compileWithEvents options source).result = .ok css := by
      simp [hread, compile]
    rw [hcompile]
    dsimp only
    split <;> simp_all

/-! ## Storing -/

theorem adds_makeDirectory {failure : Option Failure} (h : makeDirectory d path = (d', failure)) :
    Disk.Adds [] d d' := by
  have hadds := Disk.adds_makeDirectories d path
  unfold makeDirectory at h
  split at h <;> simp_all

theorem store_failure {directory : Path} {failure : Failure}
    (h : store d directory path content = (d', some failure)) : Disk.Adds [] d d' := by
  unfold store at h
  split at h
  · next d₀ e hmake =>
    obtain ⟨rfl, -⟩ := Prod.mk.inj h
    exact adds_makeDirectory hmake
  · next d₀ hmake =>
    split at h
    · obtain ⟨rfl, -⟩ := Prod.mk.inj h
      exact adds_makeDirectory hmake
    · simp at h

theorem store_success {directory : Path} (h : store d directory path content = (d', none)) :
    ∃ d₀, Disk.Adds [] d d₀ ∧ d₀.write path content = .ok d' := by
  unfold store at h
  split at h
  · simp at h
  · next d₀ hmake =>
    split at h
    · simp at h
    · next d₁ hwrite =>
      obtain ⟨rfl, -⟩ := Prod.mk.inj h
      exact ⟨d₀, adds_makeDirectory hmake, hwrite⟩

/-! ## One entry -/

/-- What the build of an entry can do to a disk, with what comes of it. -/
inductive Turn (plan : Plan) (d : Disk) (entry : Path) : Disk → BuildResult → Prop
  /-- It stops before the output is written. -/
  | stopped {d' : Disk} {failure : Failure} (hadds : Disk.Adds [] d d') :
      Turn plan d entry d' (.failed failure)
  /-- The output is there, and the record that is kept is the new one. -/
  | upToDate {job : Job} {record : BuildRecord} (hjob : plan.job entry = .ok job)
      (hrecord : plan.record d entry = .ok record) (houtput : d.has job.output = true)
      (hkept : kept? d job.record = some record) : Turn plan d entry d .upToDate
  /-- It writes the output, but cannot store the record. -/
  | unrecorded {job : Job} {content record : Bytes} {d₀ d₁ d' : Disk} {failure : Failure}
      (hjob : plan.job entry = .ok job) (hmake : Disk.Adds [] d d₀)
      (hwrite : d₀.write job.output content = .ok d₁)
      (hstore : store d₁ (Project.recordDirectory plan.base) job.record record =
        (d', some failure)) : Turn plan d entry d' (.failed failure)
  | built {job : Job} {record : BuildRecord} {source css : String} {d₀ d₁ d₂ d' : Disk}
      (hjob : plan.job entry = .ok job) (hrecord : plan.record d entry = .ok record)
      (hread : d.readText entry = .ok source) (hcompile : compile plan.options source = .ok css)
      (hmake : Disk.Adds [] d d₀) (hwrite : d₀.write job.output (Text.utf8 css) = .ok d₁)
      (hmake' : Disk.Adds [] d₁ d₂) (hwrite' : d₂.write job.record record.encode = .ok d') :
      Turn plan d entry d' (.built job.output)

theorem turn_buildJob (hjob : plan.job entry = .ok job)
    (hrecord : plan.record d entry = .ok record) :
    plan.Turn d entry (plan.buildJob d job record).disk (plan.buildJob d job record).result := by
  have hentry : job.entry = entry := by
    obtain ⟨stem, -, rfl⟩ := job_eq_ok hjob
    rfl
  unfold buildJob
  split
  · next hcurrent =>
    obtain ⟨houtput, hkept⟩ := Bool.and_eq_true_iff.1 hcurrent
    exact .upToDate hjob hrecord houtput (by simpa using hkept)
  · dsimp only
    rcases hcompile : compileFile d plan.options job.entry with ⟨notices, failure | css⟩
    · exact .stopped (.refl d)
    · obtain ⟨source, hread, hcss⟩ := compileFile_eq_ok_iff.1 (congrArg Prod.snd hcompile)
      rw [hentry] at hread
      dsimp only
      unfold storeAll
      -- The output is stored first, and only then the record that vouches for it.
      rcases hstore : store d plan.outDir job.output (Text.utf8 css) with ⟨d₁, _ | failure⟩
      · obtain ⟨d₀, hmake, hwrite⟩ := store_success hstore
        dsimp only
        rcases hstore' : store d₁ (Project.recordDirectory plan.base) job.record record.encode
          with ⟨d', _ | failure⟩
        · obtain ⟨d₂, hmake', hwrite'⟩ := store_success hstore'
          exact .built hjob hrecord hread hcss hmake hwrite hmake' hwrite'
        · exact .unrecorded hjob hmake hwrite hstore'
      · exact .stopped (store_failure hstore)

theorem turn_buildEntry (plan : Plan) (d : Disk) (entry : Path) :
    plan.Turn d entry (plan.buildEntry d entry).disk (plan.buildEntry d entry).result := by
  unfold buildEntry
  split
  · exact .stopped (.refl d)
  · next job hjob =>
    split
    · exact .stopped (.refl d)
    · next record hrecord => exact turn_buildJob hjob hrecord

/-! ## All entries -/

/-- The places of the files that the build of an entry writes. -/
def spots (plan : Plan) (d : Disk) (entry : Path) : List Place :=
  (plan.job entry).toOption.elim []
    fun job => [(d.spot job.output).place, (d.spot job.record).place]

/-- The places of the files that the build of an entry writes, for absolute paths. -/
def places (plan : Plan) (entry : Path) : List Place :=
  (plan.job entry).toOption.elim [] fun job => [job.output.place, job.record.place]

/-- The places of the files that a run says it has written. -/
def written (plan : Plan) (o : Outcome) : List Place :=
  o.built.flatMap fun x => plan.places x.1

theorem spots_eq (hjob : plan.job entry = .ok job) (d : Disk) :
    plan.spots d entry = [(d.spot job.output).place, (d.spot job.record).place] := by
  rw [spots, hjob]
  rfl

theorem spot_job (h : plan.job entry = .ok job) (d : Disk) :
    ∃ stem, entry.stem? = some stem ∧
      d.spot job.output = { place := (d.spot plan.outDir).place ++ [stem ++ ".css"] } ∧
      d.spot job.record =
        { place := (d.spot (Project.recordDirectory plan.base)).place ++ [stem ++ ".meta"] } := by
  obtain ⟨stem, hstem, rfl⟩ := job_eq_ok h
  exact ⟨stem, hstem,
    d.spot_join_name plan.outDir (Path.isName_of_stem? hstem (by decide) (by decide)),
    d.spot_join_name _ (Path.isName_of_stem? hstem (by decide) (by decide))⟩

theorem mem_spots {p : Place} (h : p ∈ plan.spots d entry) :
    ∃ stem, entry.stem? = some stem ∧
      (p = (d.spot plan.outDir).place ++ [stem ++ ".css"] ∨
        p = (d.spot (Project.recordDirectory plan.base)).place ++ [stem ++ ".meta"]) := by
  cases hjob : plan.job entry with
  | error _ => simp [spots, hjob, Except.toOption] at h
  | ok job =>
    obtain ⟨stem, hstem, houtput, hrecord⟩ := spot_job hjob d
    rw [spots_eq hjob, houtput, hrecord] at h
    exact ⟨stem, hstem, by simpa using h⟩

section Names

variable {plan : Plan} {d : Disk} {entry : Path} {stem : String}

theorem css_not_mem_spots (h : entry.stem? ≠ some stem) (p : Place) :
    p ++ [stem ++ ".css"] ∉ plan.spots d entry := by
  intro hmem
  obtain ⟨stem', hstem', houtput | hrecord⟩ := mem_spots hmem
  · have hname := (List.append_inj' houtput rfl).2
    rw [(String.append_left_inj _).1 (List.singleton_inj.1 hname)] at h
    exact h hstem'
  · exact append_css_ne_append_meta _ _ (List.singleton_inj.1 (List.append_inj' hrecord rfl).2)

theorem meta_not_mem_spots (h : entry.stem? ≠ some stem) (p : Place) :
    p ++ [stem ++ ".meta"] ∉ plan.spots d entry := by
  intro hmem
  obtain ⟨stem', hstem', houtput | hrecord⟩ := mem_spots hmem
  · exact append_css_ne_append_meta _ _
      (List.singleton_inj.1 (List.append_inj' houtput rfl).2).symm
  · have hname := (List.append_inj' hrecord rfl).2
    rw [(String.append_left_inj _).1 (List.singleton_inj.1 hname)] at h
    exact h hstem'

theorem manifest_not_mem_spots (p : Place) : p ++ ["icss.toml"] ∉ plan.spots d entry := by
  intro hmem
  -- The names of outputs, of records and of manifests end in different characters.
  obtain ⟨stem', -, houtput | hrecord⟩ := mem_spots hmem
  · have hname := List.singleton_inj.1 (List.append_inj' houtput rfl).2
    have hlast := getLast?_append_css stem'
    rw [← hname] at hlast
    simp at hlast
  · have hname := List.singleton_inj.1 (List.append_inj' hrecord rfl).2
    have hlast := getLast?_append_meta stem'
    rw [← hname] at hlast
    simp at hlast

end Names

def builtBy (entry : Path) : BuildResult → List (Path × Path)
  | .built output => [(entry, output)]
  | _ => []

/-- Only files of an entry are written in its build, where they were before directories were
lost. -/
theorem Turn.adds_of_sinks {was : Disk} (hwas : was.cwd.Sinks d.cwd)
    (h : plan.Turn d entry d' result) :
    Disk.Adds (plan.spots was entry) d d' := by
  cases h with
  | stopped hadds => exact hadds.mono (List.nil_subset _)
  | upToDate => exact (Disk.Adds.refl d).mono (List.nil_subset _)
  | unrecorded hjob hmake hwrite hstore =>
    have houtput := hmake.trans (Disk.adds_write_of_sinks (hmake.sinks hwas) hwrite)
    refine (houtput.trans (store_failure hstore)).mono ?_
    simp [spots_eq hjob]
  | built hjob _ _ _ hmake hwrite hmake' hwrite' =>
    -- Two files are written, each after the directories that it needs.
    have houtput := hmake.trans (Disk.adds_write_of_sinks (hmake.sinks hwas) hwrite)
    have hwas' := hmake'.sinks (houtput.sinks hwas)
    have hrecord := hmake'.trans (Disk.adds_write_of_sinks hwas' hwrite')
    rw [spots_eq hjob]
    exact houtput.trans hrecord

theorem Turn.adds (h : plan.Turn d entry d' result) : Disk.Adds (plan.spots d entry) d d' :=
  h.adds_of_sinks (.refl _)

theorem Turn.adds_written (h : plan.Turn d entry d' result) (hresult : result.success = true) :
    Disk.Adds ((builtBy entry result).flatMap fun x => plan.spots d x.1) d d' := by
  have hadds := h.adds
  cases h with
  | stopped => simp [BuildResult.success] at hresult
  | upToDate => exact .refl d
  | unrecorded => simp [BuildResult.success] at hresult
  | built =>
    rw [builtBy, List.flatMap_singleton]
    exact hadds

theorem read_output_of_writes {d₀ d₁ d₂ : Disk} {record : Bytes} (hjob : plan.job entry = .ok job)
    (hwrite : d₀.write job.output content = .ok d₁) (hmake : Disk.Adds [] d₁ d₂)
    (hwrite' : d₂.write job.record record = .ok d') : d'.read job.output = .ok content := by
  have hadds := hmake.trans (Disk.adds_write hwrite')
  have houtput := Disk.read_eq_ok_iff.1 (Disk.read_write hwrite)
  -- The record is in another place.
  obtain ⟨stem, -, hspot, hspot'⟩ := spot_job hjob d₁
  rw [hmake.spot, hspot'] at hadds
  refine Disk.read_eq_ok_iff.2 (hadds.entry ?_ houtput)
  rw [hspot, List.nil_append, List.mem_singleton]
  intro heq
  exact append_css_ne_append_meta stem stem (List.singleton_inj.1 (List.append_inj' heq rfl).2)

theorem Turn.read_output {output : Path} (h : plan.Turn d entry d' (.built output)) :
    ∃ job source css, plan.job entry = .ok job ∧ d.readText entry = .ok source ∧
      compile plan.options source = .ok css ∧ d'.read job.output = .ok (Text.utf8 css) := by
  cases h with
  | @built job _ source css _ _ _ _ hjob _ hread hcompile _ hwrite hmake' hwrite' =>
    exact ⟨job, source, css, hjob, hread, hcompile,
      read_output_of_writes hjob hwrite hmake' hwrite'⟩

theorem filterMap_built?_compileFile (d : Disk) (options : Options) (entry : Path) :
    (compileFile d options entry).1.filterMap Notice.built? = [] := by
  unfold compileFile
  split
  · rfl
  · dsimp only
    split
    · exact Event.filterMap_built? _
    · exact Event.filterMap_built? _
    · rw [List.filterMap_append, Event.filterMap_built?]
      simp [Notice.built?]

/-- Before its result, the build of an entry says nothing of outputs that are made. -/
theorem filterMap_built?_buildEntry (plan : Plan) (d : Disk) (entry : Path) :
    (plan.buildEntry d entry).notices.filterMap Notice.built? = [] := by
  unfold buildEntry
  split
  · rfl
  · next job hjob =>
    split
    · rfl
    · next record hrecord =>
      -- The notices are of a stale record, of the compiler and of the file that was written.
      have hcompiled := filterMap_built?_compileFile d plan.options job.entry
      have hstale : (if d.has job.record then [Notice.log (.stale job.record)] else []).filterMap
          Notice.built? = [] := by
        split <;> rfl
      unfold buildJob
      split
      · rfl
      · dsimp only
        split
        · rw [List.filterMap_append, hstale, hcompiled, List.append_nil]
        · split
          · rw [List.filterMap_append, hstale, hcompiled, List.append_nil]
          · rw [List.filterMap_append, List.filterMap_append, hstale, hcompiled]
            rfl

theorem built_buildAll_cons (plan : Plan) (d : Disk) (entry : Path) (rest : List Path) :
    (plan.buildAll d (entry :: rest)).built =
      builtBy entry (plan.buildEntry d entry).result ++
        (plan.buildAll (plan.buildEntry d entry).disk rest).built := by
  have hresult : [(plan.buildEntry d entry).result.notice entry].filterMap Notice.built? =
      builtBy entry (plan.buildEntry d entry).result := by
    cases (plan.buildEntry d entry).result <;> rfl
  simp only [Outcome.built, buildAll, List.filterMap_append, filterMap_built?_buildEntry, hresult,
    List.nil_append]

/-- A build goes on after its first entries as one that starts there. -/
theorem buildAll_append (plan : Plan) (d : Disk) (front rest : List Path) :
    (plan.buildAll d (front ++ rest)).disk =
        (plan.buildAll (plan.buildAll d front).disk rest).disk ∧
      (plan.buildAll d (front ++ rest)).success =
        ((plan.buildAll d front).success &&
          (plan.buildAll (plan.buildAll d front).disk rest).success) ∧
      (plan.buildAll d (front ++ rest)).built =
        (plan.buildAll d front).built ++
          (plan.buildAll (plan.buildAll d front).disk rest).built := by
  induction front generalizing d with
  | nil => exact ⟨rfl, rfl, rfl⟩
  | cons entry front ih =>
    obtain ⟨hdisk, hsuccess, hbuilt⟩ := ih (plan.buildEntry d entry).disk
    rw [List.cons_append, built_buildAll_cons, built_buildAll_cons, hbuilt, List.append_assoc]
    simp only [buildAll, hdisk, hsuccess, Bool.and_assoc]
    exact ⟨trivial, trivial, trivial⟩

theorem spots_of_adds {places : List Place} (h : Disk.Adds places d d') :
    plan.spots d' = plan.spots d := by
  funext entry
  rw [spots, spots, h.spot]

theorem adds_buildAll_of_sinks (plan : Plan) {was : Disk} (hwas : was.cwd.Sinks d.cwd)
    (entries : List Path) :
    Disk.Adds (entries.flatMap (plan.spots was)) d (plan.buildAll d entries).disk := by
  induction entries generalizing d with
  | nil => exact .refl d
  | cons entry rest ih =>
    have hfirst := (plan.turn_buildEntry d entry).adds_of_sinks hwas
    have hrest := ih (hfirst.sinks hwas)
    rw [List.flatMap_cons]
    exact hfirst.trans hrest

theorem adds_buildAll (plan : Plan) (d : Disk) (entries : List Path) :
    Disk.Adds (entries.flatMap (plan.spots d)) d (plan.buildAll d entries).disk :=
  plan.adds_buildAll_of_sinks (.refl _) entries

theorem adds_written_buildAll {entries : List Path} (h : (plan.buildAll d entries).success = true) :
    Disk.Adds ((plan.buildAll d entries).built.flatMap fun x => plan.spots d x.1) d
      (plan.buildAll d entries).disk := by
  induction entries generalizing d with
  | nil => exact .refl d
  | cons entry rest ih =>
    -- All entries went well, so nothing was written by one that failed halfway.
    obtain ⟨hfirst, hrest⟩ := Bool.and_eq_true_iff.1 h
    have hturn := (plan.turn_buildEntry d entry).adds_written hfirst
    have hmore := ih hrest
    rw [spots_of_adds hturn] at hmore
    rw [built_buildAll_cons, List.flatMap_append]
    exact hturn.trans hmore

end Plan

/-! ## Cleaning -/

theorem Project.drops_removeIfThere (d : Disk) (path : Path) :
    Disk.Drops d (Project.removeIfThere d path).1 := by
  have hdrops := Disk.drops_removeDirectory d path
  unfold Project.removeIfThere
  split
  · split <;> simp_all
  · exact .refl d

theorem Plan.drops_clean (plan : Plan) (d : Disk) : Disk.Drops d (plan.clean d).1 := by
  have hrecords := Project.drops_removeIfThere d (Project.recordDirectory plan.base)
  unfold Plan.clean Project.clean
  split
  · next d' failure h =>
    rw [h] at hrecords
    exact hrecords
  · next d' h =>
    rw [h] at hrecords
    exact hrecords.trans (Project.drops_removeIfThere d' plan.outDir)

theorem Project.isName_icss : Place.IsName ".icss" :=
  ⟨by decide, by decide, by decide⟩

theorem Project.isName_build : Place.IsName "build" :=
  ⟨by decide, by decide, by decide⟩

theorem Project.isName_manifest : Place.IsName "icss.toml" :=
  ⟨by decide, by decide, by decide⟩

theorem Project.spot_recordDirectory (d : Disk) (base : Path) :
    d.spot (recordDirectory base) = { place := (d.spot base).place ++ [".icss"] ++ ["build"] } := by
  rw [recordDirectory, d.spot_join_name _ isName_build, d.spot_join_name _ isName_icss]

theorem Plan.get?_clean {plan : Plan} {d d' : Disk}
    (hthere : d.has (Project.recordDirectory plan.base) = true) (h : plan.clean d = (d', none))
    {q : Place} (hq : q ≠ []) :
    d'.tree.get? ((d.spot (Project.recordDirectory plan.base)).place ++ q) = none := by
  have hlost : (d.spot (Project.recordDirectory plan.base)).lost = 0 := by
    rw [Project.spot_recordDirectory]
  unfold Plan.clean Project.clean Project.removeIfThere at h
  rw [if_pos hthere] at h
  rcases hremove : d.removeDirectory (Project.recordDirectory plan.base) with ⟨d₁, _ | e⟩
  · -- The records are removed first, and removing the outputs brings nothing back.
    rw [hremove] at h
    have hdrops := Project.drops_removeIfThere d₁ plan.outDir
    have hd' : (Project.removeIfThere d₁ plan.outDir).1 = d' := congrArg Prod.fst h
    rw [hd'] at hdrops
    rcases hdrops.removes ((d.spot (Project.recordDirectory plan.base)).place ++ q) with
      heq | hnone
    · rw [heq]
      exact Disk.get?_removeDirectory hlost hremove hq
    · exact hnone
  · simp [hremove] at h

/-! ## Runs -/

namespace Project

/-- The arguments ask for a build of the entries `paths` by `plan`, which starts, after cleaning if
that is asked for too, from the disk `start`. -/
inductive Building (d : Disk) : List String → Plan → Disk → List Path → Prop
  | mk {words : List String} {arguments : Arguments} {project : Project} {paths : List Path}
      {start : Disk} (hread : Arguments.read true (isProject d) words = .ok arguments)
      (hload : load d arguments.manifestPath = .ok project)
      (hentries : entries arguments.entry project.manifest (project.base d) = .ok paths)
      (hstart : if arguments.clean then
          (project.plan d arguments.selectBranches).clean d = (start, none) else start = d) :
      Building d ("build" :: words) (project.plan d arguments.selectBranches) start paths

/-- The build that the arguments ask for, as it is computed. -/
def building? (d : Disk) : List String → Option (Plan × Disk × List Path)
  | "build" :: words => do
    let arguments ← (Arguments.read true (isProject d) words).toOption
    let project ← (load d arguments.manifestPath).toOption
    let paths ← (entries arguments.entry project.manifest (project.base d)).toOption
    let plan := project.plan d arguments.selectBranches
    if arguments.clean then
      match plan.clean d with
      | (start, none) => some (plan, start, paths)
      | (_, some _) => none
    else some (plan, d, paths)
  | _ => none

theorem building?_eq_some_iff {d : Disk} {args : List String} {plan : Plan} {start : Disk}
    {paths : List Path} :
    building? d args = some (plan, start, paths) ↔ Building d args plan start paths := by
  constructor
  · intro h
    unfold building? at h
    split at h
    · next words =>
      simp only [Option.bind_eq_bind, Option.bind_eq_some_iff, toOption_eq_some_iff] at h
      obtain ⟨arguments, hread, project, hload, paths', hentries, hplan⟩ := h
      split at hplan
      · next hclean =>
        split at hplan
        · next start' hstart =>
          obtain ⟨rfl, rfl, rfl⟩ : _ ∧ _ ∧ _ := by simpa using hplan
          exact .mk hread hload hentries (by rw [if_pos hclean, hstart])
        · simp at hplan
      · next hclean =>
        obtain ⟨rfl, rfl, rfl⟩ : _ ∧ _ ∧ _ := by simpa using hplan
        exact .mk hread hload hentries (by rw [if_neg hclean])
    · simp at h
  · rintro ⟨hread, hload, hentries, hstart⟩
    simp only [building?, hread, hload, hentries, Except.toOption, Option.bind_eq_bind,
      Option.bind_some]
    split at hstart
    · next hclean => simp [hclean, hstart]
    · next hclean => simp [hclean, hstart]

theorem built_concluded (command : Command) (project : Project) (o : Outcome) :
    (concluded command project.loaded o).built = o.built := by
  have hloaded : project.loaded.filterMap Notice.built? = [] := by
    unfold loaded
    cases project.manifest.bind (·.name) <;> rfl
  simp only [Outcome.built, concluded, List.filterMap_append, hloaded, List.nil_append]
  exact List.append_nil _

theorem built_refused (d : Disk) (project : Project) (failure : Failure) :
    (refused d (project.loaded ++ [.failure failure])).built = [] := by
  unfold loaded
  cases project.manifest.bind (·.name) <;> rfl

theorem filterMap_built?_checkEntry (d : Disk) (entry : Path) :
    (checkEntry d entry).1.filterMap Notice.built? = [] := by
  unfold checkEntry
  split
  · rfl
  · dsimp only
    split
    · exact Event.filterMap_built? _
    · next error _ =>
      rw [List.filterMap_append, Event.filterMap_built?]
      cases error <;> simp [CompileError.notices, Notice.built?]

theorem built_check (d : Disk) (paths : List Path) : (check d paths).built = [] := by
  induction paths with
  | nil => rfl
  | cons path rest ih =>
    simp only [Outcome.built, check, List.map_cons, List.flatMap_cons, List.filterMap_append,
      filterMap_built?_checkEntry, List.nil_append]
    exact ih

/-- Nothing is built and things are at most taken away; a build does not end well like this. -/
def Idle (d : Disk) (args : List String) (o : Outcome) : Prop :=
  Disk.Drops d o.disk ∧ o.built = [] ∧ (args.head? = some "build" → o.success = false)

theorem idle_check (d : Disk) (arguments : Arguments) (project : Project) (words : List String) :
    Idle d ("check" :: words) (execute d .check arguments project) := by
  unfold execute
  dsimp only
  split
  · exact ⟨.refl d, built_refused d project _, by simp⟩
  · exact ⟨.refl d, (built_concluded ..).trans (built_check d _), by simp⟩

theorem idle_clean (d : Disk) (arguments : Arguments) (project : Project) (words : List String) :
    Idle d ("clean" :: words) (execute d .clean arguments project) := by
  have hdrops := drops_removeIfThere d (recordDirectory (project.base d))
  unfold execute
  refine ⟨?_, (built_concluded ..).trans ?_, by simp⟩
  · unfold concluded cleanRecords clean
    dsimp only
    split <;> simp_all
  · unfold cleanRecords
    split <;> rfl

theorem execute_build {d : Disk} {words : List String} {arguments : Arguments} {project : Project}
    (hread : Arguments.read true (isProject d) words = .ok arguments)
    (hload : load d arguments.manifestPath = .ok project) :
    Idle d ("build" :: words) (execute d .build arguments project) ∨
      ∃ plan start paths, Building d ("build" :: words) plan start paths ∧ Disk.Drops d start ∧
        (execute d .build arguments project).disk = (plan.buildAll start paths).disk ∧
        (execute d .build arguments project).success = (plan.buildAll start paths).success ∧
        (execute d .build arguments project).built = (plan.buildAll start paths).built := by
  unfold execute
  dsimp only
  split
  · exact .inl ⟨.refl d, built_refused d project _, fun _ => rfl⟩
  · next paths hentries =>
    rw [built_concluded]
    unfold concluded Plan.build
    dsimp only
    have hdrops := (project.plan d arguments.selectBranches).drops_clean d
    cases hclean : arguments.clean with
    | false =>
      exact .inr ⟨_, d, paths, .mk hread hload hentries (by simp [hclean]), .refl d, rfl, rfl, rfl⟩
    | true =>
      rcases hstart : (project.plan d arguments.selectBranches).clean d with ⟨start, _ | failure⟩
      · rw [hstart] at hdrops
        exact .inr ⟨_, start, paths, .mk hread hload hentries (by simp [hclean, hstart]), hdrops,
          rfl, rfl, rfl⟩
      · rw [hstart] at hdrops
        let failed : Outcome :=
          { disk := start, success := false, notices := [.failure failure] }
        exact .inl ⟨hdrops, built_concluded .build project failed, fun _ => rfl⟩

theorem run_cases (d : Disk) (args : List String) :
    Idle d args (run d args) ∨
      ∃ plan start paths, Building d args plan start paths ∧ Disk.Drops d start ∧
        (run d args).disk = (plan.buildAll start paths).disk ∧
        (run d args).success = (plan.buildAll start paths).success ∧
        (run d args).built = (plan.buildAll start paths).built := by
  unfold run
  split
  · exact .inl ⟨.refl d, rfl, fun _ => rfl⟩
  · next name words =>
    split
    · exact .inl ⟨.refl d, rfl, fun _ => rfl⟩
    · next command hcommand =>
      split
      · exact .inl ⟨.refl d, rfl, fun _ => rfl⟩
      · next arguments hread =>
        split
        · exact .inl ⟨.refl d, rfl, fun _ => rfl⟩
        · next project hload =>
          have hname : command.name = name := by simpa using List.find?_some hcommand
          subst hname
          cases command with
          | build => exact execute_build hread hload
          | check => exact .inl (idle_check d arguments project words)
          | clean => exact .inl (idle_clean d arguments project words)

end Project

end TypedStyle
