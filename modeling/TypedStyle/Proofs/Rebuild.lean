import TypedStyle.Proofs.BuildCache
import TypedStyle.Proofs.BuildInputs
import TypedStyle.Proofs.BuildOrder

/-!
# Building again

A build that went well leaves nothing to do. The record that it has written for an entry is the one
that the next build of the entry makes, as long as what goes into it is still there: the source and
the manifest. No other entry of the build writes over the stylesheet or the record.
-/

namespace TypedStyle

namespace Disk

/-! ## What is found later -/

section Adds

variable {places : List Place} {d d' : Disk} (h : Adds places d d') {path : Path}

include h

theorem Adds.read_of_read {content : Bytes} (hplace : (d.spot path).place ∉ places)
    (hread : d.read path = .ok content) : d'.read path = .ok content :=
  read_eq_ok_iff.2 (h.entry hplace (read_eq_ok_iff.1 hread))

theorem Adds.isDirectory_of_isDirectory (hpath : d.isDirectory path = true) :
    d'.isDirectory path = true := by
  have hentry := isDirectory_iff.1 hpath
  refine isDirectory_iff.2 (entry_mono h.cwd (fun _ => h.writes.directory) hentry ?_)
  exact Standpoint.entry?_mono h.writes.directory (entry_eq_ok hentry)

/-- What is there may be written over, but it is not taken away. -/
theorem Adds.has_of_has (hpath : d.has path = true) : d'.has path = true := by
  obtain ⟨e, he⟩ := has_iff.1 hpath
  have hentry := entry_eq_ok he
  have hthere : ∃ e', Standpoint.entry? (d.spot path) d'.tree = some e' := by
    unfold Standpoint.entry? at hentry ⊢
    split at hentry
    · next hlost =>
      rw [if_pos hlost]
      rcases h.writes (d.spot path).place with heq | ⟨hnone, -⟩ | ⟨-, -, content, hfile⟩
      · exact ⟨e, heq.trans hentry⟩
      · rw [hnone] at hentry
        cases hentry
      · exact ⟨_, hfile⟩
    · next hlost =>
      rw [if_neg hlost]
      exact ⟨e, hentry⟩
  obtain ⟨e', he'⟩ := hthere
  exact has_iff.2 ⟨e', entry_mono h.cwd (fun _ => h.writes.directory) he he'⟩

end Adds

theorem stands_of_has_join {d : Disk} {dir : Path} {name : String} (hname : Place.IsName name)
    (h : d.has (dir.join ⟨name⟩) = true) : d.Stands dir := by
  have hrelative := Path.not_isAbsolute_of_no_slash hname.no_slash
  obtain ⟨e, he⟩ := has_iff.1 h
  have hwalk := walk_filter (walk_of_entry he).2
  rw [← Path.steps, Path.steps_join dir hrelative, Path.steps_name hname, origin,
    Path.isAbsolute_join_of_relative dir hrelative, ← origin] at hwalk
  obtain ⟨s, hfront, hstep⟩ := walk_concat_eq_ok hwalk
  obtain rfl : s = d.spot dir := by
    rw [(walk_eq_ok hfront).1, Path.foldl_steps, spot]
  exact ⟨hfront, (step_eq_ok hstep).2.1⟩

end Disk

namespace Arguments

/-! ## The same arguments -/

section

variable {allowClean : Bool} {isProject isProject' : Path → Bool}

theorem single_congr (found : Arguments) {word : String}
    (h : isProject' ⟨word⟩ = isProject ⟨word⟩) :
    readFrom.single allowClean isProject' found word =
      readFrom.single allowClean isProject found word := by
  simp only [readFrom.single, addPlain, h]

/-- Arguments are read alike if the same words are taken for project directories. -/
theorem readFrom_congr (found : Arguments) (words : List String)
    (h : ∀ word ∈ words, isProject' ⟨word⟩ = isProject ⟨word⟩) :
    readFrom allowClean isProject' found words = readFrom allowClean isProject found words := by
  fun_induction readFrom allowClean isProject found words with
  | case1 => rfl
  | case2 found text hoption => rw [readFrom, if_pos hoption]
  | case3 found text hoption =>
    rw [readFrom, if_neg hoption]
    exact single_congr found (h text List.mem_cons_self)
  | case4 found next rest ih =>
    rw [readFrom, if_pos rfl]
    exact ih fun word hword => h word (by simp [hword])
  | case5 found next rest hother ih =>
    rw [readFrom, if_neg hother, if_pos rfl]
    exact ih fun word hword => h word (by simp [hword])
  | case6 found text next rest hmanifest hfile e he =>
    rw [readFrom, if_neg hmanifest, if_neg hfile, single_congr found (h text List.mem_cons_self),
      he]
  | case7 found text next rest hmanifest hfile found' hfound' ih =>
    rw [readFrom, if_neg hmanifest, if_neg hfile, single_congr found (h text List.mem_cons_self),
      hfound']
    exact ih fun word hword => h word (List.mem_cons_of_mem _ hword)

end

end Arguments

namespace Plan

variable {entries : List Path}

/-! ## One entry -/

/-- The build of an entry finds nothing to do. -/
def UpToDate (plan : Plan) (d : Disk) (entry : Path) : Prop :=
  ∃ job record, plan.job entry = .ok job ∧ plan.record d entry = .ok record ∧
    isUpToDate d job record = true

/-- What the record of an entry is made of is still there: the source, and the manifest if there was
one. -/
structure Keeps (plan : Plan) (entry : Path) (d d' : Disk) : Prop where
  source : ∀ content, d.read entry = .ok content → d'.read entry = .ok content
  has_manifest : ∀ path ∈ plan.manifest, d'.has path = d.has path
  manifest : ∀ path ∈ plan.manifest, ∀ content, d.read path = .ok content →
    d'.read path = .ok content

variable {plan : Plan} {d d' : Disk} {entry : Path} {places : List Place}

theorem UpToDate.buildEntry (h : plan.UpToDate d entry) :
    plan.buildEntry d entry = { disk := d, notices := [], result := .upToDate } := by
  obtain ⟨job, record, hjob, hrecord, hcurrent⟩ := h
  unfold Plan.buildEntry
  rw [hjob, hrecord]
  exact if_pos hcurrent

theorem fileHash_of_read {path : Path} {content : Bytes} (h : d.read path = .ok content) :
    fileHash d path = .ok (Digest.sha256Hex content) := by
  rw [fileHash, h]

theorem Keeps.manifestHash (h : plan.Keeps entry d d') {hash : Option String}
    (hhash : plan.manifestHash d = .ok hash) : plan.manifestHash d' = .ok hash := by
  unfold Plan.manifestHash at hhash ⊢
  cases hpath : plan.manifest with
  | none => rwa [hpath] at hhash
  | some path =>
    rw [hpath] at hhash
    dsimp only at hhash ⊢
    rw [h.has_manifest path hpath]
    split at hhash
    · next hthere =>
      rw [if_pos hthere]
      cases hfile : fileHash d path with
      | error e =>
        rw [hfile] at hhash
        cases hhash
      | ok digest =>
        obtain ⟨content, hread, rfl⟩ := fileHash_eq_ok hfile
        rw [fileHash_of_read (h.manifest path hpath content hread), ← hfile]
        exact hhash
    · next hthere =>
      rw [if_neg hthere]
      exact hhash

theorem Keeps.record (h : plan.Keeps entry d d') {record : BuildRecord}
    (hrecord : plan.record d entry = .ok record) : plan.record d' entry = .ok record := by
  unfold Plan.record at hrecord ⊢
  cases hsource : fileHash d entry with
  | error e =>
    rw [hsource] at hrecord
    cases hrecord
  | ok digest =>
    obtain ⟨content, hread, rfl⟩ := fileHash_eq_ok hsource
    rw [fileHash_of_read (h.source content hread)]
    rw [hsource] at hrecord
    cases hhash : plan.manifestHash d with
    | error e =>
      rw [hhash] at hrecord
      cases hrecord
    | ok hash =>
      rw [h.manifestHash hhash]
      rw [hhash] at hrecord
      exact hrecord

theorem keeps_of_adds (h : Disk.Adds places d d') (hsource : (d.spot entry).place ∉ places)
    (hmanifest : ∀ path ∈ plan.manifest, (d.spot path).place ∉ places)
    (hhas : ∀ path ∈ plan.manifest, d'.has path = true → d.has path = true) :
    plan.Keeps entry d d' where
  source _ := h.read_of_read hsource
  has_manifest path hpath := Bool.eq_iff_iff.2 ⟨hhas path hpath, h.has_of_has⟩
  manifest path hpath _ := h.read_of_read (hmanifest path hpath)

theorem UpToDate.adds (h : plan.UpToDate d entry) (hadds : Disk.Adds places d d')
    (hkeeps : plan.Keeps entry d d')
    (hplace : ∀ job, plan.job entry = .ok job → (d.spot job.record).place ∉ places) :
    plan.UpToDate d' entry := by
  obtain ⟨job, record, hjob, hrecord, hcurrent⟩ := h
  obtain ⟨houtput, hkept⟩ := Bool.and_eq_true_iff.1 hcurrent
  refine ⟨job, record, hjob, hkeeps.record hrecord, Bool.and_eq_true_iff.2 ⟨?_, ?_⟩⟩
  · exact hadds.has_of_has houtput
  · obtain ⟨content, hread, hdecode⟩ := kept?_eq_some_iff.1 (beq_iff_eq.1 hkept)
    exact beq_iff_eq.2 (kept?_eq_some_iff.2
      ⟨content, hadds.read_of_read (hplace job hjob) hread, hdecode⟩)

theorem upToDate_buildEntry (h : (plan.buildEntry d entry).result.success = true)
    (hkeeps : plan.Keeps entry d (plan.buildEntry d entry).disk) :
    plan.UpToDate (plan.buildEntry d entry).disk entry := by
  have hturn := plan.turn_buildEntry d entry
  generalize plan.buildEntry d entry = b at h hkeeps hturn ⊢
  obtain ⟨d', notices, result⟩ := b
  dsimp only at h hkeeps hturn ⊢
  cases hturn with
  | stopped => cases h
  | unrecorded => cases h
  | upToDate hjob hrecord houtput hkept =>
    exact ⟨_, _, hjob, hrecord, Bool.and_eq_true_iff.2 ⟨houtput, beq_iff_eq.2 hkept⟩⟩
  | built hjob hrecord _ _ _ hwrite hmake hwrite' =>
    have houtput := Disk.read_eq_ok_iff.1 (read_output_of_writes hjob hwrite hmake hwrite')
    obtain ⟨content, hread, rfl⟩ := record_eq_ok hrecord
    refine ⟨_, _, hjob, hkeeps.record hrecord, Bool.and_eq_true_iff.2 ⟨?_, beq_iff_eq.2 ?_⟩⟩
    · exact Disk.has_iff.2 ⟨_, houtput⟩
    · exact kept?_eq_some_iff.2
        ⟨_, Disk.read_write hwrite', decode?_encode_recordOf hread _ _⟩

/-! ## All entries -/

theorem buildAll_of_upToDate (h : ∀ entry ∈ entries, plan.UpToDate d entry) :
    plan.buildAll d entries =
      { disk := d, success := true
        notices := entries.map fun entry => .progress .build (.upToDate entry) } := by
  induction entries with
  | nil => rfl
  | cons entry rest ih =>
    have hfirst := (h entry List.mem_cons_self).buildEntry
    have hrest := ih fun other hother => h other (List.mem_cons_of_mem _ hother)
    simp only [buildAll, hfirst, hrest]
    rfl

/-- The places of the files that a run says it has written. -/
def writtenIn (plan : Plan) (d : Disk) (o : Outcome) : List Place :=
  o.built.flatMap fun x => plan.spots d x.1

theorem writtenIn_buildAll_cons (plan : Plan) (d : Disk) (entry : Path) (rest : List Path) :
    plan.writtenIn d (plan.buildAll d (entry :: rest)) =
      ((builtBy entry (plan.buildEntry d entry).result).flatMap fun x => plan.spots d x.1) ++
        plan.writtenIn (plan.buildEntry d entry).disk
          (plan.buildAll (plan.buildEntry d entry).disk rest) := by
  rw [writtenIn, writtenIn, built_buildAll_cons, List.flatMap_append,
    spots_of_adds (plan.turn_buildEntry d entry).adds]

theorem manifest_not_mem_spots_built (hname : ∀ path ∈ plan.manifest, ∃ dir : Path,
    path = dir.join Project.manifestName) (d was : Disk) (built : List (Path × Path)) :
    ∀ path ∈ plan.manifest, (d.spot path).place ∉ built.flatMap fun x => plan.spots was x.1 := by
  intro path hpath hmem
  obtain ⟨dir, rfl⟩ := hname path hpath
  obtain ⟨x, -, hx⟩ := List.mem_flatMap.1 hmem
  rw [Project.manifestName, d.spot_join_name dir Project.isName_manifest] at hx
  exact manifest_not_mem_spots _ hx

theorem mem_of_built {x : Path × Path} (h : x ∈ (plan.buildAll d entries).built) :
    x.1 ∈ entries := by
  induction entries generalizing d with
  | nil => simp [buildAll, Outcome.built] at h
  | cons entry rest ih =>
    rw [built_buildAll_cons, List.mem_append] at h
    rcases h with hfirst | hrest
    · cases hresult : (plan.buildEntry d entry).result with
      | built output =>
        rw [hresult, builtBy, List.mem_singleton] at hfirst
        simp [hfirst]
      | _ => simp [hresult, builtBy] at hfirst
    · exact List.mem_cons_of_mem _ (ih hrest)

theorem record_not_mem_writtenIn {job : Job} {rest : List Path}
    (hstems : ((entry :: rest).filterMap Path.stem?).Nodup) (hjob : plan.job entry = .ok job)
    (d : Disk) : (d.spot job.record).place ∉ plan.writtenIn d (plan.buildAll d rest) := by
  obtain ⟨stem, hstem, -, hspot⟩ := spot_job hjob d
  intro hmem
  obtain ⟨x, hx, hplace⟩ := List.mem_flatMap.1 hmem
  rw [hspot] at hplace
  have hall : (([] ++ entry :: rest).filterMap Path.stem?).Nodup := hstems
  have hother := stem?_ne_of_nodup hall (.inr (mem_of_built hx)) hstem
  exact meta_not_mem_spots hother _ hplace

/-- After a build that went well all its entries are up to date. The entries have different stems,
no source is written over and no manifest appears. -/
theorem upToDate_buildAll
    (hname : ∀ path ∈ plan.manifest, ∃ dir : Path, path = dir.join Project.manifestName)
    (hstems : (entries.filterMap Path.stem?).Nodup)
    (hsuccess : (plan.buildAll d entries).success = true)
    (hsources : ∀ entry ∈ entries,
      (d.spot entry).place ∉ plan.writtenIn d (plan.buildAll d entries))
    (hhas : ∀ path ∈ plan.manifest,
      (plan.buildAll d entries).disk.has path = true → d.has path = true) :
    ∀ entry ∈ entries, plan.UpToDate (plan.buildAll d entries).disk entry := by
  induction entries generalizing d with
  | nil => simp
  | cons entry rest ih =>
    obtain ⟨hfirst, hrest⟩ := Bool.and_eq_true_iff.1 hsuccess
    have hadds := (plan.turn_buildEntry d entry).adds_written hfirst
    have hadds' := adds_written_buildAll hrest
    have hspot := hadds.spot
    -- What is found of the manifest in the end is found after the first entry and before it.
    have hlater : ∀ path ∈ plan.manifest,
        (plan.buildAll (plan.buildEntry d entry).disk rest).disk.has path = true →
          (plan.buildEntry d entry).disk.has path = true :=
      fun path hpath hthere => hadds.has_of_has (hhas path hpath hthere)
    have hearlier : ∀ path ∈ plan.manifest,
        (plan.buildEntry d entry).disk.has path = true → d.has path = true :=
      fun path hpath hthere => hhas path hpath (hadds'.has_of_has hthere)
    rw [writtenIn_buildAll_cons] at hsources
    have hsource := fun other hother =>
      not_or.1 (mt List.mem_append.2 (hsources other hother))
    show ∀ other ∈ entry :: rest,
      plan.UpToDate (plan.buildAll (plan.buildEntry d entry).disk rest).disk other
    refine List.forall_mem_cons.2 ⟨?_, ?_⟩
    · -- The first entry is up to date after its own build, and stays so.
      obtain ⟨hown, hothers⟩ := hsource entry List.mem_cons_self
      have hbuilt : plan.UpToDate (plan.buildEntry d entry).disk entry :=
        upToDate_buildEntry hfirst (keeps_of_adds hadds hown
          (manifest_not_mem_spots_built hname _ _ _) hearlier)
      refine hbuilt.adds hadds' (keeps_of_adds hadds' (by rwa [hspot])
        (manifest_not_mem_spots_built hname _ _ _) hlater) fun job hjob => ?_
      exact record_not_mem_writtenIn hstems hjob _
    · have hstems' := List.Nodup.sublist ((List.sublist_cons_self _ _).filterMap _) hstems
      refine ih hstems' hrest (fun other hother => ?_) hlater
      rw [hspot]
      exact (hsource other (List.mem_cons_of_mem _ hother)).2

end Plan

namespace Project

/-! ## The same build -/

/-- Where a build looks for a manifest of the usual name: in directories that the arguments name,
in the working directory and around it if they name no manifest, and in the directory of the
project. -/
def lookouts (d : Disk) (words : List String) : List Path :=
  let arguments := (Arguments.read true (isProject d) words).toOption
  let around := if (arguments.bind (·.manifestPath)).isNone then d.cwdPath :: d.cwdPath.parents
    else []
  (words.map Path.mk ++ around).map (·.join manifestName) ++
    (request? d words).elim [] fun r => r.plan.manifest.toList

variable {d d' : Disk} {words : List String} {r : BuildRequest} {places : List Place}

/-- What the arguments of a build ask for, step by step. -/
theorem request?_eq_some_iff :
    request? d words = some r ↔ ∃ arguments project,
      Arguments.read true (isProject d) words = .ok arguments ∧
      load d arguments.manifestPath = .ok project ∧
      entries arguments.entry project.manifest (project.base d) = .ok r.entries ∧
      r.plan = project.plan d arguments.selectBranches ∧ r.clean = arguments.clean := by
  obtain ⟨plan, clean, paths⟩ := r
  simp only [request?, Option.bind_eq_bind, Option.bind_eq_some_iff, toOption_eq_some_iff,
    Option.pure_def, Option.some.injEq, BuildRequest.mk.injEq]
  constructor
  · rintro ⟨arguments, hread, project, hload, _, hentries, rfl, rfl, rfl⟩
    exact ⟨arguments, project, hread, hload, hentries, rfl, rfl⟩
  · rintro ⟨arguments, project, hread, hload, hentries, rfl, rfl⟩
    exact ⟨arguments, hread, project, hload, paths, hentries, rfl, rfl, rfl⟩

theorem exists_manifest_eq (h : request? d words = some r) :
    ∀ path ∈ r.plan.manifest, ∃ dir : Path, path = dir.join manifestName := by
  obtain ⟨arguments, project, -, -, -, hplan, -⟩ := request?_eq_some_iff.1 h
  intro path hpath
  rw [hplan] at hpath
  obtain ⟨dir, -, rfl⟩ := Option.map_eq_some_iff.1 hpath
  exact ⟨dir, rfl⟩

theorem mem_inputs_of_mem_entries (h : request? d words = some r) {entry : Path}
    (hentry : entry ∈ r.entries) : entry ∈ inputs d words := by
  refine List.mem_append_right _ ?_
  rw [h]
  exact hentry

theorem mem_lookouts_of_mem_manifest (h : request? d words = some r) {path : Path}
    (hpath : path ∈ r.plan.manifest) : path ∈ lookouts d words := by
  refine List.mem_append_right _ ?_
  rw [h]
  exact Option.mem_toList.2 hpath

section Later

variable (h : Disk.Adds places d d')

include h

theorem isProject_of_adds {path : Path}
    (hnew : d'.has (path.join manifestName) = true → d.has (path.join manifestName) = true) :
    isProject d' path = isProject d path := by
  rw [Bool.eq_iff_iff, isProject, isProject, Bool.and_eq_true, Bool.and_eq_true]
  constructor
  · rintro ⟨hdirectory, hmanifest⟩
    -- The directory was there if something was in it.
    have hbefore := hnew hmanifest
    have hstands := Disk.stands_of_has_join isName_manifest hbefore
    have hrefusal := (Disk.walk_of_entry (Disk.isDirectory_iff.1 hdirectory)).1
    exact ⟨Disk.isDirectory_iff.2 (Disk.entry_of_stands hstands hrefusal), hbefore⟩
  · rintro ⟨hdirectory, hmanifest⟩
    exact ⟨h.isDirectory_of_isDirectory hdirectory, h.has_of_has hmanifest⟩

theorem nearestManifest_of_adds
    (hnew : ∀ dir ∈ d.cwdPath :: d.cwdPath.parents,
      d'.has (dir.join manifestName) = true → d.has (dir.join manifestName) = true) :
    nearestManifest d' = nearestManifest d := by
  have hcwd : d'.cwdPath = d.cwdPath := by rw [Disk.cwdPath, Disk.cwdPath, h.cwd]
  rw [nearestManifest, nearestManifest, hcwd]
  generalize d.cwdPath :: d.cwdPath.parents = dirs at hnew
  induction dirs with
  | nil => rfl
  | cons dir rest ih =>
    have hrest := ih fun other hother => hnew other (List.mem_cons_of_mem _ hother)
    have hhas : d'.has (dir.join manifestName) = d.has (dir.join manifestName) :=
      Bool.eq_iff_iff.2 ⟨hnew dir List.mem_cons_self, h.has_of_has⟩
    simp only [List.map_cons, List.find?_cons, hhas, hrest]

theorem load_of_adds {asked : Option Path} {project : Project}
    (hload : load d asked = .ok project)
    (hnew : asked = none → ∀ dir ∈ d.cwdPath :: d.cwdPath.parents,
      d'.has (dir.join manifestName) = true → d.has (dir.join manifestName) = true)
    (hplace : ∀ x ∈ locate d asked, (d.spot x.1).place ∉ places) :
    load d' asked = .ok project := by
  rcases load_eq_ok hload with ⟨hnone, rfl⟩ |
    ⟨path, directory, text, manifest, hfound, htext, hparse, rfl⟩
  · -- Without a manifest, none was asked for.
    cases asked with
    | none =>
      have hlocate : locate d' none = none := by
        rw [locate, nearestManifest_of_adds h (hnew rfl)]
        exact hnone
      rw [load, hlocate]
    | some path =>
      cases hdirectory : d.isDirectory path <;> simp [locate, hdirectory] at hnone
  · obtain ⟨content, hcontent, hutf8⟩ := Disk.readText_eq_ok_iff.1 htext
    have hcontent' := h.read_of_read (hplace (path, directory) hfound) hcontent
    have hlocate : locate d' asked = some (path, directory) := by
      rw [← hfound]
      cases asked with
      | none => rw [locate, locate, nearestManifest_of_adds h (hnew rfl)]
      | some named =>
        cases hdirectory : d.isDirectory named with
        | true => simp only [locate, hdirectory, h.isDirectory_of_isDirectory hdirectory]
        | false =>
          -- What was read is not a directory now.
          obtain ⟨rfl, -⟩ : named = path ∧ named.parent? = directory := by
            simpa [locate, hdirectory] using hfound
          have hfile : d'.isDirectory named = false := by
            rw [Disk.isDirectory, Disk.read_eq_ok_iff.1 hcontent']
          simp only [locate, hdirectory, hfile]
    have htext' := Disk.readText_eq_ok_iff.2 ⟨content, hcontent', hutf8⟩
    simp only [load, hlocate, htext', hparse]

/-- Arguments ask for the same build later on. -/
theorem request?_of_adds (hrequest : request? d words = some r)
    (hnew : ∀ path ∈ lookouts d words, d'.has path = true → d.has path = true)
    (hinputs : ∀ path ∈ inputs d words, (d.spot path).place ∉ places) :
    request? d' words = some r := by
  obtain ⟨arguments, project, hread, hload, hentries, hplan, hclean⟩ :=
    request?_eq_some_iff.1 hrequest
  have hbase : project.base d' = project.base d := by
    rw [base, base, Disk.cwdPath, Disk.cwdPath, h.cwd]
  refine request?_eq_some_iff.2 ⟨arguments, project, ?_, load_of_adds h hload ?_ ?_, ?_, ?_, hclean⟩
  · rw [← hread]
    refine Arguments.readFrom_congr {} words fun word hword => isProject_of_adds h (hnew _ ?_)
    refine List.mem_append_left _ (List.mem_map_of_mem (List.mem_append_left _ ?_))
    exact List.mem_map_of_mem hword
  · intro hasked dir hdir
    refine hnew _ (List.mem_append_left _ (List.mem_map_of_mem (List.mem_append_right _ ?_)))
    simpa [hread, Except.toOption, hasked] using hdir
  · intro x hx
    refine hinputs x.1 (List.mem_append_left _ (List.mem_map_of_mem ?_))
    simpa [hread, Except.toOption] using hx
  · rw [hbase, hentries]
  · rw [hplan, plan, plan, hbase]

end Later

/-! ## The run -/

theorem run_build_of_request? (h : request? d words = some r) :
    ∃ project : Project, run d ("build" :: words) =
      concluded .build project.loaded (r.plan.build d r.clean r.entries) := by
  obtain ⟨arguments, project, hread, hload, hentries, hplan, hclean⟩ := request?_eq_some_iff.1 h
  have hcommand : Command.ofName? "build" = some .build := by decide
  refine ⟨project, ?_⟩
  simp only [run, hcommand, decide_true, hread, hload, execute, hentries, hplan, hclean]

theorem exists_request (h : (run d ("build" :: words)).exitCode = 0) :
    ∃ r, request? d words = some r := by
  rcases run_cases d ("build" :: words) with ⟨-, -, hfails⟩ | ⟨plan, start, paths, hbuilding, -⟩
  · rw [Outcome.exitCode_eq_zero_iff, hfails rfl] at h
    cases h
  · cases hbuilding with
    | @mk _ arguments project _ _ hread hload hentries _ =>
      exact ⟨⟨project.plan d arguments.selectBranches, arguments.clean, paths⟩,
        request?_eq_some_iff.2 ⟨arguments, project, hread, hload, hentries, rfl, rfl⟩⟩

/-- A build without cleaning of entries with different stems, which writes over nothing that it
starts from and makes no manifest where it looks for one. -/
structure Repeatable (d : Disk) (words : List String) (r : BuildRequest) : Prop where
  clean : r.clean = false
  stems : (r.entries.filterMap Path.stem?).Nodup
  inputs : ∀ path ∈ inputs d words,
    (d.spot path).place ∉ r.plan.writtenIn d (run d ("build" :: words))
  manifests : ∀ path ∈ lookouts d words,
    (run d ("build" :: words)).disk.has path = true → d.has path = true

/-- A build that went well and is run again ends well, reports that each of its entries is up to
date and leaves the disk as it is. -/
theorem build_again {o : Outcome} (ho : o = run d ("build" :: words)) (hexit : o.exitCode = 0) :
    ∃ r, request? d words = some r ∧ (Repeatable d words r →
      ∃ name : Option String, run o.disk ("build" :: words) =
        { disk := o.disk
          success := true
          notices := name.toList.map (fun name => .log (.loaded name)) ++
            r.entries.map (fun entry => .progress .build (.upToDate entry)) ++
            [.progress .build (.done true)] }) := by
  subst ho
  obtain ⟨r, hr⟩ := exists_request hexit
  refine ⟨r, hr, fun hrepeats => ?_⟩
  have hbuild : ∀ d, r.plan.build d r.clean r.entries = r.plan.buildAll d r.entries := by
    intro d
    rw [Plan.build, hrepeats.clean]
    rfl
  obtain ⟨project, hrun⟩ := run_build_of_request? hr
  rw [hbuild] at hrun
  have hdisk : (run d ("build" :: words)).disk = (r.plan.buildAll d r.entries).disk := by
    rw [hrun]
    rfl
  have hsuccess : (r.plan.buildAll d r.entries).success = true := by
    have hwell := Outcome.success_of_exitCode hexit
    rwa [hrun] at hwell
  have hwritten : r.plan.writtenIn d (run d ("build" :: words)) =
      r.plan.writtenIn d (r.plan.buildAll d r.entries) := by
    rw [Plan.writtenIn, Plan.writtenIn, hrun, built_concluded]
  have hinputs := hrepeats.inputs
  have hmanifests := hrepeats.manifests
  rw [hwritten] at hinputs
  rw [hdisk] at hmanifests ⊢
  -- The same is asked for, and all of it is up to date.
  have hadds := Plan.adds_written_buildAll hsuccess
  have hr' := request?_of_adds hadds hr hmanifests hinputs
  obtain ⟨project', hrun'⟩ := run_build_of_request? hr'
  have hcurrent := Plan.upToDate_buildAll (exists_manifest_eq hr) hrepeats.stems hsuccess
    (fun entry hentry => hinputs entry (mem_inputs_of_mem_entries hr hentry))
    (fun path hpath => hmanifests path (mem_lookouts_of_mem_manifest hr hpath))
  rw [hrun', hbuild, Plan.buildAll_of_upToDate hcurrent]
  exact ⟨project'.manifest.bind (·.name), rfl⟩

/-- A project that is built in place writes over an older stylesheet. Then there is nothing to do
for it. -/
theorem build_again_inPlace :
    (run inPlace ["build"]).exitCode = 0 ∧
      (run inPlace ["build"]).built = [(⟨"/p/src/main.icss"⟩, ⟨"/p/src/main.css"⟩)] ∧
      Repeatable inPlace [] ⟨inPlacePlan, false, [⟨"/p/src/main.icss"⟩]⟩ ∧
      ∃ name : Option String, run (run inPlace ["build"]).disk ["build"] =
        { disk := (run inPlace ["build"]).disk
          success := true
          notices := name.toList.map (fun name => .log (.loaded name)) ++
            [.progress .build (.upToDate ⟨"/p/src/main.icss"⟩)] ++
            [.progress .build (.done true)] } := by
  obtain ⟨-, hrequest, -⟩ := request?_inPlace
  obtain ⟨-, hinputs, -⟩ := inputs_inPlace
  have hlookouts : lookouts inPlace [] =
      [⟨"/p/icss.toml"⟩, ⟨"/icss.toml"⟩, ⟨"/p/icss.toml"⟩] := by
    simp only [lookouts, hrequest]
    decide +kernel
  have hrun : (run inPlace ["build"]).exitCode = 0 ∧
      (run inPlace ["build"]).built = [(⟨"/p/src/main.icss"⟩, ⟨"/p/src/main.css"⟩)] ∧
      (run inPlace ["build"]).disk.has ⟨"/icss.toml"⟩ = false := by
    decide +kernel
  obtain ⟨hexit, hbuilt, hhas⟩ := hrun
  have hrepeats : Repeatable inPlace [] ⟨inPlacePlan, false, [⟨"/p/src/main.icss"⟩]⟩ := by
    constructor
    · rfl
    · decide +kernel
    · simp only [hinputs, Plan.writtenIn, hbuilt]
      decide +kernel
    · simp only [hlookouts, List.forall_mem_cons, hhas]
      have hthere : inPlace.has ⟨"/p/icss.toml"⟩ = true := by decide +kernel
      simp [hthere]
  obtain ⟨r, hr, hagain⟩ := build_again rfl hexit
  obtain rfl := Option.some.inj (hrequest.symm.trans hr)
  exact ⟨hexit, hbuilt, hrepeats, hagain hrepeats⟩

/-- A project whose manifest is in the place of an output. -/
def overwritten : Disk where
  tree := ⟨[(["p"], .directory),
    (["p", "a.css"], .file (Text.utf8 "package.entry = 'a.icss'\nbuild.out_dir = '.'")),
    (["p", "a.icss"], .file (Text.utf8 "a \x7b b: 1; \x7d"))]⟩
  cwd := { place := ["p"] }

/-- A build without cleaning of entries with different stems, which writes over none of the sources,
goes well and then fails when it is run again. -/
def FailsAgain (d : Disk) (words : List String) : Prop :=
  ∃ r ∈ request? d words, r.clean = false ∧ (r.entries.filterMap Path.stem?).Nodup ∧
    (∀ entry ∈ r.entries,
      (d.spot entry).place ∉ r.plan.writtenIn d (run d ("build" :: words))) ∧
    (run d ("build" :: words)).exitCode = 0 ∧
    (run (run d ("build" :: words)).disk ("build" :: words)).exitCode = 1

/-- There is such a build: it may write over its manifest, or make a directory for outputs that is
taken for a manifest later on. -/
theorem exists_build_undone :
    FailsAgain overwritten ["--manifest-path", "a.css"] ∧
      FailsAgain misnamed ["--manifest-path", "foo.toml", "a.icss"] := by
  unfold FailsAgain
  decide +kernel

end Project

end TypedStyle
