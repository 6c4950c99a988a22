import TypedStyle.Proofs.BuildCache
import TypedStyle.Proofs.ProjectPlace

/-!
# The outputs of a clean build

A build that starts by cleaning compiles every entry: the records are gone, and `Plan.MadeOf` keeps
track of the entries that have made new ones. So the output of an entry holds what its source
compiles to, until an entry with the same stem writes there (`Project.build_outputs`).

Outputs go by stems alone. Entries of one name in different directories share an output, and only
the stylesheet of the last one is left (`Project.exists_output_lost`).
-/

namespace TypedStyle

/-- The text in the file where a path leads, also if the path cannot be followed there. -/
def Disk.textAt? (d : Disk) (path : Path) : Option String :=
  match Standpoint.entry? (d.spot path) d.tree with
  | some (.file content) => Text.ofUtf8? content
  | _ => none

/-! ## Cleaning -/

theorem Project.refusal?_recordDirectory {base : Path} {name : String} (hname : Place.IsName name)
    (h : Disk.refusal? ((recordDirectory base).join ⟨name⟩) = none) :
    Disk.refusal? (recordDirectory base) = none := by
  have hne : (recordDirectory base).text.isEmpty = false := by
    rw [recordDirectory, Path.join_eq_front _ rfl]
    simp
  obtain ⟨slash, hslash⟩ := (recordDirectory base).exists_front_eq
  rw [Path.join_eq_front _ (Path.not_isAbsolute_of_no_slash hname.no_slash), hslash,
    String.append_assoc] at h
  exact Disk.refusal?_of_append hne h

namespace Plan

variable {plan : Plan} {d d' start : Disk} {entry : Path} {stem : String} {was : Disk}
  {done : List Path}

theorem get?_record_clean (hd : d.Proper) (hclean : plan.clean d = (start, none))
    (hbase : d.Stands plan.base) {name : String} (hname : Place.IsName name)
    (hrefusal : Disk.refusal? ((Project.recordDirectory plan.base).join ⟨name⟩) = none) :
    start.tree.get? ((d.spot (Project.recordDirectory plan.base)).place ++ [name]) = none := by
  have hdrops := plan.drops_clean d
  rw [hclean] at hdrops
  cases hget : start.tree.get? ((d.spot (Project.recordDirectory plan.base)).place ++ [name]) with
  | none => rfl
  | some e =>
    -- What is left was there, and so were the directories around it, which can be reached.
    have hwas := hdrops.removes.get? hget
    have hrecords := hd.wellFormed.directory_of_append (List.cons_ne_nil _ _) hwas
    rw [Project.spot_recordDirectory] at hrecords
    have hicss := hd.wellFormed.directory_of_append (List.cons_ne_nil _ _) hrecords
    have hstands : d.Stands (Project.recordDirectory plan.base) := by
      refine hd.stands_join (hd.stands_join hbase Project.isName_icss (by decide) hicss)
        Project.isName_build (by decide) ?_
      rwa [d.spot_join_name _ Project.isName_icss]
    have hthere : d.has (Project.recordDirectory plan.base) = true :=
      Disk.has_iff.2
        ⟨_, Disk.entry_of_stands hstands (Project.refusal?_recordDirectory hname hrefusal)⟩
    rw [Plan.get?_clean hthere hclean (List.cons_ne_nil _ _)] at hget
    simp at hget

/-! ## Records of a build -/

/-- The records where those of the project were on the disk `was` are all made of the entries
`done`, as far as a disk would follow the paths to them. -/
def MadeOf (plan : Plan) (was : Disk) (done : List Path) (d : Disk) : Prop :=
  ∀ entry job content, plan.job entry = .ok job → Disk.refusal? job.record = none →
    d.tree.get? (was.spot job.record).place = some (.file content) →
    ∃ made ∈ done, ∃ source manifest options,
      BuildRecord.decode? content = some (recordOf made source manifest options)

theorem madeOf_clean (hd : d.Proper) (hclean : plan.clean d = (start, none))
    (hbase : d.Stands plan.base) : plan.MadeOf d [] start := by
  intro entry job content hjob hrefusal hget
  obtain ⟨stem, hstem, rfl⟩ := job_eq_ok hjob
  have hname : Place.IsName (stem ++ ".meta") := Path.isName_of_stem? hstem (by decide) (by decide)
  rw [d.spot_join_name _ hname, get?_record_clean hd hclean hbase hname hrefusal] at hget
  simp at hget

theorem file_of_write_output {job : Job} {d₀ d₁ : Disk} {css content : Bytes} {p : Place}
    (hjob : plan.job entry = .ok job) (hmake : Disk.Adds [] d d₀)
    (hwrite : d₀.write job.output css = .ok d₁)
    (hget : d₁.tree.get? (p ++ [stem ++ ".meta"]) = some (.file content)) :
    d.tree.get? (p ++ [stem ++ ".meta"]) = some (.file content) := by
  have hadds := hmake.trans (Disk.adds_write hwrite)
  refine hadds.writes.file ?_ hget
  obtain ⟨stem', -, hspot, -⟩ := spot_job hjob d₀
  rw [hspot, List.nil_append, List.mem_singleton]
  intro heq
  exact append_css_ne_append_meta _ _ (List.singleton_inj.1 (List.append_inj' heq rfl).2).symm

theorem MadeOf.turn {result : BuildResult} (h : plan.MadeOf was done d)
    (hturn : plan.Turn d entry d' result) :
    plan.MadeOf was (done ++ [entry]) d' := by
  intro entry' job' content hjob' hrefusal hget
  -- A record that was there before was made of an earlier entry.
  have hold : d.tree.get? (was.spot job'.record).place = some (.file content) →
      ∃ made ∈ done ++ [entry], ∃ source manifest options,
        BuildRecord.decode? content = some (recordOf made source manifest options) := by
    intro hwas
    obtain ⟨made, hmade, hrecord⟩ := h entry' job' content hjob' hrefusal hwas
    exact ⟨made, List.mem_append_left _ hmade, hrecord⟩
  obtain ⟨stem, -, -, hspot⟩ := spot_job hjob' was
  rw [hspot] at hold hget
  cases hturn with
  | stopped hadds => exact hold (hadds.writes.file (by simp) hget)
  | upToDate => exact hold hget
  | unrecorded hjob hmake hwrite hstore =>
    have hget₁ := (store_failure hstore).writes.file (by simp) hget
    exact hold (file_of_write_output hjob hmake hwrite hget₁)
  | built hjob hrecord _ _ hmake hwrite hmake' hwrite' =>
    rw [Disk.get?_write hwrite'] at hget
    split at hget
    · -- The record is the one that is written here.
      obtain ⟨source, hread, rfl⟩ := record_eq_ok hrecord
      obtain rfl : content = _ := by simpa using hget.symm
      exact ⟨entry, by simp, source, _, _, decode?_encode_recordOf hread _ _⟩
    · have hget₁ := hmake'.writes.file (by simp) hget
      exact hold (file_of_write_output hjob hmake hwrite hget₁)

theorem MadeOf.buildAll (h : plan.MadeOf was done d) (entries : List Path) :
    plan.MadeOf was (done ++ entries) (plan.buildAll d entries).disk := by
  induction entries generalizing d done with
  | nil => simpa [Plan.buildAll] using h
  | cons entry rest ih =>
    have hrest := ih (h.turn (plan.turn_buildEntry d entry))
    rwa [List.append_assoc] at hrest

/-- An entry of which no record was made is not taken for up to date. -/
theorem MadeOf.exists_built {result : BuildResult} (h : plan.MadeOf was done d)
    (hcwd : was.cwd.Sinks d.cwd) (hentry : entry ∉ done) (hturn : plan.Turn d entry d' result)
    (hresult : result.success = true) :
    ∃ output, result = .built output := by
  cases hturn with
  | stopped => simp [BuildResult.success] at hresult
  | unrecorded => simp [BuildResult.success] at hresult
  | built => exact ⟨_, rfl⟩
  | @upToDate job record hjob hrecord houtput hkept =>
    obtain ⟨source, -, rfl⟩ := record_eq_ok hrecord
    obtain ⟨content, hread, hdecode⟩ := kept?_eq_some_iff.1 hkept
    obtain ⟨hlost, hfile⟩ := Disk.get?_of_read hread
    have hthere := Disk.read_eq_ok_iff.1 hread
    rw [← Disk.spot_of_sinks hcwd hthere hlost] at hfile
    -- The record that is kept names the entry that it was made of.
    obtain ⟨made, hmade, _, _, _, hdecode'⟩ :=
      h entry job content hjob (Disk.walk_of_entry hthere).1 hfile
    rw [hdecode, Option.some.injEq] at hdecode'
    obtain ⟨rfl, -⟩ := recordOf_inj hdecode'
    exact absurd hmade hentry

/-! ## Sources and outputs -/

/-- An entry that is written over by the build of another one has its stem, and the name of an
output or of a record. -/
theorem name_of_source_mem_spots {other : Path} (hstem : entry.stem? = some stem)
    (hmem : (was.spot entry).place ∈ plan.spots d other) :
    other.stem? = some stem ∧
      (entry.fileName? = some (stem ++ ".css") ∨ entry.fileName? = some (stem ++ ".meta")) := by
  obtain ⟨name, hname, -⟩ := Option.map_eq_some_iff.1 hstem
  obtain ⟨p, hspot⟩ := was.exists_spot_eq hname
  obtain ⟨stem', hstem', hfiles⟩ := mem_spots hmem
  have hname' : entry.fileName? = some (stem' ++ ".css") ∨
      entry.fileName? = some (stem' ++ ".meta") := by
    rw [hspot] at hfiles
    refine hfiles.imp ?_ ?_
    all_goals
      intro heq
      rw [hname, List.singleton_inj.1 (List.append_inj' heq rfl).2]
  -- With one of these names, the entry has the stem that is in the name.
  have hentry : entry.stem? = some stem' := by
    rcases hname' with hcss | hmeta
    · exact Path.stem?_of_extension "css" (Path.stem_ne_empty hstem') (by decide) hcss
    · exact Path.stem?_of_extension "meta" (Path.stem_ne_empty hstem') (by decide) hmeta
  obtain rfl : stem = stem' := Option.some.inj (hstem.symm.trans hentry)
  exact ⟨hstem', hname'⟩

/-- The source of an entry is as it was before the build, unless the entry is a file of one before
it. -/
theorem textAt?_of_buildAll {before : List Path} {source : String} (hdrops : Disk.Drops was d)
    (hstem : entry.stem? = some stem)
    (hbefore : ∀ earlier ∈ before, earlier.stem? = some stem →
      entry.fileName? ≠ some (stem ++ ".css") ∧ entry.fileName? ≠ some (stem ++ ".meta"))
    (h : (plan.buildAll d before).disk.readText entry = .ok source) :
    was.textAt? entry = some source := by
  obtain ⟨content, hread, htext⟩ := Disk.readText_eq_ok_iff.1 h
  obtain ⟨hlost, hfile⟩ := Disk.get?_of_read hread
  have hadds := plan.adds_buildAll d before
  have hspot : was.spot entry = (plan.buildAll d before).disk.spot entry := by
    refine Disk.spot_of_sinks ?_ (Disk.read_eq_ok_iff.1 hread) hlost
    rw [hadds.cwd]
    exact hdrops.cwd
  have hplace : (was.spot entry).place ∉ before.flatMap (plan.spots d) := by
    rw [List.mem_flatMap]
    rintro ⟨earlier, hearlier, hmem⟩
    obtain ⟨hsame, hname⟩ := name_of_source_mem_spots hstem hmem
    obtain ⟨hcss, hmeta⟩ := hbefore earlier hearlier hsame
    exact hname.elim hcss hmeta
  -- The build has not written the file, and cleaning has not made it.
  rw [← hspot] at hfile hlost
  have hwas := hdrops.removes.get? (hadds.writes.file hplace hfile)
  simp [Disk.textAt?, Standpoint.entry?, hlost, hwas, htext]

theorem MadeOf.read_output {before after : List Path} (h : plan.MadeOf was [] d)
    (hcwd : was.cwd.Sinks d.cwd) (hentry : entry ∉ before)
    (hsuccess : (plan.buildAll d (before ++ entry :: after)).success = true)
    (hafter : ∀ later ∈ after, later.stem? ≠ entry.stem?) :
    ∃ stem source css, entry.stem? = some stem ∧
      (plan.buildAll d before).disk.readText entry = .ok source ∧
      compile plan.options source = .ok css ∧
      (plan.buildAll d (before ++ entry :: after)).disk.read (plan.outDir.join ⟨stem ++ ".css"⟩) =
        .ok (Text.utf8 css) := by
  obtain ⟨hdisk, hsuccesses, -⟩ := plan.buildAll_append d before (entry :: after)
  rw [hsuccesses, Bool.and_eq_true] at hsuccess
  rw [hdisk]
  have hturn := plan.turn_buildEntry (plan.buildAll d before).disk entry
  -- When the turn of the entry comes, the records are made of those before it.
  obtain ⟨output, hbuilt⟩ := (h.buildAll before).exists_built
    (by rwa [(plan.adds_buildAll d before).cwd]) hentry hturn
    (Bool.and_eq_true_iff.1 hsuccess.2).1
  rw [hbuilt] at hturn
  obtain ⟨job, source, css, hjob, hread, hcompile, houtput⟩ := hturn.read_output
  obtain ⟨stem, hstem, rfl⟩ := job_eq_ok hjob
  refine ⟨stem, source, css, hstem, hread, hcompile, ?_⟩
  -- The entries after it have other outputs.
  rw [Disk.read_eq_ok_iff] at houtput ⊢
  refine (plan.adds_buildAll _ after).entry ?_ houtput
  have hname : Place.IsName (stem ++ ".css") := Path.isName_of_stem? hstem (by decide) (by decide)
  rw [Disk.spot_join_name _ _ hname, List.mem_flatMap]
  rintro ⟨later, hmem, hmem'⟩
  exact css_not_mem_spots (hstem ▸ hafter later hmem) _ hmem'

end Plan

namespace Project

theorem nodup_distinct (paths : List Path) : (distinct paths).Nodup := by
  induction paths with
  | nil => exact .nil
  | cons path rest ih =>
    refine List.nodup_cons.2 ⟨?_, ih.sublist List.filter_sublist⟩
    intro hmem
    have hother := (List.mem_filter.1 hmem).2
    simp [Path.same] at hother

theorem nodup_entries {asked : Option String} {manifest : Option Manifest} {base : Path}
    {paths : List Path} (h : entries asked manifest base = .ok paths) : paths.Nodup := by
  unfold entries at h
  split at h
  · simp at h
  · obtain rfl := Except.ok.inj h
    exact nodup_distinct _

/-- After a clean build that went well, the output for a stem is what the source of the last entry
with this stem compiled to when its turn came. The source was then as it had been before the build,
unless the entry is itself an output or a record of the build. -/
theorem build_outputs {d : Disk} (hd : d.Proper) {words : List String} {arguments : Arguments}
    (hread : Arguments.read true (isProject d) words = .ok arguments)
    (hclean : arguments.clean = true) {o : Outcome} (ho : o = run d ("build" :: words))
    (hexit : o.exitCode = 0) :
    ∃ plan start paths, Building d ("build" :: words) plan start paths ∧
      ∀ before entry after, paths = before ++ entry :: after →
        (∀ later ∈ after, later.stem? ≠ entry.stem?) →
        ∃ stem source css, entry.stem? = some stem ∧
          (plan.buildAll start before).disk.readText entry = .ok source ∧
          compile plan.options source = .ok css ∧
          o.disk.read (plan.outDir.join ⟨stem ++ ".css"⟩) = .ok (Text.utf8 css) ∧
          ((∀ earlier ∈ before, earlier.stem? = some stem →
              entry.fileName? ≠ some (stem ++ ".css") ∧ entry.fileName? ≠ some (stem ++ ".meta")) →
            d.textAt? entry = some source) := by
  have hsuccess := o.success_of_exitCode hexit
  subst ho
  rcases run_cases d ("build" :: words) with
    ⟨-, -, hfails⟩ | ⟨plan, start, paths, hbuilding, hdrops, hdisk, hsuccesses, -⟩
  · simp [hfails rfl] at hsuccess
  refine ⟨plan, start, paths, hbuilding, ?_⟩
  rintro before entry after rfl hafter
  obtain ⟨hread', hload, hentries, hstart⟩ := hbuilding
  obtain rfl := Except.ok.inj (hread.symm.trans hread')
  rw [if_pos hclean] at hstart
  rw [hsuccesses] at hsuccess
  rw [hdisk]
  -- Cleaning leaves no record, and no entry is worked on twice.
  have hmade := Plan.madeOf_clean hd hstart (stands_base hd hload)
  have hentry : entry ∉ before := by
    intro hmem
    exact (List.nodup_append.1 (nodup_entries hentries)).2.2 entry hmem entry
      List.mem_cons_self rfl
  obtain ⟨stem, source, css, hstem, hsource, hcompile, houtput⟩ :=
    hmade.read_output hdrops.cwd hentry hsuccess hafter
  exact ⟨stem, source, css, hstem, hsource, hcompile, houtput,
    fun hbefore => Plan.textAt?_of_buildAll hdrops hstem hbefore hsource⟩

/-! ## Twins -/

/-- A project with two entries of one name. -/
def twins : Disk where
  tree := ⟨[(["p"], .directory),
    (["p", "icss.toml"], .file (Text.utf8 "package.entries = ['a/main.icss', 'b/main.icss']")),
    (["p", "a"], .directory), (["p", "a", "main.icss"], .file (Text.utf8 "a \x7b b: 1; \x7d")),
    (["p", "b"], .directory), (["p", "b", "main.icss"], .file (Text.utf8 "c \x7b d: 2; \x7d"))]⟩
  cwd := { place := ["p"] }

/-- What comes of a clean build of the twins. -/
def twinsRun : Outcome := run twins ["build", "--clean"]

theorem proper_twins : twins.Proper where
  wellFormed := FileTree.wellFormed_of_entries (by decide +kernel)
  lost := rfl
  directory := rfl
  isName := by
    intro name h
    obtain rfl := List.mem_singleton.1 h
    exact ⟨⟨by decide, by decide, by decide⟩, by decide⟩

theorem exists_building_twins :
    twinsRun.exitCode = 0 ∧
      (twinsRun.disk.read ⟨"/p/dist/main.css"⟩).toOption =
        some (Text.utf8 "c \x7b\n\td: 2;\n\x7d\n") ∧
      ∃ x ∈ building? twins ["build", "--clean"],
        x.2.2 = [⟨"/p/a/main.icss"⟩, ⟨"/p/b/main.icss"⟩] ∧ x.1.options = {} ∧
        x.1.outDir = ⟨"/p/dist"⟩ := by
  decide +kernel

/-- The output is that of the second of the twins. -/
theorem build_outputs_twins :
    twinsRun.exitCode = 0 ∧
      ∃ source css, twins.textAt? ⟨"/p/b/main.icss"⟩ = some source ∧ compile {} source = .ok css ∧
        twinsRun.disk.read ⟨"/p/dist/main.css"⟩ = .ok (Text.utf8 css) := by
  obtain ⟨hexit, -, ⟨plan, start, paths⟩, hbuilding, hpaths, hoptions, hdir⟩ :=
    exists_building_twins
  have hread : Arguments.read true (isProject twins) ["--clean"] = .ok { clean := true } := rfl
  obtain ⟨plan', start', paths', hbuilding', houtputs⟩ :=
    build_outputs proper_twins hread rfl (show twinsRun = _ from rfl) hexit
  obtain ⟨rfl, rfl, rfl⟩ : plan = plan' ∧ start = start' ∧ paths = paths' := by
    have heq := hbuilding.symm.trans (building?_eq_some_iff.2 hbuilding')
    simpa using heq
  obtain ⟨stem, source, css, hstem, -, hcompile, houtput, hsource⟩ :=
    houtputs [⟨"/p/a/main.icss"⟩] ⟨"/p/b/main.icss"⟩ [] hpaths (by simp)
  obtain rfl : "main" = stem := by
    have hmain : Path.stem? ⟨"/p/b/main.icss"⟩ = some "main" := by decide +kernel
    exact Option.some.inj (hmain.symm.trans hstem)
  rw [hoptions] at hcompile
  rw [hdir] at houtput
  exact ⟨hexit, source, css, hsource (by decide +kernel), hcompile, houtput⟩

/-- The stylesheet of the first of the twins is lost, though the build went well. -/
theorem exists_output_lost :
    twinsRun.exitCode = 0 ∧ ∃ entry stem source css,
      (∃ x ∈ building? twins ["build", "--clean"],
        entry ∈ x.2.2 ∧ x.1.options = {} ∧ x.1.outDir = ⟨"/p/dist"⟩) ∧
      entry.stem? = some stem ∧ twins.readText entry = .ok source ∧ compile {} source = .ok css ∧
      twinsRun.disk.read (Path.join ⟨"/p/dist"⟩ ⟨stem ++ ".css"⟩) ≠ .ok (Text.utf8 css) := by
  obtain ⟨hexit, houtput, x, hx, hpaths, hoptions, hdir⟩ := exists_building_twins
  refine ⟨hexit, ⟨"/p/a/main.icss"⟩, "main", "a \x7b b: 1; \x7d", "a \x7b\n\tb: 1;\n\x7d\n",
    ⟨x, hx, by simp [hpaths], hoptions, hdir⟩, by decide +kernel, ?_, ?_, ?_⟩
  · exact toOption_eq_some_iff.1 (by decide +kernel)
  · exact toOption_eq_some_iff.1 (by decide +kernel)
  · intro hread
    rw [← toOption_eq_some_iff] at hread
    have hsame := houtput.symm.trans hread
    revert hsame
    decide +kernel

end Project

end TypedStyle
