import TypedStyle.Proofs.Build
import TypedStyle.Proofs.DiskLocality

/-!
# What the build of an entry touches

A build finds out all that can be found out before it stores anything: whether the entry has a name,
what its record is and what it compiles to. Only then are its stylesheet and its record stored.
-/

namespace TypedStyle

namespace Disk

variable {d : Disk}

/-! ## Around a path -/

/-- The places of the directories around where a path leads: those on the way, without the end. -/
def Around (d : Disk) (path : Path) (p : Place) : Prop :=
  ∃ front rest, rest ≠ [] ∧ path.steps = front ++ rest ∧
    p = (front.foldl Standpoint.enter (d.origin path)).place

theorem around_join_name {dir : Path} {name : String} (hname : Place.IsName name) {p : Place}
    (hp : d.OnWay dir p) : d.Around (dir.join ⟨name⟩) p := by
  have hrelative := Path.not_isAbsolute_of_no_slash hname.no_slash
  obtain ⟨front, rest, hsteps, rfl⟩ := hp
  refine ⟨front, rest ++ [name], by simp, ?_, ?_⟩
  · rw [Path.steps_join dir hrelative, Path.steps_name hname, hsteps, List.append_assoc]
  · rw [origin, origin, Path.isAbsolute_join_of_relative dir hrelative]

theorem around_of_cwd {d' : Disk} (h : d'.cwd = d.cwd) : d'.Around = d.Around := by
  funext path p
  simp only [Around, origin, h]

/-! ## What is touched -/

/-- Something is done where the paths lead, and directories are made around there where there was
nothing. All else stays. -/
structure Touches (paths : List Path) (d d' : Disk) : Prop where
  cwd : d'.cwd = d.cwd
  get? : ∀ p, d'.tree.get? p = d.tree.get? p ∨ (∃ path ∈ paths, p = (d.spot path).place) ∨
    (d.tree.get? p = none ∧ d'.tree.get? p = some .directory ∧ ∃ path ∈ paths, d.Around path p)

namespace Touches

variable {paths paths' : List Path} {d d' d'' : Disk}

theorem trans (h : Touches paths d d') (h' : Touches paths d' d'') : Touches paths d d'' := by
  refine ⟨h'.cwd.trans h.cwd, fun p => ?_⟩
  have hafter := h'.get? p
  rw [spot_of_cwd h.cwd, around_of_cwd h.cwd] at hafter
  rcases hafter with heq | hpath | ⟨hnone, hdirectory, haround⟩
  · rw [heq]
    exact h.get? p
  · exact .inr (.inl hpath)
  · -- A directory is made later on, so nothing was there in between.
    rcases h.get? p with heq | hpath | ⟨-, hdirectory', -⟩
    · exact .inr (.inr ⟨heq ▸ hnone, hdirectory, haround⟩)
    · exact .inr (.inl hpath)
    · rw [hnone] at hdirectory'
      cases hdirectory'

theorem mono (h : Touches paths d d') (hsub : paths ⊆ paths') : Touches paths' d d' := by
  refine ⟨h.cwd, fun p => ?_⟩
  rcases h.get? p with heq | ⟨path, hpath, hp⟩ | ⟨hnone, hdirectory, path, hpath, hp⟩
  · exact .inl heq
  · exact .inr (.inl ⟨path, hsub hpath, hp⟩)
  · exact .inr (.inr ⟨hnone, hdirectory, path, hsub hpath, hp⟩)

end Touches

theorem touches_write {d' : Disk} {path : Path} {content : Bytes}
    (h : d.write path content = .ok d') : Touches [path] d d' := by
  refine ⟨(adds_write h).cwd, fun p => ?_⟩
  by_cases hp : p = (d.spot path).place
  · exact .inr (.inl ⟨path, List.mem_singleton_self _, hp⟩)
  · exact .inl (by rw [get?_write h, if_neg hp])

theorem touches_makeDirectories (d : Disk) (dir : Path) {name : String}
    (hname : Place.IsName name) : Touches [dir.join ⟨name⟩] d (d.makeDirectories dir).1 := by
  have hadds := adds_makeDirectories d dir
  refine ⟨hadds.cwd, fun p => ?_⟩
  by_cases hway : d.OnWay dir p
  · rcases hadds.writes p with heq | ⟨hnone, hdirectory⟩ | ⟨hmem, -⟩
    · exact .inl heq
    · exact .inr (.inr ⟨hnone, hdirectory, _, List.mem_singleton_self _,
        around_join_name hname hway⟩)
    · cases hmem
  · exact .inl (get?_makeDirectories hway)

end Disk

namespace Plan

/-! ## Storing -/

/-- Storing a file in a directory touches the file and what is around it, whether all goes well or
not. -/
theorem touches_store (d : Disk) (dir : Path) {name : String} (hname : Place.IsName name)
    (content : Bytes) :
    Disk.Touches [dir.join ⟨name⟩] d (store d dir (dir.join ⟨name⟩) content).1 := by
  have hmake := Disk.touches_makeDirectories d dir hname
  unfold store makeDirectory
  rcases hmade : d.makeDirectories dir with ⟨d₀, _ | e⟩
  all_goals rw [hmade] at hmake
  · dsimp only
    cases hwrite : d₀.write (dir.join ⟨name⟩) content with
    | error e => exact hmake
    | ok d₁ => exact hmake.trans (Disk.touches_write hwrite)
  · exact hmake

theorem touches_storeAll {plan : Plan} {entry : Path} {job : Job} (hjob : plan.job entry = .ok job)
    (d : Disk) (css : String) (record : BuildRecord) :
    Disk.Touches [job.output, job.record] d (plan.storeAll d job css record).1 := by
  obtain ⟨stem, hstem, rfl⟩ := job_eq_ok hjob
  have houtput := touches_store d plan.outDir
    (Path.isName_of_stem? hstem (by decide) (by decide) : Place.IsName (stem ++ ".css"))
    (Text.utf8 css)
  unfold storeAll
  rcases hstore : store d plan.outDir (plan.outDir.join ⟨stem ++ ".css"⟩) (Text.utf8 css)
    with ⟨d₁, _ | failure⟩
  all_goals rw [hstore] at houtput
  · have hrecord := touches_store d₁ (Project.recordDirectory plan.base)
      (Path.isName_of_stem? hstem (by decide) (by decide) : Place.IsName (stem ++ ".meta"))
      record.encode
    exact (houtput.mono (by simp)).trans (hrecord.mono (by simp))
  · exact houtput.mono (by simp)

theorem read_storeAll {plan : Plan} {entry : Path} {job : Job} {d d' : Disk} {css : String}
    {record : BuildRecord} (hjob : plan.job entry = .ok job)
    (h : plan.storeAll d job css record = (d', none)) :
    d'.read job.output = .ok (Text.utf8 css) ∧ d'.read job.record = .ok record.encode := by
  unfold storeAll at h
  rcases hstore : store d plan.outDir job.output (Text.utf8 css) with ⟨d₁, _ | failure⟩
  · rw [hstore] at h
    obtain ⟨d₀, -, hwrite⟩ := store_success hstore
    obtain ⟨d₂, hmake, hwrite'⟩ := store_success h
    exact ⟨read_output_of_writes hjob hwrite hmake hwrite', Disk.read_write hwrite'⟩
  · rw [hstore] at h
    cases h

/-! ## One entry -/

/-- The build of an entry finds it up to date, or fails because the entry has no name, no record can
be made of it or it cannot be compiled, and leaves the disk as it is. Otherwise it stores the
stylesheet and the record. -/
theorem buildEntry_cases (plan : Plan) (d : Disk) (entry : Path) :
    ((plan.buildEntry d entry).result = .upToDate ∧ (plan.buildEntry d entry).disk = d) ∨
      (∃ failure, (plan.buildEntry d entry).result = .failed failure ∧
        (plan.buildEntry d entry).disk = d ∧
        (plan.job entry = .error failure ∨ plan.record d entry = .error failure ∨
          (compileFile d plan.options entry).2 = .error failure)) ∨
      ∃ job record css failed?, plan.job entry = .ok job ∧ plan.record d entry = .ok record ∧
        (compileFile d plan.options entry).2 = .ok css ∧
        plan.storeAll d job css record = ((plan.buildEntry d entry).disk, failed?) ∧
        (plan.buildEntry d entry).result = failed?.elim (.built job.output) .failed := by
  unfold buildEntry
  cases hjob : plan.job entry with
  | error failure => exact .inr (.inl ⟨failure, rfl, rfl, .inl rfl⟩)
  | ok job =>
    obtain ⟨stem, -, hfiles⟩ := job_eq_ok hjob
    have hentry : job.entry = entry := by rw [hfiles]
    cases hrecord : plan.record d entry with
    | error failure => exact .inr (.inl ⟨failure, rfl, rfl, .inr (.inl rfl)⟩)
    | ok record =>
      dsimp only
      unfold buildJob
      rw [hentry]
      by_cases hcurrent : isUpToDate d job record = true
      · rw [if_pos hcurrent]
        exact .inl ⟨rfl, rfl⟩
      · rw [if_neg hcurrent]
        rcases hcompile : compileFile d plan.options entry with ⟨notices, failure | css⟩
        · exact .inr (.inl ⟨failure, rfl, rfl, .inr (.inr rfl)⟩)
        · dsimp only
          rcases hstore : plan.storeAll d job css record with ⟨d', _ | failure⟩
          · exact .inr (.inr ⟨job, record, css, none, rfl, rfl, rfl, hstore, rfl⟩)
          · exact .inr (.inr ⟨job, record, css, some failure, rfl, rfl, rfl, hstore, rfl⟩)

/-- The build of an entry fails before anything is stored, and then the disk is as it was, or
because something cannot be stored. An entry that is up to date leaves the disk as it is. After one
is built, its stylesheet is what its source compiles to and its record is that of this build.
Whenever something is stored, only these two files and the missing directories around them are
touched. -/
theorem buildEntry_frame (plan : Plan) (d : Disk) (entry : Path) :
    (∀ failure, (plan.buildEntry d entry).result = .failed failure →
      ((plan.buildEntry d entry).disk = d ∧
        (plan.job entry = .error failure ∨ plan.record d entry = .error failure ∨
          (compileFile d plan.options entry).2 = .error failure)) ∨
      ∃ job record css, plan.job entry = .ok job ∧ plan.record d entry = .ok record ∧
        (compileFile d plan.options entry).2 = .ok css ∧
        plan.storeAll d job css record = ((plan.buildEntry d entry).disk, some failure) ∧
        Disk.Touches [job.output, job.record] d (plan.buildEntry d entry).disk) ∧
    ((plan.buildEntry d entry).result = .upToDate → (plan.buildEntry d entry).disk = d) ∧
    ∀ output, (plan.buildEntry d entry).result = .built output →
      ∃ stem source css record, entry.stem? = some stem ∧
        output = plan.outDir.join ⟨stem ++ ".css"⟩ ∧
        d.readText entry = .ok source ∧ compile plan.options source = .ok css ∧
        plan.record d entry = .ok record ∧
        (plan.buildEntry d entry).disk.read output = .ok (Text.utf8 css) ∧
        (plan.buildEntry d entry).disk.read
          ((Project.recordDirectory plan.base).join ⟨stem ++ ".meta"⟩) = .ok record.encode ∧
        Disk.Touches [output, (Project.recordDirectory plan.base).join ⟨stem ++ ".meta"⟩] d
          (plan.buildEntry d entry).disk := by
  rcases plan.buildEntry_cases d entry with ⟨hresult, hdisk⟩ | ⟨failure, hresult, hdisk, hcause⟩ |
    ⟨job, record, css, failed?, hjob, hrecord, hcompile, hstore, hresult⟩
  · rw [hresult]
    exact ⟨by simp, fun _ => hdisk, by simp⟩
  · rw [hresult]
    refine ⟨?_, by simp, by simp⟩
    rintro _ ⟨rfl⟩
    exact .inl ⟨hdisk, hcause⟩
  · have htouches := touches_storeAll hjob d css record
    rw [hstore] at htouches
    cases failed? with
    | some failure =>
      rw [hresult]
      refine ⟨?_, by simp, by simp⟩
      rintro _ ⟨rfl⟩
      exact .inr ⟨job, record, css, hjob, hrecord, hcompile, hstore, htouches⟩
    | none =>
      rw [hresult]
      refine ⟨by simp, by simp, ?_⟩
      rintro _ ⟨rfl⟩
      obtain ⟨houtput, hkept⟩ := read_storeAll hjob hstore
      obtain ⟨source, hsource, hcss⟩ := compileFile_eq_ok_iff.1 hcompile
      obtain ⟨stem, hstem, rfl⟩ := job_eq_ok hjob
      exact ⟨stem, source, css, record, hstem, rfl, hsource, hcss, hrecord, houtput, hkept,
        htouches⟩

/-- A project with a source that compiles and one that does not. -/
def halfSound : Disk where
  tree := ⟨[(["p"], .directory),
    (["p", "sound.icss"], .file (Text.utf8 "a \x7b b: 1px + 1px; \x7d")),
    (["p", "unsound.icss"], .file (Text.utf8 "a \x7b b: 1 + 1; \x7d"))]⟩
  cwd := { place := ["p"] }

/-- The outputs go into a directory that is yet to be made, in another one. -/
def halfSoundPlan : Plan where
  base := ⟨"/p"⟩
  manifest := none
  outDir := ⟨"/p/out/css"⟩
  options := {}

/-- The sound source is built and the directories for its stylesheet are made. The other one leaves
no trace. -/
theorem buildEntry_frame_halfSound :
    (halfSoundPlan.buildEntry halfSound ⟨"sound.icss"⟩).result =
        .built ⟨"/p/out/css/sound.css"⟩ ∧
      Disk.Touches [⟨"/p/out/css/sound.css"⟩, ⟨"/p/.icss/build/sound.meta"⟩] halfSound
        (halfSoundPlan.buildEntry halfSound ⟨"sound.icss"⟩).disk ∧
      (halfSoundPlan.buildEntry halfSound ⟨"sound.icss"⟩).disk.read ⟨"/p/out/css/sound.css"⟩ =
        .ok (Text.utf8 "a \x7b\n\tb: 2px;\n\x7d\n") ∧
      (halfSoundPlan.buildEntry halfSound ⟨"unsound.icss"⟩).result =
        .failed (.notCompiled ⟨"unsound.icss"⟩) ∧
      (halfSoundPlan.buildEntry halfSound ⟨"unsound.icss"⟩).disk = halfSound := by
  have hsound : (halfSoundPlan.buildEntry halfSound ⟨"sound.icss"⟩).result =
      .built ⟨"/p/out/css/sound.css"⟩ := by
    decide +kernel
  have hunsound : (halfSoundPlan.buildEntry halfSound ⟨"unsound.icss"⟩).result =
      .failed (.notCompiled ⟨"unsound.icss"⟩) := by
    decide +kernel
  have hcompiles : (compileFile halfSound halfSoundPlan.options ⟨"sound.icss"⟩).2 =
      .ok "a \x7b\n\tb: 2px;\n\x7d\n" :=
    toOption_eq_some_iff.1 (by decide +kernel)
  obtain ⟨stem, source, css, record, hstem, -, hsource, hcss, -, houtput, -, htouches⟩ :=
    (buildEntry_frame halfSoundPlan halfSound ⟨"sound.icss"⟩).2.2 _ hsound
  obtain rfl : stem = "sound" := Option.some.inj (hstem.symm.trans (by decide +kernel))
  rw [compileFile_eq_ok_iff.2 ⟨source, hsource, hcss⟩] at hcompiles
  rw [Except.ok.inj hcompiles] at houtput
  refine ⟨hsound, htouches, houtput, hunsound, ?_⟩
  rcases (buildEntry_frame halfSoundPlan halfSound ⟨"unsound.icss"⟩).1 _ hunsound with
    ⟨hdisk, -⟩ | ⟨job, record, css, -, -, hcompile, -⟩
  · exact hdisk
  · -- Nothing can be stored of a source that does not compile.
    have hnone :
        (compileFile halfSound halfSoundPlan.options ⟨"unsound.icss"⟩).2.toOption = none := by
      decide +kernel
    rw [hcompile] at hnone
    cases hnone

end Plan

end TypedStyle
