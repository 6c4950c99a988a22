import TypedStyle.Proofs.BuildDecision
import TypedStyle.Proofs.BuildInputs

/-!
# The order of a build

What the build of an entry does can be told from the disk before all of the build, whatever is built
before it: `Plan.effect` says which directories it makes, which files it writes and whether it goes
well. A build of many entries makes the directories of all and writes the files of all, and in this
nothing is said of an order.
-/

namespace TypedStyle

theorem stem?_ne_of_nodup {front back : List Path} {entry other : Path} {stem : String}
    (h : ((front ++ entry :: back).filterMap Path.stem?).Nodup)
    (hother : other ∈ front ∨ other ∈ back) (hstem : entry.stem? = some stem) :
    other.stem? ≠ some stem := by
  intro hother'
  rw [List.filterMap_append, List.filterMap_cons_some hstem, List.nodup_append] at h
  obtain ⟨-, hback, hfront⟩ := h
  rcases hother with hother | hother
  · exact hfront stem (List.mem_filterMap.2 ⟨other, hother, hother'⟩) stem List.mem_cons_self rfl
  · exact (List.nodup_cons.1 hback).1 (List.mem_filterMap.2 ⟨other, hother, hother'⟩)

namespace Plan

variable {plan : Plan} {d d' : Disk} {entry : Path} {job : Job} {entries : List Path}

/-! ## What is stored -/

section

variable {directory path : Path} {content : Bytes}

/-- A file can be stored: its directory can be made, and the file written. -/
def Stores (d : Disk) (directory path : Path) (content : Bytes) : Prop :=
  (d.makeDirectories directory).2 = none ∧
    ∃ d', (d.makeDirectories directory).1.write path content = .ok d'

theorem store_of_write (hmake : (d.makeDirectories directory).2 = none)
    (hwrite : (d.makeDirectories directory).1.write path content = .ok d') :
    store d directory path content = (d', none) := by
  unfold store makeDirectory
  rcases hm : d.makeDirectories directory with ⟨d₁, failure⟩
  rw [hm] at hmake hwrite
  obtain rfl : failure = none := hmake
  dsimp only at hwrite ⊢
  rw [hwrite]

theorem store_of_not_stores (h : ¬Stores d directory path content) :
    ∃ failure, store d directory path content = ((d.makeDirectories directory).1, some failure) := by
  unfold Stores at h
  unfold store makeDirectory
  generalize d.makeDirectories directory = made at h ⊢
  rcases made with ⟨d₁, _ | e⟩
  · cases hwrite : d₁.write path content with
    | error e =>
      dsimp only
      rw [hwrite]
      exact ⟨_, rfl⟩
    | ok d₂ => exact absurd ⟨rfl, d₂, hwrite⟩ h
  · exact ⟨_, rfl⟩

theorem isNone_store_iff :
    (store d directory path content).2.isNone = true ↔ Stores d directory path content := by
  by_cases h : Stores d directory path content
  · obtain ⟨hmake, d', hwrite⟩ := h
    simp [store_of_write hmake hwrite, Stores, hmake, hwrite]
  · obtain ⟨failure, hstore⟩ := store_of_not_stores h
    simp [hstore, h]

theorem overlay_store {files : List (Place × Bytes)} (h : Disk.Overlay files d d')
    (hdir : ∀ x ∈ files, ¬d.OnWay directory x.1) (hpath : ∀ x ∈ files, ¬d.OnWay path x.1)
    (content : Bytes) :
    ¬Stores d directory path content ∧
        (∃ failure d₁, store d' directory path content = (d₁, some failure) ∧
          Disk.Overlay files (d.makeDirectories directory).1 d₁) ∨
      Stores d directory path content ∧
        ∃ d₁, store d' directory path content = (d₁, none) ∧
          Disk.Overlay (files ++ [((d.spot path).place, content)])
            (d.makeDirectories directory).1 d₁ := by
  obtain ⟨hstatus, hmade⟩ := h.makeDirectories hdir
  have hadds := Disk.adds_makeDirectories d directory
  have hoff : ∀ x ∈ files, ¬(d.makeDirectories directory).1.OnWay path x.1 := by
    rwa [Disk.onWay_of_cwd hadds.cwd]
  have hwrites := hmade.write hoff content
  rw [hadds.spot] at hwrites
  by_cases hstores : Stores d directory path content
  · obtain ⟨hmake, d₀, hwrite⟩ := hstores
    obtain ⟨e, he, -⟩ | ⟨-, d₁, -, hwrite', hafter⟩ := hwrites
    · simp [hwrite] at he
    · exact .inr ⟨⟨hmake, d₀, hwrite⟩, d₁, store_of_write (hstatus.trans hmake) hwrite', hafter⟩
  · have hstores' : ¬Stores d' directory path content := by
      rintro ⟨hmake, d₁, hwrite⟩
      obtain ⟨e, -, he⟩ | ⟨d₂, -, hwrite', -⟩ := hwrites
      · simp [hwrite] at he
      · exact hstores ⟨hstatus.symm.trans hmake, d₂, hwrite'⟩
    obtain ⟨failure, hstore⟩ := store_of_not_stores hstores'
    exact .inl ⟨hstores, failure, _, hstore, hmade⟩

theorem stores_makeDirectories (hlost : d.cwd.lost = 0) :
    ((d.makeDirectories directory).1.makeDirectories directory).1 =
        (d.makeDirectories directory).1 ∧
      (Stores (d.makeDirectories directory).1 directory path content ↔
        Stores d directory path content) := by
  obtain ⟨hsame, hstatus⟩ := Disk.makeDirectories_again hlost (Prod.eta _).symm
  refine ⟨hsame, ?_⟩
  rw [Stores, Stores, hsame, ← Option.not_isSome_iff_eq_none, hstatus,
    Option.not_isSome_iff_eq_none]

end

/-! ## The directories of a build -/

/-- The disk when so many of the directories of a build have been made: none, the one of the outputs,
or the one of the records as well. -/
def ground (plan : Plan) (d : Disk) : Nat → Disk
  | 0 => d
  | 1 => (d.makeDirectories plan.outDir).1
  | _ => ((d.makeDirectories plan.outDir).1.makeDirectories (Project.recordDirectory plan.base)).1

theorem ground_one (plan : Plan) (d : Disk) :
    plan.ground d 1 = (d.makeDirectories plan.outDir).1 := rfl

theorem ground_two (plan : Plan) (d : Disk) :
    plan.ground d 2 =
      ((plan.ground d 1).makeDirectories (Project.recordDirectory plan.base)).1 := rfl

theorem ground_of_two_le {level : Nat} (h : 2 ≤ level) : plan.ground d level = plan.ground d 2 := by
  obtain ⟨n, rfl⟩ : ∃ n, level = n + 2 := ⟨level - 2, by omega⟩
  rfl

theorem Settled.since_ground (hd : plan.Settled d) (level : Nat) :
    plan.Since d [] (plan.ground d level) := by
  have hstart : plan.Since d [] d := ⟨.refl d, fun p => .inl rfl⟩
  have hone : plan.Since d [] (plan.ground d 1) := hstart.makeDirectories hd (.inl rfl)
  rcases level with _ | _ | level
  · exact hstart
  · exact hone
  · rw [ground_of_two_le (by omega), ground_two]
    exact hone.makeDirectories hd (.inr rfl)

theorem adds_ground (plan : Plan) (d : Disk) (level : Nat) :
    Disk.Adds [] d (plan.ground d level) := by
  have hone := Disk.adds_makeDirectories d plan.outDir
  rcases level with _ | _ | level
  · exact .refl d
  · exact hone
  · exact hone.trans (Disk.adds_makeDirectories _ _)

theorem Settled.get?_output_ground (hd : plan.Settled d) (stem : String) (level : Nat) :
    (plan.ground d level).tree.get? ((d.spot plan.outDir).place ++ [stem ++ ".css"]) =
      d.tree.get? ((d.spot plan.outDir).place ++ [stem ++ ".css"]) := by
  refine (hd.since_ground level).get?_eq hd (by simp) (append_css_ne_icss stem)
    (append_css_ne_build stem) fun _ hprefix => ?_
  have hlength := hprefix.length_le
  rw [List.length_append, List.length_singleton] at hlength
  omega

theorem Settled.stands_ground (hd : plan.Settled d) (hmade : (d.makeDirectories plan.outDir).2 = none)
    (level : Nat) : (plan.ground d (level + 1)).Stands plan.outDir := by
  have hstands := Disk.stands_of_makeDirectories hd.proper hmade
  rcases level with _ | level
  · exact hstands
  · exact (Disk.adds_makeDirectories _ _).stands hstands

/-- Once there is a directory for the outputs, making that of the records changes nothing on the way
to an output. -/
theorem Settled.alike_ground (hd : plan.Settled d)
    (hmade : (d.makeDirectories plan.outDir).2 = none) (hjob : plan.job entry = .ok job) :
    Disk.Alike (d.OnWay job.output) (plan.ground d 1) (plan.ground d 2) := by
  refine ⟨(Disk.adds_makeDirectories _ _).cwd, fun p hp => ?_⟩
  obtain ⟨stem, hstem, rfl⟩ := job_eq_ok hjob
  have hname : Place.IsName (stem ++ ".css") := Path.isName_of_stem? hstem (by decide) (by decide)
  rcases Disk.onWay_join_name hname hp with hway | rfl
  · have hdirectory : ∀ n, (plan.ground d (n + 1)).tree.get? p = some .directory := by
      intro n
      have hadds := plan.adds_ground d (n + 1)
      refine (hd.stands_ground hmade n).directory_of_onWay (hadds.proper hd.proper) ?_
      rwa [Disk.onWay_of_cwd hadds.cwd]
    rw [hdirectory 0, hdirectory 1]
  · rw [hd.get?_output_ground, hd.get?_output_ground]

/-- Whether an output can be stored does not depend on which directories have been made. -/
theorem Settled.stores_output (hd : plan.Settled d) (hjob : plan.job entry = .ok job)
    {level : Nat} (hmade : 2 ≤ level → (d.makeDirectories plan.outDir).2 = none) (content : Bytes) :
    ((plan.ground d level).makeDirectories plan.outDir).1 = plan.ground d (max level 1) ∧
      (Stores (plan.ground d level) plan.outDir job.output content ↔
        Stores d plan.outDir job.output content) := by
  rcases level with _ | _ | level
  · exact ⟨rfl, Iff.rfl⟩
  · exact stores_makeDirectories hd.proper.lost
  · replace hmade := hmade (by omega)
    have hagain : (plan.ground d 2).makeDirectories plan.outDir = (plan.ground d 2, none) :=
      Disk.makeDirectories_of_adds hd.proper.lost (Prod.ext rfl hmade)
        (Disk.adds_makeDirectories _ _)
    have hwrite : (∃ d₁, (plan.ground d 2).write job.output content = .ok d₁) ↔
        ∃ d₁, (plan.ground d 1).write job.output content = .ok d₁ := by
      have hway : (plan.ground d 1).OnWay = d.OnWay := Disk.onWay_of_cwd (plan.adds_ground d 1).cwd
      rcases (hd.alike_ground hmade hjob).write_cases (by rw [hway]; exact fun _ hp => hp) content
        with ⟨e, he, he'⟩ | ⟨d₁, d₁', he, he'⟩
      · simp [he, he']
      · simp [he, he']
    have htwo : plan.ground d (level + 1 + 1) = plan.ground d 2 := ground_of_two_le (by omega)
    have hmax : plan.ground d (max (level + 1 + 1) 1) = plan.ground d 2 :=
      ground_of_two_le (by omega)
    rw [ground_one] at hwrite
    rw [htwo, hmax, Stores, Stores, hagain, hmade, hwrite]
    exact ⟨rfl, Iff.rfl⟩

theorem Settled.stores_record (hd : plan.Settled d) (level : Nat) (path : Path)
    (content : Bytes) :
    ((plan.ground d (level + 1)).makeDirectories (Project.recordDirectory plan.base)).1 =
        plan.ground d 2 ∧
      (Stores (plan.ground d (level + 1)) (Project.recordDirectory plan.base) path content ↔
        Stores (plan.ground d 1) (Project.recordDirectory plan.base) path content) := by
  rcases level with _ | level
  · exact ⟨rfl, Iff.rfl⟩
  · have hlost : (plan.ground d 1).cwd.lost = 0 := by
      rw [(plan.adds_ground d 1).cwd]
      exact hd.proper.lost
    exact stores_makeDirectories hlost

/-! ## What the build of an entry does -/

/-- What the build of an entry does, whatever is built before it. -/
structure Effect where
  /-- How many of the directories of the build it makes. -/
  level : Nat
  files : List (Place × Bytes)
  success : Bool

/-- What storing the files of an entry does: the output comes first, and without it there is no
record. -/
def storing (plan : Plan) (d : Disk) (job : Job) (css : String) (record : BuildRecord) : Effect :=
  let output := ((d.spot job.output).place, Text.utf8 css)
  if (store d plan.outDir job.output (Text.utf8 css)).2.isNone then
    if (store (plan.ground d 1) (Project.recordDirectory plan.base) job.record
        record.encode).2.isNone then
      { level := 2, files := [output, ((d.spot job.record).place, record.encode)], success := true }
    else { level := 2, files := [output], success := false }
  else { level := 1, files := [], success := false }

def Decision.effect (plan : Plan) (d : Disk) : Decision → Effect
  | leave success => { level := 0, files := [], success }
  | store job css record => plan.storing d job css record

/-- What the build of an entry does, told from the disk before all of the build. -/
def effect (plan : Plan) (d : Disk) (entry : Path) : Effect :=
  (plan.decision d entry).effect plan d

theorem decision_eq_store {css : String} {record : BuildRecord}
    (h : plan.decision d entry = .store job css record) : plan.job entry = .ok job := by
  unfold decision at h
  cases hjob : plan.job entry with
  | error e => simp [hjob] at h
  | ok job' =>
    rw [hjob] at h
    cases hrecord : (plan.record d entry).toOption with
    | none => simp [hrecord] at h
    | some record' =>
      rw [hrecord] at h
      dsimp only [jobDecision] at h
      split at h
      · simp at h
      · split at h
        · simp at h
        · rw [(Decision.store.inj h).1]

/-- The files of an effect are files of the entry, where no directory is in the way. -/
structure Effect.Fits (plan : Plan) (d : Disk) (entry : Path) (e : Effect) : Prop where
  made : 2 ≤ e.level → (d.makeDirectories plan.outDir).2 = none
  level : e.files ≠ [] → e.level = 2
  mem : ∀ x ∈ e.files, x.1 ∈ plan.spots d entry
  get? : ∀ x ∈ e.files, (plan.ground d 2).tree.get? x.1 ≠ some .directory

theorem Settled.get?_output (hd : plan.Settled d) (hjob : plan.job entry = .ok job)
    {content : Bytes} (h : Stores d plan.outDir job.output content) :
    (plan.ground d 2).tree.get? (d.spot job.output).place ≠ some .directory := by
  obtain ⟨-, d₁, hwrite⟩ := h
  obtain ⟨stem, -, hspot, -⟩ := spot_job hjob d
  have hground := Disk.get?_ne_directory_of_write hwrite
  rw [(Disk.adds_makeDirectories d plan.outDir).spot, hspot] at hground
  rw [hspot, hd.get?_output_ground stem, ← hd.get?_output_ground stem 1]
  exact hground

theorem Settled.fits_storing (hd : plan.Settled d) (hjob : plan.job entry = .ok job)
    (css : String) (record : BuildRecord) :
    (plan.storing d job css record).Fits plan d entry := by
  have hspots := spots_eq hjob d
  unfold storing
  dsimp only
  split
  · next houtput =>
    rw [isNone_store_iff] at houtput
    have hget := hd.get?_output hjob houtput
    split
    · next hrecord =>
      obtain ⟨-, d₂, hwrite⟩ := isNone_store_iff.1 hrecord
      have hget' : (plan.ground d 2).tree.get? (d.spot job.record).place ≠ some .directory := by
        have hground := Disk.get?_ne_directory_of_write hwrite
        rwa [← ground_two, (plan.adds_ground d 2).spot] at hground
      refine ⟨fun _ => houtput.1, fun _ => rfl, ?_, ?_⟩
      · simp [hspots]
      · simpa using ⟨hget, hget'⟩
    · refine ⟨fun _ => houtput.1, fun _ => rfl, ?_, ?_⟩
      · simp [hspots]
      · simpa using hget
  · exact ⟨by simp, by simp, by simp, by simp⟩

theorem Settled.fits_effect (hd : plan.Settled d) (entry : Path) :
    (plan.effect d entry).Fits plan d entry := by
  unfold effect
  cases hdecision : plan.decision d entry with
  | leave success => exact ⟨by simp [Decision.effect], by simp [Decision.effect],
      by simp [Decision.effect], by simp [Decision.effect]⟩
  | store job css record => exact hd.fits_storing (decision_eq_store hdecision) css record

theorem Settled.off_recordDirectory (hd : plan.Settled d) {p : Place}
    (hmem : p ∈ plan.spots d entry) (hget : (plan.ground d 2).tree.get? p ≠ some .directory) :
    ¬d.OnWay (Project.recordDirectory plan.base) p := by
  intro hway
  have hget' : d.tree.get? p ≠ some .directory :=
    fun hdir => hget ((plan.adds_ground d 2).writes.directory hdir)
  have hway' := (hd.recordDirectory.onWay hd.proper hway).resolve_left hget'
  obtain ⟨stem, -, heq | heq⟩ := mem_spots hmem
  · rw [heq] at hget' hway'
    exact hd.not_prefix_recordDirectory (append_css_ne_icss stem) (append_css_ne_build stem)
      hget' hway'
  · rw [heq] at hget' hway'
    exact hd.not_prefix_recordDirectory (append_meta_ne_icss stem) (append_meta_ne_build stem)
      hget' hway'

theorem Settled.off_outDir (hd : plan.Settled d) {p : Place}
    (hmade : (d.makeDirectories plan.outDir).2 = none)
    (hget : (plan.ground d 2).tree.get? p ≠ some .directory) : ¬d.OnWay plan.outDir p := by
  intro hway
  have hadds := plan.adds_ground d 2
  refine hget ((hd.stands_ground hmade 1).directory_of_onWay (hadds.proper hd.proper) ?_)
  rwa [Disk.onWay_of_cwd hadds.cwd]

section

variable {entry : Path} {job : Job} {stored : List (Place × Bytes)}

/-- A file is stored over others as without them, if they are elsewhere and not on the way. -/
theorem overlay_store_name {directory : Path} {name : String} {made : Disk}
    (hadds : Disk.Adds [] d made) (h : Disk.Overlay stored made d') (hname : Place.IsName name)
    (hoff : ∀ x ∈ stored, ¬d.OnWay directory x.1 ∧
      x.1 ≠ (d.spot (directory.join ⟨name⟩)).place)
    (content : Bytes) :
    ¬Stores made directory (directory.join ⟨name⟩) content ∧
        (∃ failure d₁, store d' directory (directory.join ⟨name⟩) content = (d₁, some failure) ∧
          Disk.Overlay stored (made.makeDirectories directory).1 d₁) ∨
      Stores made directory (directory.join ⟨name⟩) content ∧
        ∃ d₁, store d' directory (directory.join ⟨name⟩) content = (d₁, none) ∧
          Disk.Overlay (stored ++ [((d.spot (directory.join ⟨name⟩)).place, content)])
            (made.makeDirectories directory).1 d₁ := by
  have hway := Disk.onWay_of_cwd hadds.cwd
  rw [← hadds.spot]
  refine overlay_store h ?_ ?_ content
  · rw [hway]
    exact fun x hx => (hoff x hx).1
  · rw [hway]
    intro x hx hon
    rcases Disk.onWay_join_name hname hon with hon | heq
    · exact (hoff x hx).1 hon
    · exact (hoff x hx).2 (by rw [d.spot_join_name _ hname, heq])

/-- An output is stored over what is written elsewhere as it is stored at first. -/
theorem Settled.store_output (hd : plan.Settled d) (hjob : plan.job entry = .ok job) {level : Nat}
    (h : Disk.Overlay stored (plan.ground d level) d')
    (hlevel : 2 ≤ level → (d.makeDirectories plan.outDir).2 = none)
    (hoff : ∀ x ∈ stored, ¬d.OnWay plan.outDir x.1 ∧ x.1 ≠ (d.spot job.output).place)
    (content : Bytes) :
    ¬Stores d plan.outDir job.output content ∧
        (∃ failure d₁, store d' plan.outDir job.output content = (d₁, some failure) ∧
          Disk.Overlay stored (plan.ground d (max level 1)) d₁) ∨
      Stores d plan.outDir job.output content ∧
        ∃ d₁, store d' plan.outDir job.output content = (d₁, none) ∧
          Disk.Overlay (stored ++ [((d.spot job.output).place, content)])
            (plan.ground d (max level 1)) d₁ := by
  obtain ⟨hground, hsame⟩ := hd.stores_output hjob hlevel content
  obtain ⟨stem, hstem, rfl⟩ := job_eq_ok hjob
  have hstored := overlay_store_name (plan.adds_ground d level) h
    (Path.isName_of_stem? hstem (by decide) (by decide)) hoff content
  rwa [hground, hsame] at hstored

theorem Settled.store_record (hd : plan.Settled d) (hjob : plan.job entry = .ok job) {level : Nat}
    (h : Disk.Overlay stored (plan.ground d (level + 1)) d')
    (hoff : ∀ x ∈ stored, ¬d.OnWay (Project.recordDirectory plan.base) x.1 ∧
      x.1 ≠ (d.spot job.record).place)
    (content : Bytes) :
    ¬Stores (plan.ground d 1) (Project.recordDirectory plan.base) job.record content ∧
        (∃ failure d₁, store d' (Project.recordDirectory plan.base) job.record content =
            (d₁, some failure) ∧
          Disk.Overlay stored (plan.ground d 2) d₁) ∨
      Stores (plan.ground d 1) (Project.recordDirectory plan.base) job.record content ∧
        ∃ d₁, store d' (Project.recordDirectory plan.base) job.record content = (d₁, none) ∧
          Disk.Overlay (stored ++ [((d.spot job.record).place, content)]) (plan.ground d 2) d₁ := by
  obtain ⟨hground, hsame⟩ := hd.stores_record level job.record content
  obtain ⟨stem, hstem, rfl⟩ := job_eq_ok hjob
  have hstored := overlay_store_name (plan.adds_ground d (level + 1)) h
    (Path.isName_of_stem? hstem (by decide) (by decide)) hoff content
  rwa [hground, hsame] at hstored

end

/-! ## What a build comes to -/

/-- How many of the directories of the build are made for the entries. -/
def level (plan : Plan) (d : Disk) : List Path → Nat
  | [] => 0
  | entry :: rest => max (plan.effect d entry).level (plan.level d rest)

def files (plan : Plan) (d : Disk) (entries : List Path) : List (Place × Bytes) :=
  entries.flatMap fun entry => (plan.effect d entry).files

theorem level_append (plan : Plan) (d : Disk) (front rest : List Path) :
    plan.level d (front ++ rest) = max (plan.level d front) (plan.level d rest) := by
  induction front with
  | nil => exact (Nat.zero_max _).symm
  | cons entry front ih => rw [List.cons_append, level, level, ih, Nat.max_assoc]

theorem level_perm {entries' : List Path} (h : entries.Perm entries') :
    plan.level d entries = plan.level d entries' := by
  induction h with
  | nil => rfl
  | cons entry _ ih => rw [level, level, ih]
  | swap first second rest => rw [level, level, level, level, Nat.max_left_comm]
  | trans _ _ ih ih' => exact ih.trans ih'

theorem Settled.made_of_level (hd : plan.Settled d) (h : 2 ≤ plan.level d entries) :
    (d.makeDirectories plan.outDir).2 = none := by
  induction entries with
  | nil => simp [level] at h
  | cons entry rest ih =>
    rw [level] at h
    have hcases : 2 ≤ (plan.effect d entry).level ∨ 2 ≤ plan.level d rest := by omega
    rcases hcases with hentry | hrest
    · exact (hd.fits_effect entry).made hentry
    · exact ih hrest

/-- What a build of entries has come to. -/
structure Reached (plan : Plan) (d : Disk) (done : List Path) (d' : Disk) : Prop where
  adds : Disk.Adds (done.flatMap (plan.spots d)) d d'
  overlay : Disk.Overlay (plan.files d done) (plan.ground d (plan.level d done)) d'

theorem Settled.mem_files (hd : plan.Settled d) {x : Place × Bytes}
    (hx : x ∈ plan.files d entries) :
    (∃ entry ∈ entries, x ∈ (plan.effect d entry).files ∧ x.1 ∈ plan.spots d entry) ∧
      (d.makeDirectories plan.outDir).2 = none ∧
      (plan.ground d 2).tree.get? x.1 ≠ some .directory := by
  obtain ⟨entry, hentry, hx⟩ := List.mem_flatMap.1 hx
  have hfits := hd.fits_effect entry
  have hlevel := hfits.level (List.ne_nil_of_mem hx)
  exact ⟨⟨entry, hentry, hx, hfits.mem x hx⟩, hfits.made (by omega), hfits.get? x hx⟩

namespace Reached

variable {done : List Path} (hd : plan.Settled d) (h : plan.Reached d done d')

include hd h

theorem since : plan.Since d done d' := by
  refine ⟨h.adds, fun p => ?_⟩
  by_cases hp : ∃ x ∈ plan.files d done, x.1 = p
  · obtain ⟨x, hx, rfl⟩ := hp
    obtain ⟨⟨entry, hentry, -, hmem⟩, -⟩ := hd.mem_files hx
    exact .inr (.inl (List.mem_flatMap.2 ⟨entry, hentry, hmem⟩))
  · rw [h.overlay.get? p fun x hx heq => hp ⟨x, hx, heq⟩]
    rcases (hd.since_ground (plan.level d done)).get? p with heq | hmem | hmade
    · exact .inl heq
    · simp at hmem
    · exact .inr (.inr hmade)

/-- How the files of an entry are stored does not depend on what is built before, if that has other
stems. -/
theorem storeAll {entry : Path} {job : Job} (hjob : plan.job entry = .ok job)
    (hstems : ∀ other ∈ done, ∀ stem, entry.stem? = some stem → other.stem? ≠ some stem)
    (css : String) (record : BuildRecord) :
    Disk.Overlay (plan.files d done ++ (plan.storing d job css record).files)
        (plan.ground d (max (plan.level d done) (plan.storing d job css record).level))
        (plan.storeAll d' job css record).1 ∧
      (plan.storeAll d' job css record).2.isNone = (plan.storing d job css record).success := by
  obtain ⟨stem, hstem, houtput, hrecord⟩ := spot_job hjob d
  have hfiles : ∀ x ∈ plan.files d done, x.1 ≠ (d.spot job.output).place ∧
      x.1 ≠ (d.spot job.record).place := by
    intro x hx
    obtain ⟨⟨other, hother, -, hmem⟩, -⟩ := hd.mem_files hx
    have hstem' := hstems other hother stem hstem
    rw [houtput, hrecord]
    exact ⟨fun heq => css_not_mem_spots hstem' _ (heq ▸ hmem),
      fun heq => meta_not_mem_spots hstem' _ (heq ▸ hmem)⟩
  have hfirst := hd.store_output hjob h.overlay hd.made_of_level (fun x hx =>
    ⟨hd.off_outDir (hd.mem_files hx).2.1 (hd.mem_files hx).2.2, (hfiles x hx).1⟩) (Text.utf8 css)
  unfold Plan.storeAll storing
  dsimp only
  -- The cases of `storing` are those of the stores, on the disk before and on the one reached.
  rcases hfirst with ⟨hnot, failure, d₁, hstore, hafter⟩ | ⟨hstored, d₁, hstore, hafter⟩
  · rw [hstore, if_neg (fun hnone => hnot (isNone_store_iff.1 hnone))]
    exact ⟨by rwa [List.append_nil], rfl⟩
  · rw [hstore, if_pos (isNone_store_iff.2 hstored)]
    dsimp only
    -- The output is one more of the files that are elsewhere when the record is stored.
    have hget := hd.get?_output hjob hstored
    have hoff : ∀ x ∈ plan.files d done ++ [((d.spot job.output).place, Text.utf8 css)],
        ¬d.OnWay (Project.recordDirectory plan.base) x.1 ∧ x.1 ≠ (d.spot job.record).place := by
      intro x hx
      rcases List.mem_append.1 hx with hx | hx
      · obtain ⟨⟨other, -, -, hmem⟩, -, hget⟩ := hd.mem_files hx
        exact ⟨hd.off_recordDirectory hmem hget, (hfiles x hx).2⟩
      · obtain rfl := List.mem_singleton.1 hx
        refine ⟨hd.off_recordDirectory (by rw [spots_eq hjob]; exact .head _) hget, ?_⟩
        rw [houtput, hrecord]
        exact fun heq => append_css_ne_append_meta _ _
          (List.singleton_inj.1 (List.append_inj' heq rfl).2)
    obtain ⟨n, hn⟩ : ∃ n, max (plan.level d done) 1 = n + 1 :=
      ⟨max (plan.level d done) 1 - 1, by omega⟩
    rw [hn] at hafter
    have hlevel : plan.ground d (max (plan.level d done) 2) = plan.ground d 2 :=
      ground_of_two_le (by omega)
    rcases hd.store_record hjob hafter hoff record.encode with
      ⟨hnot, failure, d₂, hstore', hafter'⟩ | ⟨hstored', d₂, hstore', hafter'⟩
    · rw [hstore', if_neg (fun hnone => hnot (isNone_store_iff.1 hnone))]
      exact ⟨by rwa [hlevel], rfl⟩
    · rw [hstore', if_pos (isNone_store_iff.2 hstored')]
      rw [List.append_assoc] at hafter'
      exact ⟨by rwa [hlevel], rfl⟩

/-- The build of an entry with another stem takes a build on. -/
theorem buildEntry {entry : Path} (hentry : d.Descends entry)
    (hstems : ∀ other ∈ done, ∀ stem, entry.stem? = some stem → other.stem? ≠ some stem) :
    plan.Reached d (done ++ [entry]) (plan.buildEntry d' entry).disk ∧
      (plan.buildEntry d' entry).result.success = (plan.effect d entry).success := by
  have hadds := plan.adds_buildAll d' [entry]
  rw [spots_of_adds h.adds] at hadds
  have hcarried := plan.buildEntry_eq_carryOut d' entry
  rw [(h.since hd).decision_eq hd hentry hstems] at hcarried
  have heffect : Disk.Overlay (plan.files d done ++ (plan.effect d entry).files)
        (plan.ground d (max (plan.level d done) (plan.effect d entry).level))
        (plan.buildEntry d' entry).disk ∧
      (plan.buildEntry d' entry).result.success = (plan.effect d entry).success := by
    unfold effect
    cases hdecision : plan.decision d entry with
    | leave success =>
      rw [hdecision] at hcarried
      obtain ⟨hdisk, hsuccess⟩ := Prod.mk.inj hcarried
      rw [hdisk, hsuccess]
      refine ⟨?_, rfl⟩
      dsimp only [Decision.effect]
      rw [List.append_nil, Nat.max_zero]
      exact h.overlay
    | store job css record =>
      rw [hdecision] at hcarried
      obtain ⟨hdisk, hsuccess⟩ := Prod.mk.inj hcarried
      rw [hdisk, hsuccess]
      exact h.storeAll hd (decision_eq_store hdecision) hstems css record
  refine ⟨⟨?_, ?_⟩, heffect.2⟩
  · rw [List.flatMap_append]
    exact h.adds.trans hadds
  · rw [files, List.flatMap_append, level_append]
    simpa [files, level] using heffect.1

theorem buildAll {rest : List Path} (hentries : ∀ entry ∈ rest, d.Descends entry)
    (hstems : ((done ++ rest).filterMap Path.stem?).Nodup) :
    plan.Reached d (done ++ rest) (plan.buildAll d' rest).disk ∧
      (plan.buildAll d' rest).success = rest.all fun entry => (plan.effect d entry).success := by
  -- What is built so far takes in one entry after the other, and the disk goes with it.
  induction rest generalizing done d' with
  | nil => exact ⟨by rwa [List.append_nil], rfl⟩
  | cons entry rest ih =>
    obtain ⟨hfirst, hsuccess⟩ := h.buildEntry hd (hentries entry List.mem_cons_self)
      fun other hother _ hstem => stem?_ne_of_nodup hstems (.inl hother) hstem
    have happend : done ++ [entry] ++ rest = done ++ entry :: rest := by simp
    obtain ⟨hrest, hsuccess'⟩ := ih hfirst
      (fun other hother => hentries other (List.mem_cons_of_mem _ hother)) (by rwa [happend])
    rw [happend] at hrest
    refine ⟨hrest, ?_⟩
    rw [Plan.buildAll, List.all_cons, ← hsuccess, ← hsuccess']

theorem read_eq {done' : List Path} {d'' : Disk} (h' : plan.Reached d done' d'') {path : Path}
    (hpath : d.Descends path)
    (hfiles : ∀ x, x.1 = (d.spot path).place → (x ∈ plan.files d done ↔ x ∈ plan.files d done')) :
    (d'.read path).toOption = (d''.read path).toOption := by
  refine Disk.Adds.read_congr hd.proper h.adds h'.adds hpath fun content => ?_
  by_cases hx : ∃ x ∈ plan.files d done, x.1 = (d.spot path).place
  · obtain ⟨x, hx, heq⟩ := hx
    rw [← heq, h.overlay.file x hx, h'.overlay.file x ((hfiles x heq).1 hx)]
  · -- Then there is a file only if it was there before.
    rw [h.overlay.get? _ fun x hmem heq => hx ⟨x, hmem, heq⟩,
      h'.overlay.get? _ fun x hmem heq => hx ⟨x, (hfiles x heq).2 hmem, heq⟩,
      ← (hd.since_ground _).file_iff (by simp), ← (hd.since_ground _).file_iff (by simp)]

end Reached

theorem Settled.mem_files_iff (hd : plan.Settled d)
    (hstems : (entries.filterMap Path.stem?).Nodup) (hentry : entry ∈ entries) {x : Place × Bytes}
    (hx : x.1 ∈ plan.spots d entry) :
    x ∈ plan.files d entries ↔ x ∈ plan.files d [entry] := by
  obtain ⟨front, back, rfl⟩ := List.append_of_mem hentry
  obtain ⟨stem, hstem, hplace⟩ := mem_spots hx
  -- The names at these places have the stem in them.
  have hothers : ∀ others : List Path, (∀ other ∈ others, other.stem? ≠ some stem) →
      x ∉ plan.files d others := by
    intro others hne hmem
    obtain ⟨⟨other, hother, -, hspot⟩, -⟩ := hd.mem_files hmem
    rcases hplace with heq | heq
    · exact css_not_mem_spots (hne other hother) _ (heq ▸ hspot)
    · exact meta_not_mem_spots (hne other hother) _ (heq ▸ hspot)
  have hfront := hothers front fun other hother => stem?_ne_of_nodup hstems (.inl hother) hstem
  have hback := hothers back fun other hother => stem?_ne_of_nodup hstems (.inr hother) hstem
  simp only [files, List.flatMap_append, List.flatMap_cons, List.mem_append] at hfront hback ⊢
  simp [hfront, hback]

section

variable {entries entries' : List Path} (hd : plan.Settled d)
  (hentries : ∀ entry ∈ entries, d.Descends entry)
  (hstems : (entries.filterMap Path.stem?).Nodup)

include hd hentries hstems

/-- What a build comes to, told from the disk before it. -/
theorem Settled.reached_build :
    plan.Reached d entries (plan.build d false entries).disk ∧
      (plan.build d false entries).success =
        entries.all fun entry => (plan.effect d entry).success := by
  have hstart : plan.Reached d [] d := ⟨.refl d, .refl d⟩
  exact hstart.buildAll hd hentries hstems

theorem Settled.build_perm (hperm : entries.Perm entries') :
    (plan.build d false entries').success = (plan.build d false entries).success ∧
      (plan.build d false entries').disk.cwd = (plan.build d false entries).disk.cwd ∧
      ∀ p, (plan.build d false entries').disk.tree.get? p =
        (plan.build d false entries).disk.tree.get? p := by
  obtain ⟨hreached, hsuccess⟩ := hd.reached_build hentries hstems
  obtain ⟨hreached', hsuccess'⟩ := hd.reached_build
    (fun entry hentry => hentries entry (hperm.mem_iff.2 hentry))
    ((hperm.filterMap Path.stem?).nodup_iff.1 hstems)
  refine ⟨?_, hreached'.adds.cwd.trans hreached.adds.cwd.symm, ?_⟩
  · rw [hsuccess, hsuccess', hperm.all_eq]
  · have hsame : ∀ x, x ∈ plan.files d entries' ↔ x ∈ plan.files d entries := by
      intro x
      simp only [files, List.mem_flatMap, hperm.mem_iff]
    have hoverlay := hreached'.overlay.congr hsame
    rw [← level_perm hperm] at hoverlay
    exact hoverlay.unique hreached.overlay

theorem Settled.build_alone {entry : Path} (hentry : entry ∈ entries) :
    (plan.build d false [entry]).success = (plan.effect d entry).success ∧
      ∀ job, plan.job entry = .ok job → ∀ path ∈ [job.output, job.record],
        ((plan.build d false entries).disk.read path).toOption =
          ((plan.build d false [entry]).disk.read path).toOption := by
  obtain ⟨hreached, -⟩ := hd.reached_build hentries hstems
  have halone : ([entry].filterMap Path.stem?).Nodup := by
    cases hstem : entry.stem? with
    | none => simp [hstem]
    | some stem => simp [hstem]
  have hentry' : ∀ other ∈ [entry], d.Descends other :=
    fun other hother => hentries other (List.mem_singleton.1 hother ▸ hentry)
  obtain ⟨hreached', hsuccess⟩ := hd.reached_build hentry' halone
  refine ⟨by simpa using hsuccess, fun job hjob path hpath => ?_⟩
  have hplace : (d.spot path).place ∈ plan.spots d entry := by
    rw [spots_eq hjob]
    exact List.mem_map_of_mem (f := fun path => (d.spot path).place) hpath
  have hdescends : d.Descends path := by
    obtain ⟨stem, hstem, rfl⟩ := job_eq_ok hjob
    have hname : ∀ path ∈ [plan.outDir.join ⟨stem ++ ".css"⟩,
        (Project.recordDirectory plan.base).join ⟨stem ++ ".meta"⟩], d.Descends path := by
      simp only [List.forall_mem_cons]
      exact ⟨hd.outDir.join_name (Path.isName_of_stem? hstem (by decide) (by decide)),
        hd.recordDirectory.join_name (Path.isName_of_stem? hstem (by decide) (by decide)), by simp⟩
    exact hname path hpath
  exact hreached.read_eq hd hreached' hdescends fun x hx =>
    hd.mem_files_iff hstems hentry (hx ▸ hplace)

end

end Plan

theorem Outcome.exitCode_eq_zero_iff {o : Outcome} : o.exitCode = 0 ↔ o.success = true := by
  refine ⟨success_of_exitCode, fun h => ?_⟩
  rw [exitCode, if_pos h]

namespace Project

theorem settled_plan {d : Disk} (hd : d.Proper) {asked : Option Path} {project : Project}
    (hload : load d asked = .ok project) (select : Bool)
    (hout : d.Descends (project.plan d select).outDir)
    (hmanifest : ∀ path ∈ (project.plan d select).manifest, d.has path = true ∨
      ¬(d.spot path).place <+: (d.spot (project.plan d select).outDir).place) :
    (project.plan d select).Settled d := by
  refine ⟨hd, stands_base hd hload, hout, fun path hpath => ⟨?_, hmanifest path hpath⟩⟩
  obtain ⟨directory, hdirectory, rfl⟩ := Option.map_eq_some_iff.1 hpath
  show directory.join manifestName = (project.directory.getD d.cwdPath).join manifestName
  rw [hdirectory]
  rfl

/-- Entries with different stems are built in any order to the same disk and with the same exit code,
and what comes of each of them is what its build alone comes to. In the directory of the project is a
manifest of the usual name, or at least the outputs are not put where that would be. -/
theorem build_any_order {d : Disk} (hd : d.Proper) {asked : Option Path} {project : Project}
    (hload : load d asked = .ok project) {select : Bool} {plan : Plan}
    (hplan : plan = project.plan d select) (hout : d.Descends plan.outDir)
    (hmanifest : ∀ path ∈ plan.manifest,
      d.has path = true ∨ ¬(d.spot path).place <+: (d.spot plan.outDir).place)
    {entries entries' : List Path} (hentries : ∀ entry ∈ entries, d.Descends entry)
    (hstems : (entries.filterMap Path.stem?).Nodup) (hperm : entries.Perm entries')
    {o o' : Outcome} (ho : o = plan.build d false entries) (ho' : o' = plan.build d false entries') :
    o'.exitCode = o.exitCode ∧ o'.disk.cwd = o.disk.cwd ∧
      (∀ p, o'.disk.tree.get? p = o.disk.tree.get? p) ∧
      (o.exitCode = 0 ↔ ∀ entry ∈ entries, (plan.build d false [entry]).exitCode = 0) ∧
      ∀ entry ∈ entries, ∀ job, plan.job entry = .ok job → ∀ path ∈ [job.output, job.record],
        (o.disk.read path).toOption =
          ((plan.build d false [entry]).disk.read path).toOption := by
  subst hplan ho ho'
  have hsettled := settled_plan hd hload select hout hmanifest
  obtain ⟨hsuccess, hcwd, hget⟩ := hsettled.build_perm hentries hstems hperm
  have halone := fun entry (hentry : entry ∈ entries) =>
    hsettled.build_alone hentries hstems hentry
  refine ⟨by rw [Outcome.exitCode, Outcome.exitCode, hsuccess], hcwd, hget, ?_,
    fun entry hentry => (halone entry hentry).2⟩
  rw [Outcome.exitCode_eq_zero_iff, (hsettled.reached_build hentries hstems).2, List.all_eq_true]
  refine forall₂_congr fun entry hentry => ?_
  rw [Outcome.exitCode_eq_zero_iff, (halone entry hentry).1]

/-! ## Samples -/

/-- A project in which a source is among the outputs and a directory is in the place of an output. -/
def mixed : Disk where
  tree := ⟨[(["p"], .directory), (["p", "icss.toml"], .file (Text.utf8 "build.out_dir = 'o'")),
    (["p", "a.icss"], .file (Text.utf8 "a \x7b b: 1; \x7d")), (["p", "o"], .directory),
    (["p", "o", "b.icss"], .file (Text.utf8 "c \x7b d: 2; \x7d")),
    (["p", "c.icss"], .file (Text.utf8 "e \x7b f: 3; \x7d")), (["p", "o", "c.css"], .directory)]⟩
  cwd := { place := ["p"] }

def mixedPlan : Plan where
  base := ⟨"/p"⟩
  manifest := some ⟨"/p/icss.toml"⟩
  outDir := ⟨"/p/o"⟩
  options := {}

/-- What of it is built; the last of these is not there. -/
def mixedEntries : List Path :=
  [⟨"/p/a.icss"⟩, ⟨"/p/o/b.icss"⟩, ⟨"/p/c.icss"⟩, ⟨"/p/x.icss"⟩]

theorem proper_mixed : mixed.Proper where
  wellFormed := FileTree.wellFormed_of_entries (by decide +kernel)
  lost := rfl
  directory := rfl
  isName := by
    intro name h
    obtain rfl := List.mem_singleton.1 h
    exact ⟨⟨by decide, by decide, by decide⟩, by decide⟩

theorem mixed_builds :
    (∃ project ∈ (load mixed none).toOption, mixedPlan = project.plan mixed false) ∧
      mixed.has ⟨"/p/icss.toml"⟩ = true ∧
      mixedEntries.map (fun entry => (mixedPlan.build mixed false [entry]).exitCode) =
        [0, 0, 1, 1] := by
  decide +kernel

/-- Two of the entries are built and two are not, from the first to the last and back. -/
theorem build_any_order_mixed :
    (mixedPlan.build mixed false mixedEntries).exitCode ≠ 0 ∧
      (mixedPlan.build mixed false mixedEntries.reverse).exitCode =
        (mixedPlan.build mixed false mixedEntries).exitCode ∧
      (∀ p, (mixedPlan.build mixed false mixedEntries.reverse).disk.tree.get? p =
        (mixedPlan.build mixed false mixedEntries).disk.tree.get? p) ∧
      ((mixedPlan.build mixed false mixedEntries).disk.read ⟨"/p/o/b.css"⟩).toOption =
        ((mixedPlan.build mixed false [⟨"/p/o/b.icss"⟩]).disk.read ⟨"/p/o/b.css"⟩).toOption := by
  obtain ⟨⟨project, hload, hplan⟩, hmanifest, hcodes⟩ := mixed_builds
  have hdots : ∀ entry ∈ mixedEntries, ".." ∉ entry.segments := by decide +kernel
  obtain ⟨hexit, -, hget, hall, hfiles⟩ := build_any_order proper_mixed
    (toOption_eq_some_iff.1 hload) hplan (proper_mixed.descends (by decide +kernel))
    (fun path hpath => .inl (by rw [← Option.some.inj hpath]; exact hmanifest))
    (fun entry hentry => proper_mixed.descends (hdots entry hentry)) (by decide +kernel)
    (List.reverse_perm mixedEntries).symm rfl rfl
  refine ⟨fun hzero => ?_, hexit, hget, ?_⟩
  · have hlast := hall.1 hzero ⟨"/p/x.icss"⟩ (by simp [mixedEntries])
    simp [mixedEntries, hlast] at hcodes
  · have hjob : mixedPlan.job ⟨"/p/o/b.icss"⟩ =
        .ok ⟨⟨"/p/o/b.icss"⟩, ⟨"/p/o/b.css"⟩, ⟨"/p/.icss/build/b.meta"⟩⟩ :=
      toOption_eq_some_iff.1 (by decide +kernel)
    exact hfiles _ (by simp [mixedEntries]) _ hjob _ (by simp)

/-- A project whose manifest has another name, with the outputs where one of the usual name would
be. -/
def misnamed : Disk where
  tree := ⟨[(["p"], .directory),
    (["p", "foo.toml"], .file (Text.utf8 "build.out_dir = 'icss.toml'")),
    (["p", "a.icss"], .file (Text.utf8 "a \x7b b: 1; \x7d")),
    (["p", "b.icss"], .file (Text.utf8 "c \x7b d: 2; \x7d"))]⟩
  cwd := { place := ["p"] }

def misnamedPlan : Plan where
  base := ⟨""⟩
  manifest := some ⟨"icss.toml"⟩
  outDir := ⟨"icss.toml"⟩
  options := {}

/-- Each of two entries is built alone, but after the other it is not: in the place of the manifest
there is a directory then. -/
theorem exists_order_matters :
    (∃ project ∈ (load misnamed (some ⟨"foo.toml"⟩)).toOption,
        project.plan misnamed false = misnamedPlan) ∧
      (misnamedPlan.build misnamed false [⟨"a.icss"⟩]).exitCode = 0 ∧
      (misnamedPlan.build misnamed false [⟨"b.icss"⟩]).exitCode = 0 ∧
      (misnamedPlan.build misnamed false [⟨"a.icss"⟩, ⟨"b.icss"⟩]).exitCode = 1 ∧
      ((misnamedPlan.build misnamed false [⟨"a.icss"⟩, ⟨"b.icss"⟩]).disk.read
        ⟨"icss.toml/b.css"⟩).toOption = none ∧
      ((misnamedPlan.build misnamed false [⟨"b.icss"⟩, ⟨"a.icss"⟩]).disk.read
        ⟨"icss.toml/b.css"⟩).toOption = some (Text.utf8 "c \x7b\n\td: 2;\n\x7d\n") := by
  decide +kernel

end Project

end TypedStyle
