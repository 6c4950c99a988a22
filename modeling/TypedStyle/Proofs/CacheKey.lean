import TypedStyle.Proofs.BuildCache
import TypedStyle.Proofs.ProjectPlace

/-!
# What a build record stands for

The record of a build is compared with the one of an earlier build, perhaps of other files, from
another directory and with other arguments. `Project.Visit.determined` says that this is right: where
the records are equal, so are the output path and all that comes of compiling the entry.

A record only knows of a manifest by the digest of the one in the directory of the project, taken
when the turn of the entry comes. So it does not tell under which manifest the output was made if the
one that was loaded has another name (`Project.exists_output_moved`), or if the build has cleaned it
away (`Project.exists_manifest_cleaned`).
-/

namespace TypedStyle.Project

/-- The turn of an entry in a build that arguments ask for. -/
structure Visit where
  disk : Disk
  arguments : Arguments
  project : Project
  /-- The disk from which the entries are built, after cleaning. -/
  start : Disk
  before : List Path
  entry : Path
  after : List Path
  load_eq : load disk arguments.manifestPath = .ok project
  entries_eq : entries arguments.entry project.manifest (project.base disk) =
    .ok (before ++ entry :: after)
  start_eq : if arguments.clean then
      (project.plan disk arguments.selectBranches).clean disk = (start, none) else start = disk

namespace Visit

variable (v : Visit) {content : Bytes}

def plan : Plan :=
  v.project.plan v.disk v.arguments.selectBranches

/-- The disk when the turn of the entry comes. -/
def turn : Disk :=
  (v.plan.buildAll v.start v.before).disk

/-- The files of the entry, if its path has a file name. -/
def job? : Option Job :=
  (v.plan.job v.entry).toOption

/-- The record that a build of the entry would leave, if its parts can be read. -/
def record? : Option BuildRecord :=
  (v.plan.record v.turn v.entry).toOption

/-- The contents of which the record has digests. -/
def digested : List Bytes :=
  (v.turn.read v.entry).toOption.toList ++ (v.plan.manifestContent? v.turn).toList

/-- A manifest that is asked for by its own path has the usual name. -/
def AsksUsual : Prop :=
  ∀ path ∈ v.arguments.manifestPath,
    v.disk.isDirectory path = true ∨ path.fileName? = some "icss.toml"

/-- The manifest is not cleaned away. -/
def KeepsManifest : Prop :=
  v.arguments.clean = true → ∀ path ∈ v.plan.manifest, v.start.has path = true

instance : Decidable v.AsksUsual :=
  inferInstanceAs (Decidable (∀ path ∈ v.arguments.manifestPath,
    v.disk.isDirectory path = true ∨ path.fileName? = some "icss.toml"))

instance : Decidable v.KeepsManifest :=
  inferInstanceAs (Decidable (v.arguments.clean = true →
    ∀ path ∈ v.plan.manifest, v.start.has path = true))

theorem drops : Disk.Drops v.disk v.start := by
  have hdrops := v.plan.drops_clean v.disk
  have hstart := v.start_eq
  split at hstart
  · rw [plan, hstart] at hdrops
    exact hdrops
  · rw [hstart]
    exact .refl _

variable {v}

theorem mem_digested_of_read (h : v.turn.read v.entry = .ok content) : content ∈ v.digested := by
  simp [digested, h, Except.toOption]

theorem mem_digested_of_manifest (h : content ∈ v.plan.manifestContent? v.turn) :
    content ∈ v.digested := by
  rw [Option.mem_def] at h
  simp [digested, h]

/-- The manifest is found on the way to the turn of the entry as it was when it was loaded. -/
theorem KeepsManifest.read_turn (h : v.KeepsManifest) {dir : Path}
    (hmanifest : v.plan.manifest = some (dir.join manifestName))
    (hread : v.disk.read (dir.join manifestName) = .ok content) :
    v.turn.read (dir.join manifestName) = .ok content := by
  have hspot : ∀ d : Disk, d.spot (dir.join manifestName) =
      { place := (d.spot dir).place ++ ["icss.toml"] } :=
    fun d => d.spot_join_name dir isName_manifest
  have hstart : v.start.entry (dir.join manifestName) = .ok (.file content) := by
    by_cases hclean : v.arguments.clean = true
    · obtain ⟨e, he⟩ := Disk.has_iff.1 (h hclean _ hmanifest)
      -- What is left after cleaning is the file that was there before.
      have hsame := Disk.spot_of_sinks v.drops.cwd he (by rw [hspot])
      have hleft := Disk.entry_eq_ok he
      have hwas := (Disk.get?_of_read hread).2
      rw [Standpoint.entry?, if_pos (by rw [hspot]), ← hsame] at hleft
      rw [v.drops.removes.get? hleft] at hwas
      rw [he, Option.some.inj hwas]
    · have hstart := v.start_eq
      rw [if_neg hclean] at hstart
      rw [hstart]
      exact Disk.read_eq_ok_iff.1 hread
  -- The entries before this one write only stylesheets and records.
  refine Disk.read_eq_ok_iff.2 ((v.plan.adds_buildAll v.start v.before).entry ?_ hstart)
  rw [hspot, List.mem_flatMap]
  rintro ⟨earlier, -, hmem⟩
  exact Plan.manifest_not_mem_spots _ hmem

theorem ofContent_manifestContent? (hasks : v.AsksUsual) (hkeeps : v.KeepsManifest) :
    v.project.manifest.getD {} = Manifest.ofContent (v.plan.manifestContent? v.turn) := by
  rcases load_usual v.load_eq hasks with hproject | ⟨dir, content, hread, hproject⟩
  · have hmanifest : v.plan.manifest = none := by simp [plan, Project.plan, hproject]
    rw [hproject, Plan.manifestContent?, hmanifest]
    rfl
  · have hmanifest : v.plan.manifest = some (dir.join manifestName) := by
      simp [plan, Project.plan, hproject]
    rw [hproject, Plan.manifestContent?, hmanifest, Option.bind_some,
      hkeeps.read_turn hmanifest hread]
    rfl

/-- Where the record of an entry is tells where its output is, as far as the manifest leaves it
open. -/
theorem same_output {v' : Visit} {job job' : Job} (hjob : v.job? = some job)
    (hjob' : v'.job? = some job') (hentry : v.entry = v'.entry)
    (hmanifest : v.project.manifest.getD {} = v'.project.manifest.getD {}) :
    (job.record.same job'.record = true → job.output.same job'.output = true) ∧
      (job.record = job'.record → job.output = job'.output) := by
  obtain ⟨stem, hstem, rfl⟩ := Plan.job_eq_ok (toOption_eq_some_iff.1 hjob)
  obtain ⟨stem', hstem', rfl⟩ := Plan.job_eq_ok (toOption_eq_some_iff.1 hjob')
  obtain rfl : stem = stem' := Option.some.inj (hstem.symm.trans (hentry ▸ hstem'))
  have hmeta : Place.IsName (stem ++ ".meta") := Path.isName_of_stem? hstem (by decide) (by decide)
  constructor
  · intro hrecord
    rw [Path.same_join_name_iff hmeta, recordDirectory, recordDirectory,
      Path.same_join_name_iff isName_build, Path.same_join_name_iff isName_icss] at hrecord
    refine Path.same_join ?_ _
    rw [plan, plan, Project.plan, Project.plan, hmanifest]
    exact Path.same_join hrecord _
  · intro hrecord
    have hfront := congrArg Path.front hrecord
    rw [Path.front_join_name_inj hmeta, recordDirectory, recordDirectory,
      Path.front_join_name_inj isName_build, Path.front_join_name_inj isName_icss] at hfront
    have hdir : v.plan.outDir = v'.plan.outDir := by
      rw [plan, plan, Project.plan, Project.plan, hmanifest]
      exact Path.join_congr hfront _
    rw [hdir]

/-- Two builds that would leave the same record at the same path have the same output path, and all
that comes of compiling the entry is the same in both, unless digests collide. The two disks and the
arguments may be any, but a manifest that is asked for has the usual name, and it is not cleaned
away. -/
theorem determined {v' : Visit} (hasks : v.AsksUsual) (hasks' : v'.AsksUsual)
    (hkeeps : v.KeepsManifest) (hkeeps' : v'.KeepsManifest)
    (hfree : Digest.CollisionFree (· ∈ v.digested ++ v'.digested))
    {job job' : Job} (hjob : v.job? = some job) (hjob' : v'.job? = some job')
    (hsame : job.record.same job'.record = true) {record : BuildRecord}
    (hrecord : v.record? = some record) (hrecord' : v'.record? = some record) :
    job.output.same job'.output = true ∧ (job.record = job'.record → job.output = job'.output) ∧
      Plan.compileFile v.turn v.plan.options v.entry =
        Plan.compileFile v'.turn v'.plan.options v'.entry := by
  obtain ⟨content, hread, rfl⟩ := Plan.record_eq_ok (toOption_eq_some_iff.1 hrecord)
  obtain ⟨content', hread', heq⟩ := Plan.record_eq_ok (toOption_eq_some_iff.1 hrecord')
  obtain ⟨hentry, hdigest, hdigests, hoptions⟩ := Plan.recordOf_inj heq
  -- Digests tell the sources and the manifests apart.
  obtain rfl := hfree content content' (List.mem_append_left _ (mem_digested_of_read hread))
    (List.mem_append_right _ (mem_digested_of_read hread')) hdigest
  have hcontents := hfree.eq_of_map
    (fun _ h => List.mem_append_left _ (mem_digested_of_manifest h))
    (fun _ h => List.mem_append_right _ (mem_digested_of_manifest h)) hdigests
  have hmanifest : v.project.manifest.getD {} = v'.project.manifest.getD {} := by
    rw [ofContent_manifestContent? hasks hkeeps, ofContent_manifestContent? hasks' hkeeps',
      hcontents]
  obtain ⟨hsameOutput, houtput⟩ := same_output hjob hjob' hentry hmanifest
  refine ⟨hsameOutput hsame, houtput, ?_⟩
  have htext : v.turn.readText v.entry = v'.turn.readText v'.entry := by
    rw [Disk.readText, Disk.readText, hread, hread']
  rw [Plan.compileFile, Plan.compileFile, htext, hoptions, hentry]

end Visit

/-- The turn of the first entry in the build that arguments ask for, if it comes to that. -/
def visit? (d : Disk) (words : List String) : Option Visit := do
  let arguments ← (Arguments.read true (isProject d) words).toOption
  match hload : load d arguments.manifestPath with
  | .error _ => none
  | .ok project =>
    match hentries : entries arguments.entry project.manifest (project.base d) with
    | .ok (entry :: after) =>
      let plan := project.plan d arguments.selectBranches
      match hstart : if arguments.clean then plan.clean d else (d, none) with
      | (_, some _) => none
      | (start, none) =>
        return {
          disk := d, arguments, project, start, before := [], entry, after
          load_eq := hload
          entries_eq := hentries
          start_eq := by
            split at hstart
            · next hclean => rwa [if_pos hclean]
            · next hclean => rw [if_neg hclean, (Prod.mk.inj hstart).1] }
    | _ => none

/-! ## Samples -/

/-- A directory with a manifest, and a source outside of it. -/
def apart (name manifest : String) : Disk where
  tree := ⟨[(["p"], .directory), (["p", name], .file (Text.utf8 manifest)),
    (["main.icss"], .file (Text.utf8 "a \x7b b: 1; \x7d"))]⟩
  cwd := { place := ["p"] }

def found : Option Visit :=
  visit? (apart "icss.toml" "build.out_dir = 'o'") ["--file", "/main.icss"]

/-- The same project, asked for by another path and from another directory. -/
def named : Option Visit :=
  visit? { apart "icss.toml" "build.out_dir = 'o'" with cwd := .root }
    ["--clean", "--manifest-path", "/./p/icss.toml", "--file", "/main.icss"]

theorem exists_found_named :
    ∃ v ∈ found, ∃ v' ∈ named,
      v.AsksUsual ∧ v'.AsksUsual ∧ v.KeepsManifest ∧ v'.KeepsManifest ∧
      (∀ a ∈ v.digested ++ v'.digested, ∀ b ∈ v.digested ++ v'.digested,
        Digest.sha256Hex a = Digest.sha256Hex b → a = b) ∧
      ∃ job ∈ v.job?, ∃ job' ∈ v'.job?, ∃ record ∈ v.record?, v'.record? = some record ∧
        job.record ≠ job'.record ∧ job.record.same job'.record = true := by
  decide +kernel

/-- The project is built to the same output, by whatever path it is asked for. -/
theorem Visit.determined_named :
    ∃ v ∈ found, ∃ v' ∈ named, ∃ job ∈ v.job?, ∃ job' ∈ v'.job?,
      job.record ≠ job'.record ∧ v.record? = v'.record? ∧ job.output.same job'.output = true ∧
      Plan.compileFile v.turn v.plan.options v.entry =
        Plan.compileFile v'.turn v'.plan.options v'.entry := by
  obtain ⟨v, hv, v', hv', hasks, hasks', hkeeps, hkeeps', hfree, job, hjob, job', hjob', record,
    hrecord, hrecord', hne, hsame⟩ := exists_found_named
  obtain ⟨houtput, -, hcompile⟩ := determined hasks hasks' hkeeps hkeeps'
    (fun a b ha hb => hfree a ha b hb) hjob hjob' hsame hrecord hrecord'
  exact ⟨v, hv, v', hv', job, hjob, job', hjob', hne, hrecord.trans hrecord'.symm, houtput, hcompile⟩

/-- Under a manifest of another name the output goes elsewhere, and the record does not tell. -/
theorem exists_output_moved :
    ∃ v ∈ visit? (apart "foo.toml" "build.out_dir = 'a'")
        ["--manifest-path", "foo.toml", "--file", "/main.icss"],
      ∃ v' ∈ visit? (apart "foo.toml" "build.out_dir = 'b'")
        ["--manifest-path", "foo.toml", "--file", "/main.icss"],
      v.digested = v'.digested ∧ ∃ job ∈ v.job?, ∃ job' ∈ v'.job?, ∃ record ∈ v.record?,
        v'.record? = some record ∧ job.record = job'.record ∧
        job.output.same job'.output = false := by
  decide +kernel

/-- Under a manifest that is cleaned away the output goes elsewhere than without a manifest, and the
record does not tell. -/
theorem exists_manifest_cleaned :
    ∃ v ∈ visit? (apart "icss.toml" "build.out_dir = ''") ["--clean", "--file", "/main.icss"],
      ∃ v' ∈ visit? (apart "foo.toml" "") ["--file", "/main.icss"],
      v.digested = v'.digested ∧ ∃ job ∈ v.job?, ∃ job' ∈ v'.job?, ∃ record ∈ v.record?,
        v'.record? = some record ∧ job.record = job'.record ∧
        job.output.same job'.output = false := by
  decide +kernel

end TypedStyle.Project
