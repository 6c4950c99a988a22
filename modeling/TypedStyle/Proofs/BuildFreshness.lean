import TypedStyle.Proofs.BuildHistory

/-!
# Builds can be trusted

`Session.Reaches.build_fresh` says that the outputs of a build that went well are what their sources
compile to, in all the histories of a project in which nobody meddles with the build records.

Two slips limit it. An entry is up to date as soon as something is in the place of its output, and
that may be a directory (`Session.exists_directory_up_to_date`). And a build that cleans away the
manifest it was made with leaves records as if there had been none, which a project that has lost
its manifest takes for its own (`Session.exists_stale_up_to_date`).
-/

namespace TypedStyle

namespace Session

variable {S M : Bytes → Prop} {dir : ProjectDirectory}

/-- After a build that went well, the output of an entry is what the source of the entry compiles
to, whether it was compiled or taken for up to date, unless there is a directory in its place. This
is so for every entry whose stem no entry after it has and whose source the build did not write
over. If the project has no manifest now, no build may have lost its manifest before. -/
theorem Reaches.build_fresh {s : Session} (h : Reaches dir S M s)
    (hS : Digest.CollisionFree S) (hM : Digest.CollisionFree M)
    (hlost : s.lost → Project.nearestManifest (dir.disk s.tree) ≠ none) {words : List String}
    (hrun : dir.Runs S M s.tree ("build" :: words)) {o : Outcome}
    (ho : o = Project.run (dir.disk s.tree) ("build" :: words)) (hexit : o.exitCode = 0) :
    ∃ plan start paths, Project.Building (dir.disk s.tree) ("build" :: words) plan start paths ∧
      ∀ before entry after, paths = before ++ entry :: after →
        (∀ later ∈ after, later.stem? ≠ entry.stem?) → entry.place ∉ plan.written o →
        ∃ job source css, plan.job entry = .ok job ∧ o.disk.readText entry = .ok source ∧
          compile plan.options source = .ok css ∧
          (o.disk.read job.output = .ok (Text.utf8 css) ↔
            o.disk.isDirectory job.output = false) := by
  have hsuccess : o.success = true := by
    cases hfailed : o.success with
    | true => rfl
    | false => simp [Outcome.exitCode, hfailed] at hexit
  subst ho
  rcases Project.run_cases (dir.disk s.tree) ("build" :: words) with
    ⟨-, -, hfails⟩ | ⟨plan, start, paths, hbuilding, hdrops, hdisk, hsuccesses, hbuilt⟩
  · simp [hfails rfl] at hsuccess
  -- The records were sound before the build, which then goes through the entries one by one.
  obtain ⟨hsuits, hfollows, habsolute, hstart⟩ := hrun.building hbuilding
  obtain ⟨goes, hsound, hgoes⟩ := h.exists_goes hlost hsuits hfollows hdrops hstart
  refine ⟨plan, start, paths, hbuilding, ?_⟩
  rintro before entry after rfl hstems hsource
  rw [hsuccesses] at hsuccess
  rw [Plan.written, hbuilt] at hsource
  rw [hdisk]
  obtain ⟨job, source, css, hjob, hread, hcompile, hfresh⟩ :=
    hsound.buildAll_fresh hsuits hS hM (hrun.sources plan start _ hbuilding)
      (fun d hd => hfollows.manifests hsuits hrun.manifests hdrops hd) hgoes
      (habsolute entry (by simp)) hsuccess hstems hsource
  exact ⟨job, source, css, hjob, hread, hcompile, hfresh.read_iff⟩

/-! ## Samples -/

def sampleDirectory : ProjectDirectory where
  place := ["p"]
  isName := by
    intro name h
    obtain rfl := List.mem_singleton.1 h
    exact ⟨by decide, by decide, by decide⟩

/-- A source outside of the directory. -/
def sampleSource : Bytes := Text.utf8 "a \x7b b: 1; \x7d"

/-- A manifest that says where the outputs go. -/
def sampleManifest (outDir : String) : Bytes :=
  Text.utf8 ("build.out_dir = '" ++ outDir ++ "'")

def sampleManifests : List Bytes :=
  [sampleManifest "a", sampleManifest "a/main.css", sampleManifest ""]

def sampleBuild : List String := ["build", "--file", "/main.icss"]

def sampleRun (s : Session) : Outcome := Project.run (sampleDirectory.disk s.tree) sampleBuild

theorem collisionFree_sampleManifests : Digest.CollisionFree (· ∈ sampleManifests) := by
  have hdigests : ∀ a ∈ sampleManifests, ∀ b ∈ sampleManifests,
      Digest.sha256Hex a = Digest.sha256Hex b → a = b := by
    decide +kernel
  exact fun a b ha hb => hdigests a ha b hb

theorem exists_up_to_date :
    ∃ s, Reaches sampleDirectory (· = sampleSource) (· ∈ sampleManifests) s ∧
      sampleDirectory.Runs (· = sampleSource) (· ∈ sampleManifests) s.tree sampleBuild ∧
      Project.nearestManifest (sampleDirectory.disk s.tree) ≠ none ∧
      (sampleRun s).exitCode = 0 ∧ (sampleRun s).built = [] ∧
      (sampleRun s).disk.isDirectory ⟨"/p/a/main.css"⟩ = false ∧
      ∃ x ∈ Project.building? (sampleDirectory.disk s.tree) sampleBuild,
        x.2.2 = [⟨"/main.icss"⟩] ∧ x.1.options = {} ∧
        (x.1.job ⟨"/main.icss"⟩).toOption.map Job.output = some ⟨"/p/a/main.css"⟩ := by
  refine Reaches.exists_of_follow [.put ["p"] .directory,
    .put ["p", "icss.toml"] (.file (sampleManifest "a")), .put ["main.icss"] (.file sampleSource),
    .run sampleBuild] ?_
  decide +kernel

/-- The second build takes the entry for up to date, and rightly. -/
theorem Reaches.build_fresh_up_to_date :
    ∃ s source css, Reaches sampleDirectory (· = sampleSource) (· ∈ sampleManifests) s ∧
      (sampleRun s).exitCode = 0 ∧ (sampleRun s).built = [] ∧
      (sampleRun s).disk.readText ⟨"/main.icss"⟩ = .ok source ∧ compile {} source = .ok css ∧
      (sampleRun s).disk.read ⟨"/p/a/main.css"⟩ = .ok (Text.utf8 css) := by
  obtain ⟨s, hs, hrun, hnearest, hexit, hbuilt, hfile, ⟨plan, start, paths⟩, hbuilding, hpaths,
    hoptions, houtput⟩ := exists_up_to_date
  obtain ⟨plan', start', paths', hbuilding', hfresh⟩ := hs.build_fresh
    (fun _ _ ha hb _ => ha.trans hb.symm) collisionFree_sampleManifests (fun _ => hnearest) hrun
    (show sampleRun s = _ from rfl) hexit
  -- The build that the theorem speaks of is the one that was computed.
  obtain ⟨rfl, rfl, rfl⟩ : plan = plan' ∧ start = start' ∧ paths = paths' := by
    have heq := hbuilding.symm.trans (Project.building?_eq_some_iff.2 hbuilding')
    simpa using heq
  obtain ⟨job, source, css, hjob, hsource, hcompile, hread⟩ :=
    hfresh [] ⟨"/main.icss"⟩ [] hpaths (by simp) (by simp [Plan.written, hbuilt])
  simp only [hjob, Except.toOption, Option.map_some, Option.some.injEq] at houtput
  rw [hoptions] at hcompile
  rw [houtput] at hread
  exact ⟨s, source, css, hs, hexit, hbuilt, hsource, hcompile, hread.2 hfile⟩

/-- In one history a directory counts as an output that is up to date: the output was removed, and
another build had made its own directory for outputs in that place. -/
theorem exists_directory_up_to_date :
    ∃ s, Reaches sampleDirectory (· = sampleSource) (· ∈ sampleManifests) s ∧
      sampleDirectory.Runs (· = sampleSource) (· ∈ sampleManifests) s.tree sampleBuild ∧
      Project.nearestManifest (sampleDirectory.disk s.tree) ≠ none ∧
      (sampleRun s).exitCode = 0 ∧
      (sampleRun s).disk.isDirectory ⟨"/p/a/main.css"⟩ = true := by
  refine Reaches.exists_of_follow [.put ["p"] .directory,
    .put ["p", "icss.toml"] (.file (sampleManifest "a")), .put ["main.icss"] (.file sampleSource),
    .put ["other.icss"] (.file sampleSource), .run sampleBuild, .remove ["p", "a", "main.css"],
    .put ["p", "icss.toml"] (.file (sampleManifest "a/main.css")),
    .run ["build", "--file", "/other.icss"],
    .put ["p", "icss.toml"] (.file (sampleManifest "a"))] ?_
  decide +kernel

/-- In one history an empty output counts as up to date: a build has cleaned away its manifest, and
the output was put where a project without a manifest has it. -/
theorem exists_stale_up_to_date :
    ∃ s, Reaches sampleDirectory (· = sampleSource) (· ∈ sampleManifests) s ∧
      sampleDirectory.Runs (· = sampleSource) (· ∈ sampleManifests) s.tree sampleBuild ∧
      (sampleRun s).exitCode = 0 ∧
      ((sampleRun s).disk.readText ⟨"/main.icss"⟩).toOption = some "a \x7b b: 1; \x7d" ∧
      (compile {} "a \x7b b: 1; \x7d").toOption = some "a \x7b\n\tb: 1;\n\x7d\n" ∧
      ((sampleRun s).disk.read ⟨"/p/dist/main.css"⟩).toOption = some [] := by
  refine Reaches.exists_of_follow [.put ["p"] .directory,
    .put ["p", "icss.toml"] (.file (sampleManifest "")), .put ["main.icss"] (.file sampleSource),
    .run ["build", "--clean", "--file", "/main.icss"], .put ["p", "dist"] .directory,
    .put ["p", "dist", "main.css"] (.file [])] ?_
  decide +kernel

end Session

end TypedStyle
