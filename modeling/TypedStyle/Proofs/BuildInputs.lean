import TypedStyle.Proofs.Build

/-!
# What a build leaves of its inputs

A build changes files in two ways. Cleaning takes away what is in the directory of the records and
in that of the outputs, and each entry writes its output and its record over what is there. A file
that is touched by neither stays as it is, whatever becomes of the build (`Plan.get?_build`).

Nothing keeps the sources and the manifest out of these places. An input stays if it is in none of
them (`Project.build_keeps_inputs`); otherwise it may be lost (`Project.exists_input_lost`).
-/

namespace TypedStyle

/-- A place is inside a directory: further down than its place. -/
def Place.Inside (p directory : Place) : Prop :=
  directory <+: p ∧ directory ≠ p

instance (p directory : Place) : Decidable (p.Inside directory) :=
  inferInstanceAs (Decidable (_ ∧ _))

namespace Disk

/-! ## Removing directories -/

variable {was d : Disk} {path : Path} {p : Place} {content : Bytes}

theorem get?_clear_of_not_inside {s : Standpoint}
    (hinside : s.lost = 0 → ¬p.Inside s.place) (hfile : d.tree.get? p = some (.file content)) :
    (d.clear s).tree.get? p = some (.file content) := by
  unfold clear
  split
  · next hlost =>
    rw [FileTree.get?_clear, if_neg, hfile]
    rintro ⟨hne, hprefix⟩
    exact hinside hlost ⟨List.isPrefixOf_iff_prefix.1 hprefix, hne.symm⟩
  · exact hfile

/-- A file stays when a directory is removed which it is not in. The path of the directory is one
that led there before the directories around it were lost. -/
theorem get?_removeDirectory_of_not_inside (hwas : was.cwd.Sinks d.cwd)
    (hinside : ¬p.Inside (was.spot path).place) (hfile : d.tree.get? p = some (.file content)) :
    (d.removeDirectory path).1.tree.get? p = some (.file content) := by
  unfold removeDirectory
  split
  · exact hfile
  · next s hs =>
    obtain ⟨hs, -, hwalk⟩ := resolve_eq_ok hs
    split
    · exact hfile
    · exact hfile
    · next hdirectory =>
      have hcleared : (d.clear s).tree.get? p = some (.file content) := by
        refine get?_clear_of_not_inside (fun hlost => ?_) hfile
        rwa [← (sinks_of_walk (sinks_origin hwas path) hwalk).eq_of_lost hlost]
      unfold removeEmptied
      split
      · exact hcleared
      · exact hcleared
      · next directory name slash htarget =>
        -- In the end the directory itself is removed, and that is no file.
        have hsinks := (drops_clear d s).cwd
        have hspot := spot_of_target_of_sinks hsinks htarget
        rw [spot_of_target_of_sinks (hwas.trans hsinks) htarget] at hinside
        rw [hs, hspot] at hdirectory
        rw [remove, FileTree.get?_remove _ (by simp), if_neg, hcleared]
        intro hprefix
        refine hinside ⟨List.isPrefixOf_iff_prefix.1 hprefix, ?_⟩
        rintro rfl
        exact absurd (hdirectory.symm.trans hfile) (by simp)
      all_goals exact hcleared

end Disk

/-! ## Cleaning -/

variable {was d : Disk} {p : Place} {content : Bytes}

theorem Project.get?_removeIfThere {path : Path} (hwas : was.cwd.Sinks d.cwd)
    (hinside : ¬p.Inside (was.spot path).place) (hfile : d.tree.get? p = some (.file content)) :
    (removeIfThere d path).1.tree.get? p = some (.file content) := by
  have hremove := Disk.get?_removeDirectory_of_not_inside hwas hinside hfile
  unfold removeIfThere
  split
  · split <;> simp_all
  · exact hfile

namespace Plan

variable {plan : Plan}

/-- A file stays when a project is cleaned in whose directories of records and of outputs it is
not. -/
theorem get?_clean_of_not_inside
    (hrecords : ¬p.Inside (d.spot (Project.recordDirectory plan.base)).place)
    (houtputs : ¬p.Inside (d.spot plan.outDir).place)
    (hfile : d.tree.get? p = some (.file content)) :
    (plan.clean d).1.tree.get? p = some (.file content) := by
  have hdrops := Project.drops_removeIfThere d (Project.recordDirectory plan.base)
  have hkept := Project.get?_removeIfThere (.refl _) hrecords hfile
  unfold Plan.clean Project.clean
  split
  · next d' failure h =>
    rw [h] at hkept
    exact hkept
  · next d' h =>
    -- The working directory may be gone with the records, so the outputs are named from before that.
    rw [h] at hkept hdrops
    exact Project.get?_removeIfThere hdrops.cwd houtputs hkept

/-- A build keeps a file that cleaning does not take away and no entry writes over. -/
theorem get?_build {clean : Bool} {entries : List Path}
    (hclean : clean = true → ¬p.Inside (d.spot (Project.recordDirectory plan.base)).place ∧
      ¬p.Inside (d.spot plan.outDir).place)
    (hwrite : p ∉ entries.flatMap (plan.spots d))
    (hfile : d.tree.get? p = some (.file content)) :
    (plan.build d clean entries).disk.tree.get? p = some (.file content) := by
  unfold build
  split
  · next hasked =>
    obtain ⟨hrecords, houtputs⟩ := hclean hasked
    have hdrops := plan.drops_clean d
    have hkept := get?_clean_of_not_inside hrecords houtputs hfile
    split
    · next start failure hstart =>
      rw [hstart] at hkept
      exact hkept
    · next start hstart =>
      -- What cleaning has left is written over only where outputs and records were before it.
      rw [hstart] at hkept hdrops
      exact (plan.adds_buildAll_of_sinks hdrops.cwd entries).writes.get? hwrite hkept
  · exact (plan.adds_buildAll d entries).writes.get? hwrite hfile

end Plan

/-! ## Runs -/

deriving instance DecidableEq for Plan

/-- What the arguments of a build ask for. -/
structure BuildRequest where
  plan : Plan
  clean : Bool
  entries : List Path
deriving DecidableEq

namespace BuildRequest

/-- A build reaches for what is at a place: it cleans and the place is inside the directory of the
records or that of the outputs, or an entry has its output or its record there. -/
def Reaches (r : BuildRequest) (d : Disk) (p : Place) : Prop :=
  (r.clean = true ∧ (p.Inside (d.spot (Project.recordDirectory r.plan.base)).place ∨
      p.Inside (d.spot r.plan.outDir).place)) ∨
    p ∈ r.entries.flatMap (r.plan.spots d)

instance (r : BuildRequest) (d : Disk) (p : Place) : Decidable (r.Reaches d p) :=
  inferInstanceAs (Decidable (_ ∨ _))

theorem Reaches.exists_name {r : BuildRequest} (h : r.Reaches d p) (hclean : r.clean = false) :
    ∃ name ∈ p.getLast?, ".css".toList <:+ name.toList ∨ ".meta".toList <:+ name.toList := by
  rcases h with ⟨hasked, -⟩ | hwrite
  · simp [hclean] at hasked
  · obtain ⟨entry, -, hspot⟩ := List.mem_flatMap.1 hwrite
    obtain ⟨stem, -, houtput | hrecord⟩ := Plan.mem_spots hspot
    · exact ⟨stem ++ ".css", by simp [houtput], .inl (by simp)⟩
    · exact ⟨stem ++ ".meta", by simp [hrecord], .inr (by simp)⟩

end BuildRequest

namespace Project

/-- What the arguments of a build ask for, if they can be read, the project can be loaded and there
is something to build. -/
def request? (d : Disk) (words : List String) : Option BuildRequest := do
  let arguments ← (Arguments.read true (isProject d) words).toOption
  let project ← (load d arguments.manifestPath).toOption
  let paths ← (entries arguments.entry project.manifest (project.base d)).toOption
  return { plan := project.plan d arguments.selectBranches, clean := arguments.clean,
           entries := paths }

/-- The files that a build starts from: the manifest, and the sources of its entries. -/
def inputs (d : Disk) (words : List String) : List Path :=
  let arguments := (Arguments.read true (isProject d) words).toOption
  let manifest := arguments.bind fun arguments => locate d arguments.manifestPath
  manifest.toList.map Prod.fst ++ (request? d words).elim [] BuildRequest.entries

/-- A run that asks for a build does what the arguments ask for, or nothing. -/
theorem disk_run_build (d : Disk) (words : List String) :
    (run d ("build" :: words)).disk =
      (request? d words).elim d fun r => (r.plan.build d r.clean r.entries).disk := by
  have hcommand : Command.ofName? "build" = some .build := by decide
  simp only [run, hcommand, decide_true, request?, Option.bind_eq_bind]
  cases Arguments.read true (isProject d) words with
  | error e => rfl
  | ok arguments =>
    dsimp only [Except.toOption, Option.bind_some]
    cases load d arguments.manifestPath with
    | error e => rfl
    | ok project =>
      dsimp only [execute, Option.bind_some]
      cases entries arguments.entry project.manifest (project.base d) with
      | error failure => rfl
      | ok paths =>
        dsimp only [concluded, Option.bind_some, Option.pure_def, Option.elim_some]

theorem get?_run_build {words : List String} (hfile : d.tree.get? p = some (.file content))
    (hreaches : ∀ r ∈ request? d words, ¬r.Reaches d p) :
    (run d ("build" :: words)).disk.tree.get? p = some (.file content) := by
  rw [disk_run_build]
  cases hrequest : request? d words with
  | none => exact hfile
  | some r =>
    obtain ⟨hclean, hwrite⟩ := not_or.1 (hreaches r hrequest)
    refine Plan.get?_build (fun hasked => ?_) hwrite hfile
    exact not_or.1 fun hinside => hclean ⟨hasked, hinside⟩

/-- Whatever becomes of a build, its inputs are there after it with the content that they had
before, unless it reaches for them: it cleans and they are inside the directory of the records or of
the outputs, or they are at the place of an output or of a record. So without cleaning an input
stays unless it has the name of a stylesheet or of a record. -/
theorem build_keeps_inputs (d : Disk) (words : List String) :
    ∀ path ∈ inputs d words, ∀ content, d.read path = .ok content →
      let p := (d.spot path).place
      let after := (run d ("build" :: words)).disk.tree.get? p
      ((∀ r ∈ request? d words, ¬r.Reaches d p) → after = some (.file content)) ∧
        ((∀ r ∈ request? d words, r.clean = false) →
          (∀ name ∈ p.getLast?,
            ¬".css".toList <:+ name.toList ∧ ¬".meta".toList <:+ name.toList) →
          after = some (.file content)) := by
  intro path _ content hread
  obtain ⟨-, hfile⟩ := Disk.get?_of_read hread
  refine ⟨get?_run_build hfile, fun hclean hname => get?_run_build hfile ?_⟩
  intro r hr hreaches
  obtain ⟨name, hlast, hcss | hmeta⟩ := hreaches.exists_name (hclean r hr)
  · exact (hname name hlast).1 hcss
  · exact (hname name hlast).2 hmeta

/-! ## A project that is built in place -/

/-- A project whose outputs go where its sources are. -/
def inPlace : Disk where
  tree := ⟨[(["p"], .directory),
    (["p", "icss.toml"],
      .file (Text.utf8 "package.entry = 'src/main.icss'\nbuild.out_dir = 'src'")),
    (["p", "src"], .directory),
    (["p", "src", "main.icss"], .file (Text.utf8 "a \x7b b: 1; \x7d")),
    (["p", "src", "main.css"], .file (Text.utf8 "c \x7b d: 2; \x7d"))]⟩
  cwd := { place := ["p"] }

def inPlacePlan : Plan where
  base := ⟨"/p"⟩
  manifest := some ⟨"/p/icss.toml"⟩
  outDir := ⟨"/p/src"⟩
  options := {}

theorem request?_inPlace :
    request? inPlace ["--clean"] = some ⟨inPlacePlan, true, [⟨"/p/src/main.icss"⟩]⟩ ∧
      request? inPlace [] = some ⟨inPlacePlan, false, [⟨"/p/src/main.icss"⟩]⟩ ∧
      request? inPlace ["src/main.css"] =
        some ⟨inPlacePlan, false, [⟨"/p/src/main.css"⟩]⟩ := by
  decide +kernel

theorem inputs_inPlace :
    inputs inPlace ["--clean"] = [⟨"/p/icss.toml"⟩, ⟨"/p/src/main.icss"⟩] ∧
      inputs inPlace [] = [⟨"/p/icss.toml"⟩, ⟨"/p/src/main.icss"⟩] ∧
      inputs inPlace ["src/main.css"] = [⟨"/p/icss.toml"⟩, ⟨"/p/src/main.css"⟩] := by
  obtain ⟨hclean, hplain, hnamed⟩ := request?_inPlace
  simp only [inputs, hclean, hplain, hnamed]
  decide +kernel

/-- The manifest of the project is not where the outputs go, so that it stays if the project is
cleaned before it is built. The source stays without cleaning. -/
theorem build_keeps_inputs_inPlace :
    (⟨"/p/icss.toml"⟩ ∈ inputs inPlace ["--clean"] ∧
        (run inPlace ["build", "--clean"]).disk.tree.get? ["p", "icss.toml"] =
          some (.file (Text.utf8 "package.entry = 'src/main.icss'\nbuild.out_dir = 'src'"))) ∧
      ⟨"/p/src/main.icss"⟩ ∈ inputs inPlace [] ∧
        (run inPlace ["build"]).disk.tree.get? ["p", "src", "main.icss"] =
          some (.file (Text.utf8 "a \x7b b: 1; \x7d")) := by
  obtain ⟨hcleaning, hplain, -⟩ := inputs_inPlace
  obtain ⟨hrequest, hrequest', -⟩ := request?_inPlace
  have hmanifest : ⟨"/p/icss.toml"⟩ ∈ inputs inPlace ["--clean"] := by simp [hcleaning]
  have hsource : ⟨"/p/src/main.icss"⟩ ∈ inputs inPlace [] := by simp [hplain]
  refine ⟨⟨hmanifest, ?_⟩, hsource, ?_⟩
  · refine (build_keeps_inputs inPlace ["--clean"] _ hmanifest _ ?_).1 ?_
    · exact toOption_eq_some_iff.1 (by decide +kernel)
    · rw [hrequest]
      decide +kernel
  · refine (build_keeps_inputs inPlace [] _ hsource _ ?_).2 ?_ (by decide +kernel)
    · exact toOption_eq_some_iff.1 (by decide +kernel)
    · rw [hrequest']
      decide +kernel

/-- Inputs may be lost. Where the outputs go, cleaning takes away the source, and a source that has
the name of its output is written over in a build that goes well. -/
theorem exists_input_lost :
    (∃ path ∈ inputs inPlace ["--clean"], ∃ content, inPlace.read path = .ok content ∧
        (run inPlace ["build", "--clean"]).disk.tree.get? (inPlace.spot path).place = none) ∧
      ∃ path ∈ inputs inPlace ["src/main.css"], ∃ content written,
        inPlace.read path = .ok content ∧ (run inPlace ["build", "src/main.css"]).exitCode = 0 ∧
        (run inPlace ["build", "src/main.css"]).disk.tree.get? (inPlace.spot path).place =
          some (.file written) ∧
        written ≠ content := by
  obtain ⟨hcleaning, -, hnamed⟩ := inputs_inPlace
  obtain ⟨hrequest, -, hrequest'⟩ := request?_inPlace
  constructor
  · refine ⟨⟨"/p/src/main.icss"⟩, by simp [hcleaning], Text.utf8 "a \x7b b: 1; \x7d",
      toOption_eq_some_iff.1 (by decide +kernel), ?_⟩
    rw [disk_run_build, hrequest]
    decide +kernel
  · refine ⟨⟨"/p/src/main.css"⟩, by simp [hnamed], Text.utf8 "c \x7b d: 2; \x7d",
      Text.utf8 "c \x7b\n\td: 2;\n\x7d\n", toOption_eq_some_iff.1 (by decide +kernel),
      by decide +kernel, ?_, by decide +kernel⟩
    rw [disk_run_build, hrequest']
    decide +kernel

end Project

end TypedStyle
