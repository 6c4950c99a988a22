import TypedStyle.Proofs.Build
import TypedStyle.Proofs.BuildRecord

/-!
# The records of builds

A build takes an entry for up to date if the record that is kept for its stem is the one that it
would write, and something is in the place of the output. `Sound` is the invariant that makes this
right: whoever wrote a record that is kept wrote the output with it, at a place that the record
tells by the digest of the manifest, and since then the output was at most taken away or replaced by
a directory. Building an entry keeps it, because the output and the record of a stem are only
written together.
-/

namespace TypedStyle

/-! ## Digests -/

theorem Digest.length_bigEndian (width n : Nat) : (bigEndian width n).length = width := by
  induction width generalizing n with
  | zero => rfl
  | succ width ih => simp [bigEndian, ih]

theorem Digest.length_sha256 (content : Bytes) : (sha256 content).length = 32 := by
  simp [sha256, length_bigEndian]

theorem Digest.length_flatMap_hexByte (bytes : Bytes) :
    (bytes.flatMap hexByte).length = 2 * bytes.length := by
  induction bytes with
  | nil => rfl
  | cons b bytes ih =>
    rw [List.flatMap_cons, List.length_append, ih, List.length_cons]
    simp only [hexByte, List.length_cons, List.length_nil]
    omega

theorem Digest.utf8ByteSize_sha256Hex_lt (content : Bytes) :
    (sha256Hex content).utf8ByteSize < 2 ^ 64 := by
  have hlength := length_flatMap_hexByte (sha256 content)
  have hsize := Text.byteSize_le ((sha256 content).flatMap hexByte)
  rw [length_sha256] at hlength
  rw [sha256Hex, hex, Text.utf8ByteSize_ofList]
  omega

/-- No two of the contents have one digest. -/
def Digest.CollisionFree (contents : Bytes → Prop) : Prop :=
  ∀ a b, contents a → contents b → sha256Hex a = sha256Hex b → a = b

namespace Plan

theorem decode?_encode_recordOf {d : Disk} {entry : Path} {content : Bytes}
    (h : d.read entry = .ok content) (manifest : Option Bytes) (options : Options) :
    BuildRecord.decode? (recordOf entry content manifest options).encode =
      some (recordOf entry content manifest options) := by
  -- A disk does not follow a path that is too long, so the length of this one fits.
  have hpath : entry.text.utf8ByteSize < 2 ^ 64 := by
    have hrefusal : Disk.refusal? entry = none := by
      cases hrefusal : Disk.refusal? entry with
      | none => rfl
      | some e => simp [Disk.read, Disk.entry, Disk.resolve, hrefusal] at h
    unfold Disk.refusal? at hrefusal
    split at hrefusal
    · simp at hrefusal
    · split at hrefusal
      · simp at hrefusal
      · split at hrefusal
        · simp at hrefusal
        · next hsize =>
          have hmost : Disk.mostPathBytes < 2 ^ 64 := by decide
          omega
  apply BuildRecord.decode?_encode
  constructor
  · simp [recordOf]
  · intro s hs
    obtain rfl := List.mem_singleton.1 hs
    exact ⟨hpath, Digest.utf8ByteSize_sha256Hex_lt content⟩
  · intro text htext
    obtain ⟨m, -, rfl⟩ := Option.map_eq_some_iff.1 htext
    exact Digest.utf8ByteSize_sha256Hex_lt m
  · show toolVersion.utf8ByteSize < 2 ^ 64
    decide

theorem recordOf_inj {entry entry' : Path} {content content' : Bytes}
    {manifest manifest' : Option Bytes} {options options' : Options}
    (h : recordOf entry content manifest options = recordOf entry' content' manifest' options') :
    entry = entry' ∧ Digest.sha256Hex content = Digest.sha256Hex content' ∧
      manifest.map Digest.sha256Hex = manifest'.map Digest.sha256Hex ∧ options = options' := by
  simp only [recordOf, BuildRecord.mk.injEq, List.cons.injEq, SourceRecord.mk.injEq, and_true,
    true_and] at h
  obtain ⟨⟨htext, hhash⟩, hmanifest, hselect⟩ := h
  refine ⟨?_, hhash, hmanifest, ?_⟩
  · obtain ⟨text⟩ := entry
    exact congrArg Path.mk htext
  · obtain ⟨select⟩ := options
    exact congrArg Options.mk hselect

end Plan

/-! ## Directories of projects -/

/-- A directory in which the project tool is run. -/
structure ProjectDirectory where
  place : Place
  isName : ∀ name ∈ place, Place.IsName name

namespace ProjectDirectory

variable (dir : ProjectDirectory) {plan : Plan}

def path : Path :=
  Place.path dir.place

/-- A tree seen from the directory. -/
def disk (t : FileTree) : Disk :=
  { tree := t, cwd := { place := dir.place } }

def manifestPlace : Place :=
  dir.place ++ ["icss.toml"]

def recordsPlace : Place :=
  dir.place ++ [".icss", "build"]

def recordPlace (stem : String) : Place :=
  dir.recordsPlace ++ [stem ++ ".meta"]

theorem recordsPlace_eq : dir.recordsPlace = (dir.place ++ [".icss"]) ++ ["build"] := by
  simp [recordsPlace]

theorem isAbsolute_path : dir.path.isAbsolute = true :=
  Place.isAbsolute_path _

theorem isName_append {names : List String} (h : ∀ name ∈ names, Place.IsName name) :
    ∀ name ∈ dir.place ++ names, Place.IsName name := by
  intro name hname
  rcases List.mem_append.1 hname with hname | hname
  · exact dir.isName name hname
  · exact h name hname

theorem join_manifestName :
    dir.path.join Project.manifestName = Place.path dir.manifestPlace :=
  Place.join_path dir.isName Project.isName_manifest

theorem place_manifest : (dir.path.join Project.manifestName).place = dir.manifestPlace := by
  rw [join_manifestName]
  exact Place.place_path (dir.isName_append (by simpa using Project.isName_manifest))

theorem isName_recordsPlace : ∀ name ∈ dir.recordsPlace, Place.IsName name :=
  dir.isName_append (by simp [Project.isName_icss, Project.isName_build])

theorem recordDirectory_path :
    Project.recordDirectory dir.path = Place.path dir.recordsPlace := by
  have hnames : ∀ name ∈ dir.place ++ [".icss"], Place.IsName name :=
    dir.isName_append (by simpa using Project.isName_icss)
  rw [Project.recordDirectory, path, Place.join_path dir.isName Project.isName_icss,
    Place.join_path hnames Project.isName_build, List.append_assoc]
  rfl

theorem isName_recordPlace {stem : String} (h : Place.IsName (stem ++ ".meta")) :
    ∀ name ∈ dir.recordPlace stem, Place.IsName name := by
  intro name hname
  rcases List.mem_append.1 hname with hname | hname
  · exact dir.isName_recordsPlace name hname
  · rwa [List.mem_singleton.1 hname]

theorem record_path {stem : String} (h : Place.IsName (stem ++ ".meta")) :
    (Project.recordDirectory dir.path).join ⟨stem ++ ".meta"⟩ =
      Place.path (dir.recordPlace stem) := by
  rw [recordDirectory_path]
  exact Place.join_path dir.isName_recordsPlace h

/-- A plan for the project in the directory. -/
structure Suits (plan : Plan) : Prop where
  base : plan.base = dir.path
  outDir : plan.outDir.isAbsolute = true

variable {dir}

theorem Suits.isAbsolute_base (h : dir.Suits plan) : plan.base.isAbsolute = true := by
  rw [h.base]
  exact dir.isAbsolute_path

theorem Suits.spot_job (h : dir.Suits plan) {entry : Path} {job : Job}
    (hjob : plan.job entry = .ok job) (d : Disk) :
    d.spot job.output = { place := job.output.place } ∧
      d.spot job.record = { place := job.record.place } := by
  obtain ⟨stem, -, rfl⟩ := Plan.job_eq_ok hjob
  exact ⟨d.spot_of_isAbsolute (Path.isAbsolute_join h.outDir _), d.spot_of_isAbsolute
    (Path.isAbsolute_join (Path.isAbsolute_join (Path.isAbsolute_join h.isAbsolute_base _) _) _)⟩

theorem Suits.spots_eq (h : dir.Suits plan) (d : Disk) : plan.spots d = plan.places := by
  funext entry
  rw [Plan.spots, Plan.places]
  cases hjob : plan.job entry with
  | error e => rfl
  | ok job =>
    obtain ⟨houtput, hrecord⟩ := h.spot_job hjob d
    simp [Except.toOption, houtput, hrecord]

theorem Suits.job {plan : Plan} (h : dir.Suits plan) {entry : Path} {job : Job}
    (hjob : plan.job entry = .ok job) :
    ∃ stem, entry.stem? = some stem ∧ Place.IsName (stem ++ ".meta") ∧
      job.output.place = plan.outDir.place ++ [stem ++ ".css"] ∧
      job.record = Place.path (dir.recordPlace stem) := by
  obtain ⟨stem, hstem, rfl⟩ := Plan.job_eq_ok hjob
  have hcss : Place.IsName (stem ++ ".css") := Path.isName_of_stem? hstem (by decide) (by decide)
  have hmeta : Place.IsName (stem ++ ".meta") := Path.isName_of_stem? hstem (by decide) (by decide)
  refine ⟨stem, hstem, hmeta, Path.place_join_name hcss, ?_⟩
  rw [h.base]
  exact dir.record_path hmeta

end ProjectDirectory

/-! ## What a record vouches for -/

/-- An output is as it should be, unless it is gone or a directory has taken its place. -/
def FileTree.Keeps (t : FileTree) (p : Place) (css : String) : Prop :=
  t.get? p = none ∨ t.get? p = some .directory ∨ t.get? p = some (.file (Text.utf8 css))

/-- What is at a place is left alone or taken away. -/
def FileTree.Spares (t t' : FileTree) (p : Place) : Prop :=
  t'.get? p = t.get? p ∨ t'.get? p = none

theorem FileTree.spares_put (t : FileTree) {p q : Place} (hp : p ≠ []) (e : Entry) (hq : q ≠ p) :
    t.Spares (t.put p e) q := by
  refine .inl ?_
  rw [get?_put t hp, if_neg hq]

section Cache

variable (S M : Bytes → Prop) (goes : Option Bytes → Path → Prop) {t t' : FileTree}
  {css stem : String} {places outputs : List Place} {record : BuildRecord} {d d' : Disk}
  {entry : Path}

/-- The record was made when the output was written, of a source among `S` and under a manifest
among `M` or none; `goes` says where the outputs went then. -/
inductive Vouched (t : FileTree) (outputs : List Place) (stem : String) (record : BuildRecord) :
    Prop
  | mk {entry : Path} {content : Bytes} {manifest : Option Bytes} {options : Options}
      {outDir : Path} {source css : String} (hstem : entry.stem? = some stem)
      (hrecord : record = Plan.recordOf entry content manifest options) (hcontent : S content)
      (hmanifest : ∀ m ∈ manifest, M m) (hgoes : goes manifest outDir)
      (hsource : Text.ofUtf8? content = some source)
      (hcompile : compile options source = .ok css)
      (hmem : outDir.place ++ [stem ++ ".css"] ∈ outputs)
      (hkeeps : t.Keeps (outDir.place ++ [stem ++ ".css"]) css)

/-- All records that are kept are vouched for. -/
structure Sound (dir : ProjectDirectory) (t : FileTree) (outputs : List Place) : Prop where
  wellFormed : t.WellFormed
  vouched : ∀ stem content record, t.get? (dir.recordPlace stem) = some (.file content) →
    BuildRecord.decode? content = some record →
    Disk.Allows (Place.path (dir.recordPlace stem)) ∧ Place.IsName (stem ++ ".meta") ∧
      Vouched S M goes t outputs stem record

variable {S M goes}

theorem FileTree.Keeps.spares {p : Place} (h : t.Keeps p css) (hspares : t.Spares t' p) :
    t'.Keeps p css := by
  rcases hspares with heq | hnone
  · rw [Keeps, heq]
    exact h
  · exact .inl hnone

theorem FileTree.Keeps.writes {p : Place} (h : t.Keeps p css) (hwrites : Writes places t t')
    (hp : p ∉ places) : t'.Keeps p css := by
  rcases h with hnone | hsome | hsome
  · -- The output is gone; a directory may be made in its place.
    rcases hwrites p with heq | ⟨-, hdir⟩ | ⟨hmem, -⟩
    · exact .inl (heq.trans hnone)
    · exact .inr (.inl hdir)
    · exact absurd hmem hp
  · exact .inr (.inl (hwrites.get? hp hsome))
  · exact .inr (.inr (hwrites.get? hp hsome))

theorem Vouched.writes {more : List Place} (h : Vouched S M goes t outputs stem record)
    (hwrites : FileTree.Writes places t t')
    (hplaces : ∀ p : Place, p ++ [stem ++ ".css"] ∉ places) :
    Vouched S M goes t' (outputs ++ more) stem record := by
  obtain ⟨hstem, hrecord, hcontent, hmanifest, hgoes, hsource, hcompile, hmem, hkeeps⟩ := h
  exact .mk hstem hrecord hcontent hmanifest hgoes hsource hcompile
    (List.mem_append_left _ hmem) (hkeeps.writes hwrites (hplaces _))

theorem Sound.spares {dir : ProjectDirectory} (h : Sound S M goes dir t outputs)
    (ht' : t'.WellFormed) (hrecords : ∀ stem, t.Spares t' (dir.recordPlace stem))
    (houtputs : ∀ p ∈ outputs, t.Spares t' p) : Sound S M goes dir t' outputs := by
  refine ⟨ht', fun stem content record hfile hdecode => ?_⟩
  have hwas : t.get? (dir.recordPlace stem) = some (.file content) := by
    rcases hrecords stem with heq | hnone
    · rw [← heq, hfile]
    · simp [hnone] at hfile
  obtain ⟨hallows, hname, hvouched⟩ := h.vouched stem content record hwas hdecode
  obtain ⟨hstem, hrecord, hcontent, hmanifest, hgoes, hsource, hcompile, hmem, hkeeps⟩ := hvouched
  exact ⟨hallows, hname, .mk hstem hrecord hcontent hmanifest hgoes hsource hcompile hmem
    (hkeeps.spares (houtputs _ hmem))⟩

theorem Sound.drops {dir : ProjectDirectory} (h : Sound S M goes dir d.tree outputs)
    (hdrops : Disk.Drops d d') :
    Sound S M goes dir d'.tree outputs :=
  h.spares (hdrops.wellFormed h.wellFormed) (fun _ => hdrops.removes _)
    fun _ _ => hdrops.removes _

/-! ## Building one entry -/

variable {dir : ProjectDirectory} {plan : Plan}

theorem css_ne_recordPlace (p : Place) (stem stem' : String) :
    p ++ [stem ++ ".css"] ≠ dir.recordPlace stem' := by
  intro h
  have hnames := (List.append_inj' h rfl).2
  exact append_css_ne_append_meta _ _ (List.singleton_inj.1 hnames)

theorem ProjectDirectory.Suits.css_not_mem (hsuits : dir.Suits plan) (h : entry.stem? ≠ some stem)
    (p : Place) : p ++ [stem ++ ".css"] ∉ plan.places entry := by
  rw [← hsuits.spots_eq (dir.disk .empty)]
  exact Plan.css_not_mem_spots h p

theorem ProjectDirectory.Suits.record_not_mem (hsuits : dir.Suits plan)
    (h : entry.stem? ≠ some stem) : dir.recordPlace stem ∉ plan.places entry := by
  rw [← hsuits.spots_eq (dir.disk .empty)]
  exact Plan.meta_not_mem_spots h _

theorem Sound.vouched_of_writes {more : List Place} (h : Sound S M goes dir t outputs)
    (hwrites : FileTree.Writes places t t') (hrecord : dir.recordPlace stem ∉ places)
    (hcss : ∀ p : Place, p ++ [stem ++ ".css"] ∉ places) {content : Bytes}
    (hfile : t'.get? (dir.recordPlace stem) = some (.file content))
    (hdecode : BuildRecord.decode? content = some record) :
    Disk.Allows (Place.path (dir.recordPlace stem)) ∧ Place.IsName (stem ++ ".meta") ∧
      Vouched S M goes t' (outputs ++ more) stem record := by
  obtain ⟨hallows, hname, hvouched⟩ :=
    h.vouched stem content record (hwrites.file hrecord hfile) hdecode
  exact ⟨hallows, hname, hvouched.writes hwrites hcss⟩

theorem store_record_ne (ht : d.tree.WellFormed) {old new : Bytes}
    (hname : Place.IsName (stem ++ ".meta"))
    (hallows : Disk.Allows (Place.path (dir.recordPlace stem)))
    (hfile : d.tree.get? (dir.recordPlace stem) = some (.file old)) {failure : Failure} :
    Plan.store d (Project.recordDirectory dir.path) (Place.path (dir.recordPlace stem)) new ≠
      (d', some failure) := by
  have hnames := dir.isName_recordPlace hname
  have hdir : d.tree.get? dir.recordsPlace = some .directory := by
    simpa [ProjectDirectory.recordPlace] using ht _ _ hfile
  -- The directory of the records is there already, so that only the file is written.
  have hmake : d.makeDirectories (Place.path dir.recordsPlace) = (d, none) := by
    have hdirNames := dir.isName_recordsPlace
    have hdirAllows := hallows.of_append hnames
    rw [dir.recordsPlace_eq] at hdir hdirNames hdirAllows ⊢
    exact Disk.makeDirectories_path ht hdirNames hdirAllows hdir
  obtain ⟨d₁, hwrite⟩ := Disk.write_path ht hnames hallows hfile new
  rw [dir.recordDirectory_path, Plan.store, Plan.makeDirectory, hmake]
  simp only [ProjectDirectory.recordPlace] at hwrite ⊢
  simp [hwrite]

section Turn

variable {d d₀ d₁ d₂ d' : Disk} {entry : Path} {job : Job} {stem : String} {outputs : List Place}

theorem Sound.unrecorded (hsuits : dir.Suits plan) (h : Sound S M goes dir d.tree outputs)
    (hjob : plan.job entry = .ok job) (hstem : entry.stem? = some stem) (hmake : Disk.Adds [] d d₀)
    {output new : Bytes} (hwrite : d₀.write job.output output = .ok d₁) {failure : Failure}
    (hstore : Plan.store d₁ (Project.recordDirectory plan.base) job.record new =
      (d', some failure)) {content : Bytes} {record : BuildRecord}
    (hfile : d'.tree.get? (dir.recordPlace stem) = some (.file content)) :
    BuildRecord.decode? content ≠ some record := by
  intro hdecode
  obtain ⟨stem', hstem', hmeta, houtput, hrecord⟩ := hsuits.job hjob
  obtain rfl : stem = stem' := Option.some.inj (hstem.symm.trans hstem')
  have hwrites := hmake.trans (Disk.adds_write hwrite)
  rw [(hsuits.spot_job hjob d₀).1] at hwrites
  have hne : dir.recordPlace stem ∉ [] ++ [job.output.place] := by
    rw [List.nil_append, List.mem_singleton, houtput]
    exact (css_ne_recordPlace _ _ _).symm
  -- Nothing was put there meanwhile, so the record was there when the build started.
  have hmade := Plan.store_failure hstore
  have hfile₁ := hmade.writes.file (by simp) hfile
  obtain ⟨hallows, hname, -⟩ :=
    h.vouched stem content record (hwrites.writes.file hne hfile₁) hdecode
  rw [hsuits.base, hrecord] at hstore
  exact store_record_ne (hwrites.wellFormed h.wellFormed) hname hallows hfile₁ hstore

/-- A record that has just been stored is vouched for by the output that was written before it. -/
theorem Plan.vouched_of_built (hsuits : dir.Suits plan) {new record : BuildRecord}
    {source css : String} (hjob : plan.job entry = .ok job) (hstem : entry.stem? = some stem)
    (hrecord : plan.record d entry = .ok new) (hread : d.readText entry = .ok source)
    (hcompile : compile plan.options source = .ok css)
    (hwrite : d₀.write job.output (Text.utf8 css) = .ok d₁) (hmake : Disk.Adds [] d₁ d₂)
    (hwrite' : d₂.write job.record new.encode = .ok d') (hS : ∀ c, d.read entry = .ok c → S c)
    (hM : ∀ m ∈ plan.manifestContent? d, M m) (hgoes : goes (plan.manifestContent? d) plan.outDir)
    (hmem : job.output.place ∈ outputs) {content : Bytes}
    (hfile : d'.tree.get? (dir.recordPlace stem) = some (.file content))
    (hdecode : BuildRecord.decode? content = some record) :
    Disk.Allows (Place.path (dir.recordPlace stem)) ∧ Place.IsName (stem ++ ".meta") ∧
      Vouched S M goes d'.tree outputs stem record := by
  obtain ⟨stem', hstem', hmeta, houtput, hpath⟩ := hsuits.job hjob
  obtain rfl : stem = stem' := Option.some.inj (hstem.symm.trans hstem')
  have houtSpot := congrArg Standpoint.place (hsuits.spot_job hjob d₀).1
  have hrecSpot := congrArg Standpoint.place (hsuits.spot_job hjob d₂).2
  have hplace : job.record.place = dir.recordPlace stem := by
    rw [hpath, Place.place_path (dir.isName_recordPlace hmeta)]
  obtain ⟨c, hc, rfl⟩ := Plan.record_eq_ok hrecord
  obtain ⟨c', hc', hsource⟩ := Disk.readText_eq_ok_iff.1 hread
  obtain rfl : c = c' := by simpa [hc] using hc'
  -- The record that is there is the new one.
  have hnew := Disk.get?_write hwrite' (dir.recordPlace stem)
  rw [hrecSpot, if_pos hplace.symm, hfile] at hnew
  obtain rfl : content = _ := by simpa using hnew
  rw [Plan.decode?_encode_recordOf hc] at hdecode
  obtain rfl := Option.some.inj hdecode
  -- The output is there as it was written: the record is in another place.
  have hcss : d₁.tree.get? job.output.place = some (.file (Text.utf8 css)) := by
    rw [Disk.get?_write hwrite, houtSpot, if_pos rfl]
  have hcss' : d'.tree.get? job.output.place = some (.file (Text.utf8 css)) := by
    rw [Disk.get?_write hwrite', if_neg, hmake.writes.get? (by simp) hcss]
    rw [hrecSpot, hplace, houtput]
    exact css_ne_recordPlace _ _ _
  rw [houtput] at hmem hcss'
  refine ⟨hpath ▸ Disk.allows_of_write hwrite', hmeta, ?_⟩
  exact .mk hstem rfl (hS c hc) hM hgoes hsource hcompile hmem (.inr (.inr hcss'))

theorem Sound.turn (hsuits : dir.Suits plan) {result : BuildResult}
    (h : Sound S M goes dir d.tree outputs) (hS : ∀ c, d.read entry = .ok c → S c)
    (hM : ∀ m ∈ plan.manifestContent? d, M m)
    (hgoes : Plan.builtBy entry result ≠ [] → goes (plan.manifestContent? d) plan.outDir)
    (hturn : plan.Turn d entry d' result) :
    Sound S M goes dir d'.tree
      (outputs ++ (Plan.builtBy entry result).map fun x => x.2.place) := by
  have hadds := hturn.adds
  rw [hsuits.spots_eq] at hadds
  refine ⟨hadds.wellFormed h.wellFormed, fun stem content record hfile hdecode => ?_⟩
  -- Records of other stems are not touched, whatever comes of the build.
  by_cases hother : entry.stem? ≠ some stem
  · exact h.vouched_of_writes hadds.writes (hsuits.record_not_mem hother)
      (hsuits.css_not_mem hother) hfile hdecode
  have hstem : entry.stem? = some stem := Classical.not_not.1 hother
  cases hturn with
  | stopped hadds =>
    exact h.vouched_of_writes hadds.writes (by simp) (by simp) hfile hdecode
  | upToDate =>
    exact h.vouched_of_writes (.refl d.tree) (by simp) (by simp) hfile hdecode
  | unrecorded hjob hmake hwrite hstore =>
    exact absurd hdecode (h.unrecorded hsuits hjob hstem hmake hwrite hstore hfile)
  | built hjob hrecord hread hcompile _ hwrite hmake' hwrite' =>
    exact Plan.vouched_of_built hsuits hjob hstem hrecord hread hcompile hwrite hmake' hwrite' hS
      hM (hgoes (by simp [Plan.builtBy])) (by simp [Plan.builtBy]) hfile hdecode

end Turn

/-! ## Building all entries -/

/-- The contents of the entries, each when its turn comes. -/
def Plan.sources (plan : Plan) (d : Disk) : List Path → List Bytes
  | [] => []
  | entry :: rest =>
    (d.read entry).toOption.toList ++ plan.sources (plan.buildEntry d entry).disk rest

/-- Files of entries may have been written since. -/
def Plan.Later (plan : Plan) (d d' : Disk) : Prop :=
  ∃ entries : List Path, Disk.Adds (entries.flatMap plan.places) d d'

theorem Plan.Later.trans {d'' : Disk} (h : plan.Later d d') (h' : plan.Later d' d'') :
    plan.Later d d'' := by
  obtain ⟨entries, hadds⟩ := h
  obtain ⟨entries', hadds'⟩ := h'
  exact ⟨entries ++ entries', by simpa using hadds.trans hadds'⟩

theorem ProjectDirectory.Suits.later_buildEntry (hsuits : dir.Suits plan) (d : Disk)
    (entry : Path) : plan.Later d (plan.buildEntry d entry).disk := by
  have hadds := (plan.turn_buildEntry d entry).adds
  rw [hsuits.spots_eq] at hadds
  exact ⟨[entry], by simpa using hadds⟩

theorem ProjectDirectory.Suits.later_buildAll (hsuits : dir.Suits plan) (d : Disk)
    (entries : List Path) : plan.Later d (plan.buildAll d entries).disk := by
  have hadds := plan.adds_buildAll d entries
  rw [hsuits.spots_eq] at hadds
  exact ⟨entries, hadds⟩

theorem Sound.buildAll (hsuits : dir.Suits plan) {entries : List Path}
    (h : Sound S M goes dir d.tree outputs) (hS : ∀ c ∈ plan.sources d entries, S c)
    (hM : ∀ d', plan.Later d d' → ∀ m ∈ plan.manifestContent? d', M m)
    (hgoes : (plan.buildAll d entries).built ≠ [] →
      ∀ d', plan.Later d d' → goes (plan.manifestContent? d') plan.outDir) :
    Sound S M goes dir (plan.buildAll d entries).disk.tree
      (outputs ++ (plan.buildAll d entries).built.map fun x => x.2.place) := by
  induction entries generalizing d outputs with
  | nil => simpa [Plan.buildAll, Outcome.built] using h
  | cons entry rest ih =>
    have hnow : plan.Later d d := ⟨[], .refl d⟩
    have hlater := hsuits.later_buildEntry d entry
    rw [Plan.built_buildAll_cons] at hgoes ⊢
    have hfirst : Sound S M goes dir (plan.buildEntry d entry).disk.tree (outputs ++
        (Plan.builtBy entry (plan.buildEntry d entry).result).map fun x => x.2.place) := by
      refine h.turn hsuits ?_ (hM d hnow) ?_ (plan.turn_buildEntry d entry)
      · intro c hc
        exact hS c (by simp [Plan.sources, hc, Except.toOption])
      · intro hbuilt
        exact hgoes (by simp [hbuilt]) d hnow
    -- The rest of the build starts from there, with the entry's own output among the outputs.
    rw [List.map_append, ← List.append_assoc]
    refine ih hfirst ?_ (fun d' hd' => hM d' (hlater.trans hd')) ?_
    · intro c hc
      exact hS c (by simp [Plan.sources, hc])
    · intro hbuilt d' hd'
      exact hgoes (by simp [hbuilt]) d' (hlater.trans hd')

theorem Digest.CollisionFree.eq_of_map {contents : Bytes → Prop} (h : CollisionFree contents)
    {a b : Option Bytes} (ha : ∀ x ∈ a, contents x) (hb : ∀ x ∈ b, contents x)
    (hdigest : a.map sha256Hex = b.map sha256Hex) : a = b := by
  cases a with
  | none =>
    cases b with
    | none => rfl
    | some y => simp at hdigest
  | some x =>
    cases b with
    | none => simp at hdigest
    | some y => rw [h x y (ha x rfl) (hb y rfl) (by simpa using hdigest)]

/-- The output of an entry is the stylesheet, unless a directory is in its place. -/
def Job.Fresh (job : Job) (d : Disk) (css : String) : Prop :=
  d.read job.output = .ok (Text.utf8 css) ∨ d.isDirectory job.output = true

theorem Job.Fresh.adds {job : Job} (h : job.Fresh d css) (hadds : Disk.Adds places d d')
    (hplace : (d.spot job.output).place ∉ places) : job.Fresh d' css := by
  rw [Job.Fresh, Disk.read_eq_ok_iff, Disk.isDirectory_iff] at h ⊢
  exact h.imp (hadds.entry hplace) (hadds.entry hplace)

theorem Job.Fresh.read_iff {job : Job} (h : job.Fresh d css) :
    d.read job.output = .ok (Text.utf8 css) ↔ d.isDirectory job.output = false := by
  constructor
  · intro hread
    simp [Disk.isDirectory, Disk.read_eq_ok_iff.1 hread]
  · intro hfile
    exact h.resolve_right (by simp [hfile])

/-- An output that counts as up to date is fresh: the record that is kept was made of the same
source, and under the same manifest. -/
theorem Sound.fresh_of_kept (hsuits : dir.Suits plan) (hSfree : Digest.CollisionFree S)
    (hMfree : Digest.CollisionFree M) (h : Sound S M goes dir d.tree outputs)
    (hS : ∀ c, d.read entry = .ok c → S c) (hM : ∀ m ∈ plan.manifestContent? d, M m)
    (hgoes : ∀ outDir, goes (plan.manifestContent? d) outDir → outDir = plan.outDir) {job : Job}
    (hjob : plan.job entry = .ok job) (hrecord : plan.record d entry = .ok record)
    (houtput : d.has job.output = true) (hkept : Plan.kept? d job.record = some record) :
    ∃ source css, d.readText entry = .ok source ∧ compile plan.options source = .ok css ∧
      job.Fresh d css := by
  obtain ⟨stem, hstem, hmeta, hplace, hpath⟩ := hsuits.job hjob
  obtain ⟨houtSpot, hrecSpot⟩ := hsuits.spot_job hjob d
  obtain ⟨c, hc, rfl⟩ := Plan.record_eq_ok hrecord
  obtain ⟨content, hread, hdecode⟩ := Plan.kept?_eq_some_iff.1 hkept
  have hfile := (Disk.get?_of_read hread).2
  rw [hrecSpot, hpath, Place.place_path (dir.isName_recordPlace hmeta)] at hfile
  obtain ⟨-, -, hvouched⟩ := h.vouched stem content _ hfile hdecode
  obtain ⟨-, hrecords, hcontent, hmanifest, hdir, hsource, hcompile, -, hkeeps⟩ := hvouched
  -- One record means one source and one manifest, as far as digests tell them apart, ...
  obtain ⟨rfl, hdigest, hdigests, rfl⟩ := Plan.recordOf_inj hrecords
  obtain rfl := hSfree _ _ (hS c hc) hcontent hdigest
  obtain rfl := hMfree.eq_of_map hM hmanifest hdigests
  -- ... and the manifest tells where the output is.
  rw [hgoes _ hdir, ← hplace] at hkeeps
  obtain ⟨e, he⟩ := Disk.has_iff.1 houtput
  have hget : d.tree.get? job.output.place = some e := by
    simpa [houtSpot, Standpoint.entry?] using Disk.entry_eq_ok he
  refine ⟨_, _, Disk.readText_eq_ok_iff.2 ⟨c, hc, hsource⟩, hcompile, ?_⟩
  rw [Job.Fresh, Disk.read_eq_ok_iff, Disk.isDirectory_iff, he]
  rcases hkeeps with hnone | hsome | hsome
  · simp [hnone] at hget
  · exact .inr (by simpa [hget] using hsome)
  · exact .inl (by simpa [hget] using hsome)

theorem Sound.fresh (hsuits : dir.Suits plan) (hSfree : Digest.CollisionFree S)
    (hMfree : Digest.CollisionFree M) {result : BuildResult}
    (h : Sound S M goes dir d.tree outputs) (hS : ∀ c, d.read entry = .ok c → S c)
    (hM : ∀ m ∈ plan.manifestContent? d, M m)
    (hgoes : ∀ outDir, goes (plan.manifestContent? d) outDir → outDir = plan.outDir)
    (hturn : plan.Turn d entry d' result) (hresult : result.success = true) :
    ∃ job source css, plan.job entry = .ok job ∧ d.readText entry = .ok source ∧
      compile plan.options source = .ok css ∧ job.Fresh d' css := by
  cases hturn with
  | stopped => simp [BuildResult.success] at hresult
  | unrecorded => simp [BuildResult.success] at hresult
  | upToDate hjob hrecord houtput hkept =>
    obtain ⟨source, css, hfresh⟩ :=
      h.fresh_of_kept hsuits hSfree hMfree hS hM hgoes hjob hrecord houtput hkept
    exact ⟨_, source, css, hjob, hfresh⟩
  | built hjob hrecord hread hcompile hmake hwrite hmake' hwrite' =>
    obtain ⟨job, source, css, hjob, hread, hcompile, houtput⟩ :=
      (Plan.Turn.built hjob hrecord hread hcompile hmake hwrite hmake' hwrite').read_output
    exact ⟨job, source, css, hjob, hread, hcompile, .inl houtput⟩

theorem Plan.sources_append (plan : Plan) (d : Disk) (front rest : List Path) :
    plan.sources d (front ++ rest) =
      plan.sources d front ++ plan.sources (plan.buildAll d front).disk rest := by
  induction front generalizing d with
  | nil => rfl
  | cons entry front ih => simp [Plan.sources, Plan.buildAll, ih, List.append_assoc]

/-- After a build that went well, an entry has a fresh output if no entry after it has its stem and
its source was not written over. -/
theorem Sound.buildAll_fresh (hsuits : dir.Suits plan) (hSfree : Digest.CollisionFree S)
    (hMfree : Digest.CollisionFree M) {before after : List Path}
    (h : Sound S M goes dir d.tree outputs)
    (hS : ∀ c ∈ plan.sources d (before ++ entry :: after), S c)
    (hM : ∀ d', plan.Later d d' → ∀ m ∈ plan.manifestContent? d', M m)
    (hgoes : ∀ d', plan.Later d d' →
      ∀ outDir, goes (plan.manifestContent? d') outDir ↔ outDir = plan.outDir)
    (hentry : entry.isAbsolute = true)
    (hsuccess : (plan.buildAll d (before ++ entry :: after)).success = true)
    (hstems : ∀ later ∈ after, later.stem? ≠ entry.stem?)
    (hsource : entry.place ∉ plan.written (plan.buildAll d (before ++ entry :: after))) :
    ∃ job source css, plan.job entry = .ok job ∧
      (plan.buildAll d (before ++ entry :: after)).disk.readText entry = .ok source ∧
      compile plan.options source = .ok css ∧
      job.Fresh (plan.buildAll d (before ++ entry :: after)).disk css := by
  obtain ⟨hdisk, hsuccesses, hbuilt⟩ := plan.buildAll_append d before (entry :: after)
  rw [hsuccesses, Bool.and_eq_true] at hsuccess
  rw [Plan.sources_append] at hS
  rw [Plan.written, hbuilt, List.flatMap_append, List.mem_append, not_or] at hsource
  rw [hdisk]
  have hlater := hsuits.later_buildAll d before
  -- The records are sound when the turn of the entry comes.
  have hbefore := h.buildAll hsuits (fun c hc => hS c (List.mem_append_left _ hc)) hM
    (fun _ d' hd' => (hgoes d' hd' _).2 rfl)
  obtain ⟨job, source, css, hjob, hread, hcompile, hfresh⟩ :=
    hbefore.fresh hsuits hSfree hMfree
      (fun c hc => hS c (by simp [Plan.sources, hc, Except.toOption])) (hM _ hlater)
      (fun outDir => (hgoes _ hlater outDir).1)
      (plan.turn_buildEntry _ entry) (Bool.and_eq_true_iff.1 hsuccess.2).1
  refine ⟨job, source, css, hjob, ?_, hcompile, ?_⟩
  · -- Neither this turn nor a later one writes over the source.
    obtain ⟨content, hcontent, htext⟩ := Disk.readText_eq_ok_iff.1 hread
    have hwritten := Plan.adds_written_buildAll hsuccess.2
    rw [hsuits.spots_eq] at hwritten
    refine Disk.readText_eq_ok_iff.2 ⟨content, ?_, htext⟩
    rw [Disk.read_eq_ok_iff] at hcontent ⊢
    refine hwritten.entry ?_ hcontent
    rw [Disk.spot_of_isAbsolute _ hentry]
    exact hsource.2
  · -- The entries after it have other outputs.
    obtain ⟨stem, hstem, -, hplace, -⟩ := hsuits.job hjob
    refine hfresh.adds (plan.adds_buildAll _ after) ?_
    rw [hsuits.spots_eq, (hsuits.spot_job hjob _).1, hplace, List.mem_flatMap]
    rintro ⟨later, hmem, hp⟩
    exact hsuits.css_not_mem (hstem ▸ hstems later hmem) _ hp

end Cache

end TypedStyle
