import TypedStyle.BuildRecord
import TypedStyle.Digest
import TypedStyle.Project

/-!
# Building

An entry is built into a stylesheet in the output directory, and a record of what it was made from
is kept. An entry whose stylesheet is there, and whose record is the one that a new build would
write, is up to date and left alone. Outputs and records go by the name of the entry without its
directory and extension.
-/

namespace TypedStyle

/-- How the entries of a project are built. -/
structure Plan where
  base : Path
  manifest : Option Path
  outDir : Path
  options : Options

/-- The files of an entry. -/
structure Job where
  entry : Path
  output : Path
  record : Path
deriving DecidableEq

/-- What came of the build of an entry. -/
inductive BuildResult where
  | upToDate
  | built (output : Path)
  | failed (failure : Failure)
deriving DecidableEq

/-- The build of an entry. -/
structure EntryBuild where
  disk : Disk
  /-- What there is to tell before its result. -/
  notices : List Notice
  result : BuildResult

def BuildResult.notice (entry : Path) : BuildResult → Notice
  | upToDate => .progress .build (.upToDate entry)
  | built output => .progress .build (.built entry output)
  | failed failure => .failure failure

def BuildResult.success : BuildResult → Bool
  | failed _ => false
  | _ => true

namespace Plan

def recordVersion : UInt32 := 1

def toolVersion : String := "0.1.0"

def job (plan : Plan) (entry : Path) : Except Failure Job :=
  match entry.stem? with
  | none => .error (.invalidEntry entry)
  | some stem =>
    .ok {
      entry
      output := plan.outDir.join ⟨stem ++ ".css"⟩
      record := (Project.recordDirectory plan.base).join ⟨stem ++ ".meta"⟩ }

def fileHash (d : Disk) (path : Path) : Except Failure String :=
  match d.read path with
  | .error e => .error (.read path e)
  | .ok content => .ok (Digest.sha256Hex content)

def manifestHash (plan : Plan) (d : Disk) : Except Failure (Option String) :=
  match plan.manifest with
  | none => .ok none
  | some path => if d.has path then (fileHash d path).map some else .ok none

def record (plan : Plan) (d : Disk) (entry : Path) : Except Failure BuildRecord := do
  let hash ← fileHash d entry
  let manifestHash ← plan.manifestHash d
  return {
    version := recordVersion
    files := [{ path := entry.text, hash }]
    manifestHash
    selectBranches := plan.options.selectBranches
    toolVersion }

/-- The record that is kept for an entry, if it can be read. -/
def kept? (d : Disk) (path : Path) : Option BuildRecord :=
  match d.read path with
  | .error _ => none
  | .ok content => BuildRecord.decode? content

/-- Whether the files of an entry are what a new build would leave. -/
def isUpToDate (d : Disk) (job : Job) (record : BuildRecord) : Bool :=
  d.has job.output && kept? d job.record == some record

/-- Compiles a source file: the stylesheet, with what there is to tell. -/
def compileFile (d : Disk) (options : Options) (entry : Path) :
    List Notice × Except Failure String :=
  match d.readText entry with
  | .error e => ([], .error (.read entry e))
  | .ok source =>
    let compiled := compileWithEvents options source
    let notices := Event.notices compiled.events
    match compiled.result with
    | .ok css => (notices, .ok css)
    | .error (.fold e) => (notices, .error (.fold e))
    | .error (.diagnostics found) =>
      (notices ++ found.map (.diagnostic entry source), .error (.notCompiled entry))

def makeDirectory (d : Disk) (path : Path) : Disk × Option Failure :=
  match d.makeDirectories path with
  | (d, none) => (d, none)
  | (d, some e) => (d, some (.create path e))

/-- Writes a file in a directory, which is made as far as it is missing. -/
def store (d : Disk) (directory path : Path) (content : Bytes) : Disk × Option Failure :=
  match makeDirectory d directory with
  | (d, some failure) => (d, some failure)
  | (d, none) =>
    match d.write path content with
    | .error e => (d, some (.write path e))
    | .ok d => (d, none)

/-- Writes the stylesheet of an entry, and then its record. -/
def storeAll (plan : Plan) (d : Disk) (job : Job) (css : String) (record : BuildRecord) :
    Disk × Option Failure :=
  match store d plan.outDir job.output (Text.utf8 css) with
  | (d, some failure) => (d, some failure)
  | (d, none) => store d (Project.recordDirectory plan.base) job.record record.encode

/-- Builds an entry of which the files and the new record are known. -/
def buildJob (plan : Plan) (d : Disk) (job : Job) (record : BuildRecord) : EntryBuild :=
  if isUpToDate d job record then { disk := d, notices := [], result := .upToDate }
  else
    let stale := if d.has job.record then [Notice.log (.stale job.record)] else []
    let (notices, compiled) := compileFile d plan.options job.entry
    match compiled with
    | .error failure => { disk := d, notices := stale ++ notices, result := .failed failure }
    | .ok css =>
      match storeAll plan d job css record with
      | (d, some failure) => { disk := d, notices := stale ++ notices, result := .failed failure }
      | (d, none) =>
        let wrote := Notice.log (.wrote .projectTool job.output css.utf8ByteSize)
        { disk := d, notices := stale ++ notices ++ [wrote], result := .built job.output }

def buildEntry (plan : Plan) (d : Disk) (entry : Path) : EntryBuild :=
  match plan.job entry with
  | .error failure => { disk := d, notices := [], result := .failed failure }
  | .ok job =>
    match plan.record d entry with
    | .error failure => { disk := d, notices := [], result := .failed failure }
    | .ok record => plan.buildJob d job record

/-- Builds entries one after the other. That one fails does not keep the others from being
built. -/
def buildAll (plan : Plan) (d : Disk) : List Path → Outcome
  | [] => { disk := d, success := true, notices := [] }
  | entry :: rest =>
    let first := plan.buildEntry d entry
    let others := plan.buildAll first.disk rest
    { disk := others.disk
      success := first.result.success && others.success
      notices := first.notices ++ [first.result.notice entry] ++ others.notices }

/-- Removes the build records and the outputs. -/
def clean (plan : Plan) (d : Disk) : Disk × Option Failure :=
  match Project.clean d plan.base with
  | (d, some failure) => (d, some failure)
  | (d, none) => Project.removeIfThere d plan.outDir

/-- Builds entries, after cleaning if that is asked for. -/
def build (plan : Plan) (d : Disk) (clean : Bool) (entries : List Path) : Outcome :=
  if clean then
    match plan.clean d with
    | (d, some failure) => { disk := d, success := false, notices := [.failure failure] }
    | (d, none) => plan.buildAll d entries
  else plan.buildAll d entries

end Plan

/-- How a project is built; branches are selected if that is asked for or the manifest says so. -/
def Project.plan (d : Disk) (project : Project) (selectBranches : Bool) : Plan :=
  let manifest := project.manifest.getD {}
  let base := project.base d
  { base
    manifest := project.directory.map (·.join Project.manifestName)
    outDir := base.join ⟨manifest.outDir⟩
    options := { selectBranches := selectBranches || manifest.selectBranches } }

end TypedStyle
