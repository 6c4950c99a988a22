import TypedStyle.Compile.Tool
import TypedStyle.Project.Tool

/-!
# Footprints

Which part of a disk a run looks at. A run on a disk that holds only this part goes like the run
on the whole disk, so this part is all that has to be read beforehand. What there is to look at may
only be known once some of it has been read.
-/

namespace TypedStyle

/-- A part of a disk. -/
structure Footprint where
  paths : List Path
  directories : List Path

/-- The places that are passed on following a path, with the one it ends at. -/
def Disk.placesOn (d : Disk) (path : Path) : List Place :=
  let step (state : Place × List Place) (segment : String) : Place × List Place :=
    let place :=
      if Path.isIdle segment then state.1
      else if segment = ".." then state.1.dropLast
      else state.1 ++ [segment]
    (place, place :: state.2)
  let start := (d.origin path).place
  (path.segments.foldl step (start, [start])).2

namespace Plan

def footprint (plan : Plan) (entries : List Path) : Footprint :=
  let files := entries.flatMap fun entry =>
    match plan.job entry with
    | .ok job => [job.output, job.record]
    | .error _ => []
  { paths := plan.manifest.toList ++ entries ++ files
    directories := [plan.outDir, Project.recordDirectory plan.base] }

end Plan

/-- What a run of the project tool looks at, as far as what is on the disk tells. -/
def Project.footprint (d : Disk) (arguments : List String) : Footprint :=
  let named := arguments.map Path.mk
  let manifests := (named ++ d.cwdPath :: d.cwdPath.parents).map (·.join manifestName)
  let known := named ++ manifests
  match Arguments.read true (isProject d) arguments.tail with
  | .error _ => { paths := known, directories := [] }
  | .ok found =>
    match load d found.manifestPath with
    | .error _ => { paths := known, directories := [] }
    | .ok project =>
      let entries := (entries found.entry project.manifest (project.base d)).toOption.getD []
      let planned := (project.plan d found.selectBranches).footprint entries
      { planned with paths := known ++ planned.paths }

/-- What a run of a program looks at, as far as what is on the disk tells. -/
def Program.footprint (d : Disk) (arguments : List String) : Program → Footprint
  | projectTool => Project.footprint d arguments
  | compiler => { paths := arguments.map Path.mk, directories := [] }

def Program.ofName? (text : String) : Option Program :=
  [compiler, projectTool].find? (·.name = text)

def Program.run (d : Disk) (arguments : List String) : Program → Outcome
  | projectTool => Project.run d arguments
  | compiler => Compiler.run d arguments

end TypedStyle
