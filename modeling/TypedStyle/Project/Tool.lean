import TypedStyle.Project.Build

/-!
# The project tool

Runs one command on a project: `build`, `check` or `clean`.
-/

namespace TypedStyle.Project

/-- How the project tool is to be called. -/
def usage : String :=
  "usage: icss <command> [options] [file]\n" ++
  "\n" ++
  "commands:\n" ++
  "  build     Compile the package entries into the output directory\n" ++
  "  check     Parse, type check and fold without writing output\n" ++
  "  clean     Remove the build cache\n" ++
  "\n" ++
  "options:\n" ++
  "  --manifest-path <path>  Path to icss.toml (defaults to nearest parent)\n" ++
  "  --file <path>           Entry file override\n" ++
  "  --select-branches       Keep only the branch each if/else selects\n" ++
  "  --clean                 Remove .icss/build and the output directory before building " ++
  "(build only)\n"

/-- The run that ends with a failure before anything is done. -/
def refused (d : Disk) (notices : List Notice) : Outcome :=
  { disk := d, success := false, notices }

def check (d : Disk) (entries : List Path) : Outcome :=
  let found := entries.map (checkEntry d)
  { disk := d, success := found.all (·.2), notices := found.flatMap (·.1) }

/-- The run that only removes the build records. -/
def cleanRecords (d : Disk) (project : Project) : Outcome :=
  match clean d (project.base d) with
  | (d, none) => { disk := d, success := true, notices := [] }
  | (d, some failure) => { disk := d, success := false, notices := [.failure failure] }

/-- A run with what is told before it, and after it whether it went well. -/
def concluded (command : Command) (before : List Notice) (o : Outcome) : Outcome :=
  { o with notices := before ++ o.notices ++ [.progress command (.done o.success)] }

/-- What there is to tell about the manifest of a project: its name, if it has one. -/
def loaded (project : Project) : List Notice :=
  (project.manifest.bind (·.name)).toList.map fun name => .log (.loaded name)

def execute (d : Disk) (command : Command) (arguments : Arguments) (project : Project) :
    Outcome :=
  let loaded := project.loaded
  match command with
  | .clean => concluded command loaded (project.cleanRecords d)
  | .check =>
    match entries arguments.entry project.manifest (project.base d) with
    | .error failure => refused d (loaded ++ [.failure failure])
    | .ok paths => concluded command loaded (check d paths)
  | .build =>
    match entries arguments.entry project.manifest (project.base d) with
    | .error failure => refused d (loaded ++ [.failure failure])
    | .ok paths =>
      let plan := project.plan d arguments.selectBranches
      concluded command loaded (plan.build d arguments.clean paths)

/-- Runs the project tool with the given arguments. -/
def run (d : Disk) : List String → Outcome
  | [] => refused d [.usage usage]
  | name :: rest =>
    match Command.ofName? name with
    | none => refused d [.failure (.unknownCommand name), .usage usage]
    | some command =>
      match Arguments.read (command = .build) (isProject d) rest with
      | .error e => refused d [.failure (.argument e), .usage usage]
      | .ok arguments =>
        match load d arguments.manifestPath with
        | .error failure => refused d [.failure failure]
        | .ok project => execute d command arguments project

end TypedStyle.Project
