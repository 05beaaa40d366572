import ImportAtlas.CommandLine.Request
import ImportAtlas.ImportMap.Document
import ImportAtlas.ImportMap.Flatten
import ImportAtlas.ImportMap.Rebase
import ImportAtlas.Project.Build
import ImportAtlas.Trace.Document

/-!
# Carrying out requests

A request is carried out on a file tree. The result says what to print and to write, so that the
program itself only has to do that.

## Summary

* `Report` is the result of a request.
* `Request.perform` carries out a request.
-/

namespace ImportAtlas.CommandLine

/-- How serious a line of the log is. -/
inductive Severity where
  | warning
  | error
  deriving DecidableEq, Inhabited

/-- The word for a severity. -/
def Severity.word : Severity → String
  | .warning => "WARNING"
  | .error => "ERROR"

/-- The result of a request. -/
structure Report where
  /-- The exit code, or an error that the program does not answer for. -/
  exit : Except Error Nat
  /-- What is printed. -/
  printed : String
  /-- Warnings and errors, in order. -/
  log : List (Severity × String)
  /-- The file to write, with its text. -/
  written? : Option (String × String)
  /-- The paths of files that the result depends on. -/
  consulted : List String
  deriving Inhabited

/-- Where a result goes, and its text there. -/
inductive Emission where
  | print (text : String)
  | write (path text : String)
  /-- Nowhere, for want of a path. -/
  | refuse (message : String)
  deriving DecidableEq, Inhabited

/-- The help text. -/
def helpText : String :=
  "usage: importatlas [-h] [-v] <command> ...\n\n" ++
  "  map [project]       build the import map of an installed project\n" ++
  "  trace <module> ...  list the modules that entry modules lead to\n" ++
  "  filter <module> ... reduce an import map to what entry modules need\n\n" ++
  "options of all commands: [-c CONFIG] [-o OUTPUT]\n" ++
  "options of map:          [--map-base DIR] [--absolute] [--flatten] [--node] [--production]\n" ++
  "options of trace/filter: -m MAP [--base DIR] [--relative-fallback]\n" ++
  "options of trace:        [-f json|graph-json|dot]\n"

namespace Report

/-- A request that ended with an exit code, having looked at no file. -/
def ended (code : Nat) (printed : String) : Report := ⟨.ok code, printed, [], none, []⟩

/-- A request that failed. -/
def failed (log : List (Severity × String)) (consulted : List String) (error : Error) : Report :=
  if error.isReported then ⟨.ok 1, "", log ++ [(.error, error.message)], none, consulted⟩
  else ⟨.error error, "", log, none, consulted⟩

/-- A request that succeeded. -/
def succeeded (files : FileTree) (log : List (Severity × String)) (consulted : List String) :
    Emission → Report
  | .print text => ⟨.ok 0, text, log, none, consulted⟩
  | .refuse message => ⟨.ok 1, "", log ++ [(.error, message)], none, consulted⟩
  | .write path text =>
    match files.writeFault? path with
    | some fault => ⟨.error (.file fault), "", log, none, consulted⟩
    | none => ⟨.ok 0, "", log, some (path, text), consulted⟩

/-- A request with its outcome. -/
def of (files : FileTree) (log : List (Severity × String)) (consulted : List String)
    (outcome : Except Error Emission) : Report :=
  match outcome with
  | .ok emission => succeeded files log consulted emission
  | .error error => failed log consulted error

end Report

/-! ### Settings -/

/-- The settings that a request names. A blank is an empty list, which has no meaning. -/
def settingsOf (files : FileTree) (config? : Option OptionValue) : Except Error Settings :=
  Settings.ofSource files <|
    match config? with
    | none => .standard
    | some .blank => .other (.array [])
    | some (.text text) => .text text

/-- The file that settings may be in. -/
def settingsFiles (config? : Option OptionValue) : List String :=
  (config?.bind OptionValue.text?).toList

/-- An environment with flags of the command line. -/
def flaggedEnv (env : Environment) (node production : Bool) : Environment :=
  if node || production then
    Environment.make (if node then .null else .bool env.browser) (node || env.node)
      (production || env.production) env.dev env.conditions
  else env

/-! ### Building a map -/

/-- A path whose first name may stand for the home directory. -/
def expandHome (home path : String) : String :=
  match Path.parts path with
  | first :: rest =>
    if first == ['~'] && !Target.isRooted path then
      Path.join home (String.ofList (Path.joinSegments rest))
    else path
  | [] => path

/-- The rooted directory that a request names. -/
def directoryOf (home path : String) : Except Error String :=
  Project.rootedPath (expandHome home path)

/-- The project that a request is about. -/
def projectOf (files : FileTree) (home : String) (r : MapRequest) : Except Error Project := do
  let settings ← settingsOf files r.config?
  let env := flaggedEnv settings.env r.node r.production
  let directory ← directoryOf home r.project
  let mapBase ← match r.mapBase? with
    | some path => directoryOf home path
    | none => pure directory
  let graph ← DependencyGraph.load files directory
  Project.make graph files directory settings env mapBase none

/-- The map of a project in the form that a request wants. -/
def shapedMap (home : String) (r : MapRequest) (map : ImportMap) : Except Error ImportMap := do
  let base ← directoryOf home (r.mapBase?.getD r.project)
  let map ← if r.absolute then map.rebase .rooted base base else pure map
  if r.flatten then map.flatten else pure map

/-- Where a map goes. -/
def emitMap (output? : Option String) (map : ImportMap) : Emission :=
  match output? with
  | some path => .write path map.toJson
  | none => .print map.toJson

/-- The files that a project is read from. -/
def projectFiles (home : String) (r : MapRequest) : List String :=
  let directory := expandHome home r.project
  settingsFiles r.config? ++
    [Path.join directory lockFileName, Path.join directory manifestFileName]

/-- Carries out a request for a map. -/
def MapRequest.perform (files : FileTree) (home : String) (r : MapRequest) : Report :=
  match projectOf files home r with
  | .error error => Report.failed [] (projectFiles home r) error
  | .ok project =>
    let done := project.finalBuild
    let log := done.skipped.map fun s => (Severity.warning, s.message)
    let consulted := projectFiles home r ++
      done.reader.opened.map project.installation.manifestPath
    Report.of files log consulted do
      let map ← project.build
      let map ← shapedMap home r map
      pure (emitMap r.output? map)

/-! ### Tracing -/

/-- The file of the import map that a request names. -/
def mapFileOf (r : TraceRequest) : Except Error String :=
  match r.map with
  | .blank => .error .mapNotNamed
  | .text path => .ok path

/-- The resolver that a request is about. -/
def resolverOf (files : FileTree) (r : TraceRequest) : Except Error Resolver := do
  let settings ← settingsOf files r.config?
  let path ← mapFileOf r
  let map ← ImportMap.load files path
  let base ← folderUrl (r.base?.getD (Path.parent path))
  Resolver.make map base (settings.relativeFallback || r.relativeFallback)

/-- The name of a format in messages; a blank is an empty list. -/
def formatName (format? : Option TraceFormat) : String := (format?.map TraceFormat.word).getD "[]"

/-- Where a trace goes. Only JSON is printed, and a blank format is none. -/
def emitTrace (format? : Option TraceFormat) (output? : Option String) (trace : Trace) :
    Emission :=
  match output?, format? with
  | some path, some .json => .write path trace.toJson
  | some path, some .graphJson => .write path trace.graphJson
  | some path, some .dot => .write path trace.dot
  | some _, none => .refuse ("Unsupported export format: " ++ formatName none)
  | none, some .json => .print (Json.pretty trace.toValue ++ "\n")
  | none, format? => .refuse ("--output is required for format " ++ formatName format?)

/-- Carries out a request that traces modules; `emit` makes the result of what was found. -/
def TraceRequest.perform (files : FileTree) (r : TraceRequest) (emit : Session → Emission) :
    Report :=
  let consulted := settingsFiles r.config? ++ r.map.text?.toList
  match resolverOf files r with
  | .error error => Report.failed [] consulted error
  | .ok resolver =>
    let (outcome, session) := Session.empty.traceAll files resolver visitLimit r.modules
    let consulted := consulted ++ session.found.filterMap Url.filePath?
    Report.of files [] consulted (outcome.map fun _ => emit session)

/-- Carries out a request. Paths that begin with `~` are taken from the directory `home`. -/
def Request.perform (files : FileTree) (home : String) : Request → Report
  | .map r => r.perform files home
  | .trace r => r.perform files fun session => emitTrace r.format? r.output? session.trace
  | .filter r => r.perform files fun session => emitMap r.output? session.used.clean
  | .help => .ended 0 helpText
  | .nothing => .ended 1 helpText
  | .misuse => .ended 2 ""

end ImportAtlas.CommandLine
