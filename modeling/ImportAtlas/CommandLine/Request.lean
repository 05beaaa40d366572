import ImportAtlas.CommandLine.Arguments
import ImportAtlas.Path

/-!
# Requests

What the program can be asked to do on the command line.

## Summary

* `Request` is what arguments ask for: one of three commands, or the help text.
* `Request.ofArgs` reads the arguments of the program.
* `Request.inDirectory` takes relative paths from a directory.
-/

namespace ImportAtlas.CommandLine

/-- To build the import map of a project. -/
structure MapRequest where
  /-- The directory of the project. -/
  project : String
  /-- The file to write, if the map is not to be printed. -/
  output? : Option String
  /-- The directory that the map will be in, if it is not the project's. -/
  mapBase? : Option String
  /-- Whether targets begin with a slash. -/
  absolute : Bool
  /-- Whether scopes are folded into the top level. -/
  flatten : Bool
  /-- Whether the map is for a platform with modules of its own. -/
  node : Bool
  /-- Whether the map is for production. -/
  production : Bool
  /-- The settings, as a file or a text. -/
  config? : Option OptionValue
  deriving DecidableEq, Inhabited

/-- How a trace is written. -/
inductive TraceFormat where
  | json
  | graphJson
  | dot
  deriving DecidableEq, Inhabited

/-- The name of a format on the command line. -/
def TraceFormat.word : TraceFormat → String
  | .json => "json"
  | .graphJson => "graph-json"
  | .dot => "dot"

/-- The format with a name, `json` for any other name. -/
def TraceFormat.ofWord (word : String) : TraceFormat :=
  if word == TraceFormat.dot.word then .dot
  else if word == TraceFormat.graphJson.word then .graphJson
  else .json

/-- To follow entry modules through an import map. -/
structure TraceRequest where
  /-- The entry modules. -/
  modules : List String
  /-- The file of the map. -/
  map : OptionValue
  /-- The directory that the map is relative to, if it is not the map's own. -/
  base? : Option String
  /-- The file to write, if the result is not to be printed. -/
  output? : Option String
  /-- Whether entry modules without mapping are taken for files. -/
  relativeFallback : Bool
  /-- The settings, as a file or a text. -/
  config? : Option OptionValue
  /-- How a trace is written, `none` if that is left blank. -/
  format? : Option TraceFormat
  deriving DecidableEq, Inhabited

/-- What the program is asked to do. -/
inductive Request where
  | map (request : MapRequest)
  | trace (request : TraceRequest)
  | filter (request : TraceRequest)
  /-- To show the help text. -/
  | help
  /-- Nothing in particular. -/
  | nothing
  /-- Something that it cannot make out. -/
  | misuse
  deriving DecidableEq, Inhabited

/-! ### The options of commands -/

/-- The option that asks for the help text. -/
def helpOption : OptionSpec := ⟨"help", some 'h', .help⟩

/-- The option that names the settings. -/
def configOption : OptionSpec := ⟨"config", some 'c', .value⟩

/-- The option that names the file to write. -/
def outputOption : OptionSpec := ⟨"output", some 'o', .value⟩

/-- The options before the command. -/
def mainOptions : List OptionSpec := [helpOption, ⟨"verbose", some 'v', .flag⟩]

/-- The options and operands for building a map. -/
def mapUsage : Usage where
  options := [helpOption, outputOption, ⟨"map-base", none, .value⟩, ⟨"absolute", none, .flag⟩,
    ⟨"flatten", none, .flag⟩, ⟨"node", none, .flag⟩, ⟨"production", none, .flag⟩, configOption]
  operands := .atMostOne

/-- The options and operands for filtering a map. -/
def filterUsage : Usage where
  options := [helpOption, ⟨"map", some 'm', .value⟩, ⟨"base", none, .value⟩, outputOption,
    ⟨"relative-fallback", none, .flag⟩, configOption]
  operands := .atLeastOne

/-- The option that chooses a format. -/
def formatOption : OptionSpec :=
  ⟨"format", some 'f', .choice ([TraceFormat.json, .graphJson, .dot].map TraceFormat.word)⟩

/-- The options and operands for tracing. -/
def traceUsage : Usage := { filterUsage with options := filterUsage.options ++ [formatOption] }

/-! ### Reading requests -/

/-- A value that is neither blank nor empty. -/
def Given.nonempty? (given : Given) (word : String) : Option String :=
  ((given.value? word).bind OptionValue.text?).filter (!·.isEmpty)

/-- The format that is chosen, `none` if it is left blank. -/
def Given.format? (given : Given) : Option TraceFormat :=
  match given.value? formatOption.word with
  | some value => value.text?.map TraceFormat.ofWord
  | none => some .json

/-- The request for a map. -/
def mapRequest (given : Given) : Request :=
  .map {
    project := given.operands.head?.getD "."
    output? := given.nonempty? "output"
    mapBase? := given.nonempty? "map-base"
    absolute := given.has "absolute"
    flatten := given.has "flatten"
    node := given.has "node"
    production := given.has "production"
    config? := given.value? "config" }

/-- The request for a trace, which needs modules and a map. -/
def traceRequest? (given : Given) : Option TraceRequest :=
  match given.operands, given.value? "map" with
  | [], _ => none
  | _, none => none
  | modules, some map => some {
      modules
      map
      base? := given.nonempty? "base"
      output? := given.nonempty? "output"
      relativeFallback := given.has "relative-fallback"
      config? := given.value? "config"
      format? := given.format? }

/-- What the arguments of a command say, unless some of them have no meaning. -/
def Usage.request (usage : Usage) (args : List String) (hasExtras : Bool)
    (build : Given → Option Request) : Request :=
  match usage.read args with
  | .error .help => .help
  | .error .misuse => .misuse
  | .ok given =>
    match build given with
    | some request => if given.hasExtras || hasExtras then .misuse else request
    | none => .misuse

/-- The request of a command with its arguments. -/
def commandRequest (command : String) (args : List String) (hasExtras : Bool) : Request :=
  match command with
  | "map" => mapUsage.request args hasExtras fun given => some (mapRequest given)
  | "trace" => traceUsage.request args hasExtras fun given => (traceRequest? given).map .trace
  | "filter" => filterUsage.request args hasExtras fun given => (traceRequest? given).map .filter
  | _ => .misuse

/-- The request of arguments: options, then a command with arguments of its own. -/
def requestOf : List Token → Bool → Request
  | [], hasExtras => if hasExtras then .misuse else .nothing
  | t :: rest, hasExtras =>
    match t.role with
    | .option spec attached =>
      let read : Except Stop Given := do
        let taken ← takeOption mainOptions spec attached []
        taken.choices.foldlM Given.add .nothing
      match read with
      | .error .help => .help
      | .error .misuse => .misuse
      | .ok _ => requestOf rest hasExtras
    | .unknown => requestOf rest true
    | .separator => .misuse
    | .operand => commandRequest t.text (rest.map Token.text) hasExtras

/-- The request that the arguments of the program make. -/
def Request.ofArgs (args : List String) : Request :=
  match classify mainOptions args with
  | .ok tokens => requestOf tokens false
  | .error _ => .misuse

/-- A path taken from a directory, unless it begins in the home directory. -/
def placeIn (directory path : String) : String :=
  if path.toList.head? == some '~' then path else Path.join directory path

/-- The request with its relative paths taken from a directory. Settings keep their text, which need
not be a path. -/
def Request.inDirectory (directory : String) : Request → Request
  | .map r => .map { r with
      project := placeIn directory r.project
      output? := r.output?.map (Path.join directory)
      mapBase? := r.mapBase?.map (placeIn directory) }
  | .trace r => .trace (traceIn r)
  | .filter r => .filter (traceIn r)
  | request => request
where
  /-- A request for a trace with its relative paths taken from the directory. -/
  traceIn (r : TraceRequest) : TraceRequest := { r with
    map := match r.map with
      | .blank => .blank
      | .text path => .text (Path.join directory path)
    base? := r.base?.map (Path.join directory)
    output? := r.output?.map (Path.join directory) }

end ImportAtlas.CommandLine
