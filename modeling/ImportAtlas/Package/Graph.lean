import ImportAtlas.Data.Digraph
import ImportAtlas.Error
import ImportAtlas.Json.Parser

/-!
# Installed packages

The lock file of a project says which package each alias of the project stands for, and, for each
installed package, which package each of its own aliases stands for.

## Summary

* `DependencyGraph.ofValue` reads a lock file, and `DependencyGraph.load` a whole project.
* `DependencyGraph.node` finds an installed package.
* `DependencyGraph.rootDependencies` lists the aliases of the project.
* `DependencyGraph.view` shows packages and aliases as nodes and edges.
-/

namespace ImportAtlas

/-- The file that records the installed packages of a project. -/
def lockFileName : String := "jspm.json"

/-- The file in which a package describes itself. -/
def manifestFileName : String := "package.json"

/-- An installed package. -/
structure PackageNode where
  /-- The aliases of the package with what they stand for. -/
  resolve : Dict String PackageId
  /-- The description of the package, where it is known without reading a file. -/
  description? : Option Value
  deriving Inhabited

/-- The packages of a project. -/
structure DependencyGraph where
  /-- The aliases of the project with what they stand for. -/
  resolve : Dict String PackageId
  /-- The installed packages. -/
  packages : Dict PackageId PackageNode
  /-- The aliases of the project that only development needs. -/
  dev : List String
  deriving Inhabited

namespace DependencyGraph

/-- The node of a package, which must be installed. -/
def node (graph : DependencyGraph) (id : PackageId) : Except Error PackageNode :=
  match graph.packages.get? id with
  | some node => .ok node
  | none => .error (.config (.notInstalled id))

/-- The aliases of the project, with or without those that only development needs. -/
def rootDependencies (graph : DependencyGraph) (includeDev : Bool) : Dict String PackageId :=
  graph.resolve.filter fun name _ => includeDev || !graph.dev.contains name

/-! ### Reading -/

/-- The package that a value names. -/
def packageOf (value : Value) (context : String) : Except Error PackageId :=
  match value.string?.bind PackageId.parse? with
  | some id => .ok id
  | none => .error (.config (.invalidName value context))

/-- Aliases with the packages that they stand for. A value that is not given has none. -/
def resolutions (value : Value) (context : String) : Except Error (Dict String PackageId) :=
  if !value.truthy then .ok ∅
  else match value with
    | .object fields => do
      let entries ← fields.mapM fun (name, target) => do
        let id ← packageOf target context
        pure (name, id)
      pure (Dict.ofList entries)
    | _ => .error (.config (.resolutionsNotObject context))

/-- An installed package under the name that the lock file gives it. -/
def entryOf (name : String) (entry : Value) : Except Error (PackageId × PackageNode) := do
  let id ← packageOf (.string name) name
  let fields ← match entry with
    | .object fields => pure fields
    | v => if v.truthy then .error (.config (.invalidEntry name)) else pure []
  let resolve ← resolutions (Value.field fields "resolve") name
  let description? := match Value.field fields "config" with
    | .null => none
    | v => some v
  pure (id, ⟨resolve, description?⟩)

/-- The graph that the fields of a lock file describe. -/
def ofFields (fields : List (String × Value)) (dev : List String) :
    Except Error DependencyGraph := do
  let resolve ← resolutions (Value.field fields "resolve") "resolve"
  let entries ← match Value.field fields "dependencies" with
    | .object entries => pure entries
    | v => if v.truthy then .error (.config .dependenciesNotObject) else pure []
  let packages ← entries.mapM fun (name, entry) => entryOf name entry
  pure ⟨resolve, Dict.ofList packages, dev.eraseDups⟩

/-- The JSON value of a file. -/
def readValue (files : FileTree) (path : String) : Except Error Value :=
  match files.readText path with
  | .error .notText => .error .notText
  | .error .nulInPath => .error .malformedPath
  | .error fault => .error (.config (.unreadable path fault))
  | .ok text =>
    match Json.parse? text with
    | some v => .ok v
    | none => .error (.config (.malformedFile path))

/-- The names that a value lists: the keys of an object, the items of an array or the characters
of a text. -/
def namesIn (value : Value) : Except Error (List String) :=
  if !value.truthy then .ok []
  else match value with
    | .object fields => .ok (fields.map Prod.fst)
    | .array items =>
      if items.any fun v => match v with
        | .array _ => true
        | .object _ => true
        | _ => false
      then .error .namesNotListed
      else .ok (items.filterMap Value.string?)
    | .string s => .ok (s.toList.map Char.toString)
    | _ => .error .namesNotListed

/-- The names of the packages that only development needs, from the manifest of a project: its
own list and that of its section for the installer. -/
def devNames (manifest : Value) : Except Error (List String) :=
  match manifest with
  | .object fields => do
    let own ← namesIn (Value.field fields "devDependencies")
    let more ← match Value.field fields "jspm" with
      | .object section_ => namesIn (Value.field section_ "devDependencies")
      | _ => pure []
    pure (own ++ more)
  | _ => pure []

/-- Whether a file is there. -/
def fileExists (files : FileTree) (path : String) : Except Error Bool :=
  match files.isFile path with
  | .ok found => .ok found
  | .error fault => .error (.file fault)

/-- The graph of the project in a directory. -/
def load (files : FileTree) (directory : String) : Except Error DependencyGraph := do
  let lockPath := Path.squeeze (Path.join directory lockFileName)
  let manifestPath := Path.squeeze (Path.join directory manifestFileName)
  if !(← fileExists files lockPath) then
    .error (.config (.noLockFile (Path.squeeze directory)))
  else
    match ← readValue files lockPath with
    | .object lock =>
      let dev ← if ← fileExists files manifestPath then devNames (← readValue files manifestPath)
        else pure []
      ofFields lock dev
    | _ => .error (.config (.lockNotObject lockPath))

/-! ### Nodes and edges -/

/-- What a node of the view stands for. -/
inductive Vertex where
  | root
  | package (registry : String)
  | unknown
  deriving DecidableEq, Inhabited

/-- The name of the project in the view. -/
def rootName : String := "@root"

/-- The project and its packages as nodes, aliases as edges. -/
def view (graph : DependencyGraph) : Digraph Vertex String :=
  let nodes := graph.packages.keys.foldl (fun g id => g.addNode id.text (.package id.registry))
    (Digraph.empty.addNode rootName Vertex.root)
  let addAliases (g : Digraph Vertex String) (source : String) (aliases : Dict String PackageId) :=
    aliases.entries.foldl (fun g (name, id) => g.addEdge .unknown source id.text name) g
  graph.packages.entries.foldl (fun g (id, node) => addAliases g id.text node.resolve)
    (addAliases nodes rootName graph.resolve)

end DependencyGraph

end ImportAtlas
