import ImportAtlas.ImportMap.Clean
import ImportAtlas.Package.Reader
import ImportAtlas.Project.Meaning

/-!
# Building import maps

The import map of a project has top-level entries for the aliases of the project, and a scope for
every package that these lead to. The scope of a package holds what its modules see differently:
the package's own name, its aliases unless the project has the same ones, and what its manifest
means by some specifiers.

## Summary

* `Project.scopeEntries` are the entries of the scope of a package.
* `Build` is a map under construction; `Build.step` does the next task, and `Project.build` does
  all.

## Conventions

A task waits for manifests: that of an alias of the project for one, those of the aliases of a
package for the other. Tasks are done in the order in which their manifests arrive, those in
memory first. A build ends early at the first fault.
-/

namespace ImportAtlas

/-- A target in a manifest that has no meaning. -/
structure SkippedTarget where
  /-- The package of the manifest. -/
  id : PackageId
  /-- The specifier. -/
  specifier : String
  /-- What the manifest says about it. -/
  target : String
  deriving DecidableEq, Inhabited

/-- The warning about a target without meaning. -/
def SkippedTarget.message (s : SkippedTarget) : String :=
  "Package " ++ s.id.text ++ " maps " ++ s.specifier ++ " to " ++ s.target ++
    ", which is not a file, dependency or builtin; skipping"

namespace Project

/-! ### The entries of one package -/

/-- The entries for the name that a package gives itself. -/
def ownEntries (p : Project) (manifestOf : PackageId → Manifest) (id : PackageId) :
    List (String × String) :=
  match Manifest.nonempty? ((manifestOf id).name?.getD "") with
  | some name => p.packageEntries name id (manifestOf id)
  | none => []

/-- The entries for the aliases of a package, without those that the project has too. -/
def aliasEntries (p : Project) (manifestOf : PackageId → Manifest) (node : PackageNode) :
    List (String × String) :=
  (p.dependencies node).entries.flatMap fun (name, id) =>
    if p.roots.get? name = some id then [] else p.packageEntries name id (manifestOf id)

/-- The entries for the specifiers that a manifest gives a meaning. -/
def meaningEntries (p : Project) (manifestOf : PackageId → Manifest) (id : PackageId)
    (node : PackageNode) : List (String × String) :=
  (manifestOf id).map.entries.filterMap fun (specifier, target) =>
    (p.meaningTarget? manifestOf id (p.meaning node target)).map fun value => (specifier, value)

/-- The scope of a package. -/
def scopeEntries (p : Project) (manifestOf : PackageId → Manifest) (id : PackageId)
    (node : PackageNode) : Imports :=
  Dict.ofList (p.ownEntries manifestOf id ++ p.aliasEntries manifestOf node ++
    p.meaningEntries manifestOf id node)

/-- The specifiers of a manifest whose targets have no meaning. -/
def skippedTargets (p : Project) (manifest : Manifest) (id : PackageId) (node : PackageNode) :
    List SkippedTarget :=
  manifest.map.entries.filterMap fun (specifier, target) =>
    if p.meaning node target = .unknown then some ⟨id, specifier, target⟩ else none

/-- The packages that a manifest refers to. -/
def meantPackages (p : Project) (manifest : Manifest) (node : PackageNode) : List PackageId :=
  manifest.map.entries.filterMap fun (_, target) =>
    match p.meaning node target with
    | .package part => some part.id
    | _ => none

/-! ### Tasks -/

/-- A step of a build. -/
inductive Task where
  /-- Add the entries for an alias of the project. -/
  | root (name : String) (id : PackageId)
  /-- Add the scope of a package. -/
  | scope (id : PackageId) (node : PackageNode)
  deriving Inhabited

/-- The aliases of the project that get entries, in the order in which their manifests arrive:
those in memory first, and aliases of one package together. -/
def arrivals (p : Project) : List (String × PackageId) :=
  let roots := (p.mapped p.roots).entries
  let ids := (roots.map Prod.snd).eraseDups
  let inMemory := ids.filter fun id => !p.installation.needsFile id
  let inFiles := ids.filter p.installation.needsFile
  (inMemory ++ inFiles).flatMap fun id => roots.filter fun root => root.2 = id

end Project

/-- An import map under construction. -/
structure Build where
  /-- The entries so far. -/
  map : ImportMap
  /-- The manifests that were asked for. -/
  reader : ManifestReader
  /-- The packages that have been reached. -/
  seen : List PackageId
  /-- The tasks that are still to be done. -/
  agenda : List Project.Task
  /-- The targets without meaning so far. -/
  skipped : List SkippedTarget
  /-- What went wrong. -/
  fault? : Option Error
  deriving Inhabited

namespace Build

/-- The build that has nothing but the aliases of the project on its agenda. -/
def start (p : Project) : Build :=
  ⟨∅, .empty, [], p.arrivals.map fun (name, id) => .root name id, [], none⟩

/-- Asks for the manifests of packages and waits for them. -/
def await (p : Project) (build : Build) (ids : List PackageId) : Build :=
  { build with reader := build.reader.getAll p.installation ids }

/-- The manifest of a package, if it has been read. -/
def manifest? (build : Build) (id : PackageId) : Option Manifest :=
  (build.reader.result? id).bind Except.toOption

/-- The manifest of a package that has been read. -/
def manifestOf (build : Build) (id : PackageId) : Manifest := (build.manifest? id).getD default

/-- What went wrong with the first of several manifests. -/
def faultOf (build : Build) (ids : List PackageId) : Option Error :=
  ids.findSome? fun id =>
    match build.reader.result? id with
    | some (.error error) => some error
    | _ => none

/-- Adds the scope of a package whose manifests have been read. -/
def addScope (p : Project) (build : Build) (id : PackageId) (node : PackageNode) : Build :=
  let entries := p.scopeEntries build.manifestOf id node
  { build with
    map := if entries.isEmpty then build.map else build.map.setScope (p.packageFolder id) entries
    skipped := build.skipped ++ p.skippedTargets (build.manifestOf id) id node }

/-- Does the task of a package without the packages that it leads to. -/
def populate (p : Project) (build : Build) (id : PackageId) (node : PackageNode) : Build :=
  let known := id :: (p.dependencies node).values
  let build := build.await p known
  match build.faultOf known with
  | some error => { build with fault? := some error }
  | none =>
    let meant := p.meantPackages (build.manifestOf id) node
    let build := build.await p meant
    match build.faultOf meant with
    | some error => { build with fault? := some error }
    | none => build.addScope p id node

/-- Reaches a package. A package without aliases waits for no manifest. -/
def reach (p : Project) (build : Build) (id : PackageId) : Build :=
  if build.fault?.isSome || build.seen.contains id then build
  else
    let build := { build with seen := build.seen ++ [id] }
    match p.installation.graph.node id with
    | .error error => { build with fault? := some error }
    | .ok node =>
      if (p.dependencies node).isEmpty then build.populate p id node
      else { build with agenda := build.agenda ++ [.scope id node] }

/-- Does a task. -/
def perform (p : Project) (build : Build) : Project.Task → Build
  | .root name id =>
    let build := build.await p [id]
    match build.faultOf [id] with
    | some error => { build with fault? := some error }
    | none =>
      let entries := p.packageEntries name id (build.manifestOf id)
      let map := { build.map with imports := build.map.imports.insertMany entries }
      reach p { build with map } id
  | .scope id node =>
    let build := build.populate p id node
    (p.dependencies node).values.foldl (reach p) build

/-- Does the tasks of the agenda, in order, until none is left or one is at fault. -/
def run (p : Project) : Nat → Build → Build
  | 0, build => build
  | budget + 1, build =>
    if build.fault?.isSome then build
    else match build.agenda with
      | [] => build
      | task :: agenda => run p budget (({ build with agenda } : Build).perform p task)

/-- The map with entries for the platform modules that no alias of the project takes. -/
def addBuiltins (p : Project) (map : ImportMap) : ImportMap :=
  let add (imports : Imports) (name : String) : Imports :=
    if imports.contains name then imports else imports.insert name (p.shimPath name)
  { map with imports := Builtin.names.foldl add map.imports }

end Build

namespace Project

/-- The number of tasks that a build can have: one for each alias of the project and one for each
package. -/
def taskLimit (p : Project) : Nat := p.roots.size + p.installation.graph.packages.size

/-- The build of a project after its last task. -/
def finalBuild (p : Project) : Build := (Build.start p).run p p.taskLimit

/-- The import map of a project. -/
def build (p : Project) : Except Error ImportMap :=
  let done := p.finalBuild
  match done.fault? with
  | some error => .error error
  | none =>
    .ok (if p.settings.includeBuiltins then Build.addBuiltins p done.map else done.map).clean

end Project

end ImportAtlas
