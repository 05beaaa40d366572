import ImportAtlas.ImportMap.Target
import ImportAtlas.Package.Installation
import ImportAtlas.Settings

/-!
# Projects

A project is an installation together with the settings for its import map: which aliases the map
is for, which package stands in for platform modules, and the directory that the map will be in.

## Summary

* `Project.make` prepares a project.
* `Project.packagePath` and `Project.packageFile` are the targets for folders and files of
  packages, relative to the directory of the map.
* `Project.shimPath` is the target for a platform module.
-/

namespace ImportAtlas

/-- A project whose import map is wanted. -/
structure Project where
  /-- The installed packages with their files. -/
  installation : Installation
  /-- How the map is made. -/
  settings : Settings
  /-- The package that stands in for platform modules. -/
  builtins : PackageId
  /-- The aliases that the map is for. -/
  roots : Dict String PackageId
  /-- The path from the directory of the map to the project. -/
  base : String

namespace Project

/-- The rooted form of a path that may be a place in the file tree. -/
def rootedPath (path : String) : Except Error String :=
  if path.toList.contains '\x00' then .error .malformedPath else .ok (Path.resolve path)

/-- The path from the directory of the map to the project. -/
def basePath (project mapBase : String) : Except Error String := do
  let project ← rootedPath project
  let mapBase ← rootedPath mapBase
  pure (Path.relative project mapBase)

/-- The package of platform modules that settings name. -/
def builtinsOf (settings : Settings) : Except Error PackageId :=
  match PackageId.parse? settings.builtinsPackage with
  | some id => .ok id
  | none => .error (.config (.invalidBuiltins settings.builtinsPackage))

/-- The project in a directory, for a map in the directory `mapBase`. Unless aliases are given,
the map is for those of the project itself that its environment needs. -/
def make (graph : DependencyGraph) (files : FileTree) (directory : String) (settings : Settings)
    (env : Environment) (mapBase : String) (roots? : Option (Dict String PackageId)) :
    Except Error Project := do
  let builtins ← builtinsOf settings
  let base ← basePath directory mapBase
  pure {
    installation := ⟨graph, files, directory, settings.packagesDir, env⟩
    settings
    builtins
    roots := roots?.getD (graph.rootDependencies env.includesDev)
    base }

/-- Whether an alias is the one of the package of platform modules, which gets no entries. -/
def isBuiltinsAlias (p : Project) (name : String) : Bool := name == p.settings.builtinsAlias

/-- Aliases without the one of the package of platform modules. -/
def mapped (p : Project) (aliases : Dict String PackageId) : Dict String PackageId :=
  aliases.filter fun name _ => !p.isBuiltinsAlias name

/-- The aliases of a package that are mapped in its scope. -/
def dependencies (p : Project) (node : PackageNode) : Dict String PackageId :=
  p.mapped node.resolve

/-! ### Targets -/

/-- A normalized path as a target: it begins with a dot. -/
def targetOfPath (path : String) : String :=
  if path == "." then "./" else if path == ".." || "../".toList.isPrefixOf path.toList then path
  else "./" ++ path

/-- The target for a path below a folder. -/
def joinTarget (folder path : String) : String :=
  targetOfPath (Path.normalize (Path.join folder path))

/-- The target for the folder of a package, without a slash at its end. -/
def packagePath (p : Project) (id : PackageId) : String :=
  joinTarget (Path.join p.base p.settings.packagesDir) id.path

/-- The target for the folder of a package. -/
def packageFolder (p : Project) (id : PackageId) : String := p.packagePath id ++ "/"

/-- The target for a platform module. -/
def shimPath (p : Project) (name : String) : String :=
  joinTarget (p.packagePath p.builtins) (Builtin.shimFile name p.installation.env.browser)

/-- The target for a file of a package. The empty module is a platform module, and a URL stands
for itself. -/
def packageFile (p : Project) (id : PackageId) (file : String) : String :=
  if file == Builtin.emptyModule then p.shimPath Builtin.emptyModule
  else if Target.isUrl file then file
  else
    let target := joinTarget (p.packagePath id) file
    if Target.endsInSlash file then Target.withSlash target else target

/-- The main file of a package that names none. -/
def standardMain : String := "index.js"

/-- The target for the main file of a package. -/
def mainFile (p : Project) (id : PackageId) (manifest : Manifest) : String :=
  p.packageFile id ((Manifest.nonempty? (manifest.main?.getD "")).getD standardMain)

/-- The entries under which a package is reached by a name. -/
def packageEntries (p : Project) (name : String) (id : PackageId) (manifest : Manifest) :
    List (String × String) :=
  (name, p.mainFile id manifest) :: (name ++ "/", p.packageFolder id) ::
    manifest.paths.entries.map fun (path, file) => (name ++ "/" ++ path, p.packageFile id file)

end Project

end ImportAtlas
