import ImportAtlas.Package.Graph
import ImportAtlas.Package.Manifest

/-!
# Installations

Installed packages together with the files that describe them. A package is described in the lock
file itself, or else in the manifest file of its folder.

## Summary

* `Installation.packageFolder` tells where the files of a package are.
* `Installation.manifest` reads the manifest of a package for the environment of the installation.
-/

namespace ImportAtlas

/-- Installed packages, the files around them, and the environment they are seen from. -/
structure Installation where
  /-- The packages. -/
  graph : DependencyGraph
  /-- The file tree. -/
  files : FileTree
  /-- The folder of the project. -/
  project : String
  /-- The folder of all packages, below the project. -/
  packagesDir : String
  /-- The environment that decides conditional targets. -/
  env : Environment

namespace Installation

/-- The folder of a package. -/
def packageFolder (inst : Installation) (id : PackageId) : String :=
  Path.squeeze (Path.join (Path.join inst.project inst.packagesDir) id.path)

/-- The file in which a package describes itself. -/
def manifestPath (inst : Installation) (id : PackageId) : String :=
  Path.squeeze (Path.join (inst.packageFolder id) manifestFileName)

/-- The description of a package in its manifest file. -/
def readDescription (inst : Installation) (id : PackageId) :
    Except Error (List (String × Value)) :=
  match inst.files.readText (inst.manifestPath id) with
  | .error .notText => .error .notText
  | .error .nulInPath => .error .malformedPath
  | .error _ => .error (.config (.notInstalled id))
  | .ok text =>
    match Json.parse? text with
    | none => .error (.config (.malformedManifest id))
    | some (.object fields) => .ok fields
    | some _ => .error (.config (.manifestNotObject id))

/-- Whether the manifest of a package stands in a file. -/
def needsFile (inst : Installation) (id : PackageId) : Bool :=
  match inst.graph.packages.get? id with
  | some node => node.description?.isNone
  | none => false

/-- The manifest of a package. -/
def manifest (inst : Installation) (id : PackageId) : Except Error Manifest := do
  let node ← inst.graph.node id
  let fields ← match node.description? with
    | none => inst.readDescription id
    | some (.object fields) => pure fields
    | some _ => .error .descriptionNotObject
  pure (Manifest.ofFields fields inst.env)

end Installation

end ImportAtlas
