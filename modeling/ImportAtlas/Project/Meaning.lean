import ImportAtlas.Project.Basic

/-!
# What packages mean by specifiers

The manifest of a package may say what the package means by a specifier: a file of its own, a URL,
another package or a part of one, or a platform module.

## Summary

* `matchAlias?` finds the alias for a specifier, the longest one if there are several.
* `Project.meaning` tells what a package means by a target in its manifest.
* `Project.meaningTarget?` is the target for it.
-/

namespace ImportAtlas

/-- What a specifier names in a package: its main file, or what is at a path below its folder. -/
structure PackagePart where
  /-- The package. -/
  id : PackageId
  /-- The path, empty for the folder; `none` for the main file. -/
  path? : Option String
  deriving DecidableEq, Inhabited

/-- The aliases that a specifier begins with, before a slash. -/
def aliasesOf (specifier : String) (aliases : Dict String PackageId) : List String :=
  aliases.keys.filter fun name => (name ++ "/").toList.isPrefixOf specifier.toList

/-- The longer of two texts, the first if they are equally long. -/
def longer (a b : String) : String := if a.length < b.length then b else a

/-- The part of a package that a specifier names through an alias: through the specifier itself,
or else through the longest alias before a slash. -/
def matchAlias? (specifier : String) (aliases : Dict String PackageId) : Option PackagePart :=
  match aliases.get? specifier with
  | some id => some ⟨id, none⟩
  | none =>
    match aliasesOf specifier aliases with
    | [] => none
    | first :: more =>
      let name := more.foldl longer first
      (aliases.get? name).map fun id =>
        ⟨id, some (String.ofList (specifier.toList.drop (name.length + 1)))⟩

/-- What a package may mean by a specifier. -/
inductive Meaning where
  /-- The module without content. -/
  | emptyModule
  /-- A file of the package. -/
  | ownFile (path : String)
  /-- A URL or a rooted path. -/
  | place (target : String)
  /-- A part of a package. -/
  | package (part : PackagePart)
  /-- A platform module. -/
  | builtin (name : String)
  /-- Nothing that is known. -/
  | unknown
  deriving DecidableEq, Inhabited

namespace Project

/-- What a package means by a target in its manifest. Its own aliases come before those of the
project, and both before platform modules. -/
def meaning (p : Project) (node : PackageNode) (target : String) : Meaning :=
  if target == Builtin.emptyModule then .emptyModule
  else if "./".toList.isPrefixOf target.toList || "../".toList.isPrefixOf target.toList then
    .ownFile target
  else if Target.isUrlOrRooted target then .place target
  else
    match (matchAlias? target node.resolve).or (matchAlias? target p.roots) with
    | some part => .package part
    | none => if Builtin.isBuiltin target then .builtin target else .unknown

/-- The target for a part of a package whose manifest is given. -/
def partTarget (p : Project) (part : PackagePart) (manifest : Manifest) : String :=
  match part.path? with
  | none => p.mainFile part.id manifest
  | some path =>
    if path.isEmpty then p.packageFolder part.id
    else p.packageFile part.id (manifest.paths.getD path path)

/-- The target for a meaning of a package, `none` if it is unknown. -/
def meaningTarget? (p : Project) (manifestOf : PackageId → Manifest) (id : PackageId) :
    Meaning → Option String
  | .emptyModule => some (p.shimPath Builtin.emptyModule)
  | .ownFile path => some (p.packageFile id path)
  | .place target => some target
  | .package part => some (p.partTarget part (manifestOf part.id))
  | .builtin name => some (p.shimPath name)
  | .unknown => none

end Project

end ImportAtlas
