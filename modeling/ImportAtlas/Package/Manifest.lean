import ImportAtlas.Environment
import ImportAtlas.Package.Builtin

/-!
# Package manifests

What a package says about itself in its `package.json`, for one environment: its name, its main
file, files that replace others, and what it means by some specifiers.

## Summary

* `conditional?` follows a conditional target to the branch that applies.
* `Manifest.ofFields` reads a manifest for an environment.
-/

namespace ImportAtlas

mutual

/-- The target that a conditional value stands for in an environment. In an object the first
condition that holds decides; a plain no stands for the empty module. -/
def conditional? (env : Environment) : Value → Option String
  | .object branches => firstBranch? env branches
  | .bool false => some Builtin.emptyModule
  | .string target => some target
  | _ => none

/-- The target of the first branch whose condition holds. -/
def firstBranch? (env : Environment) : List (String × Value) → Option String
  | [] => none
  | (condition, branch) :: more =>
    if env.holds condition then conditional? env branch else firstBranch? env more

end

/-- What a package says about itself. -/
structure Manifest where
  /-- The name that the package gives itself. -/
  name? : Option String
  /-- The main file below the package's folder, or the empty module. -/
  main? : Option String
  /-- Files below the package's folder with what replaces them. -/
  paths : Dict String String
  /-- Specifiers with what the package means by them. -/
  map : Dict String String
  deriving DecidableEq, Inhabited

namespace Manifest

/-- A path without a leading `./`. -/
def stripDot (path : String) : String :=
  match path.toList with
  | '.' :: '/' :: rest => String.ofList rest
  | _ => path

/-- Whether a key of a map names a file of the package. -/
def isOwnFile (key : String) : Bool := "./".toList.isPrefixOf key.toList

/-- A text that is not empty. -/
def nonempty? (s : Option String) : Option String := s.filter (!·.isEmpty)

/-- The main file, replaced if the map replaces it. -/
def mainOf (env : Environment) (main? : Option String) (map : List (String × Value)) :
    Option String :=
  main?.map fun main =>
    if main.isEmpty then main
    else
      let main := stripDot main
      match nonempty? ((map.lookup ("./" ++ main)).bind (conditional? env)) with
      | some target => stripDot target
      | none => main

/-- The entries of a map that have a target in an environment. -/
def targets (env : Environment) (map : List (String × Value)) : List (String × String) :=
  map.filterMap fun (key, value) =>
    (nonempty? (conditional? env value)).map fun target => (key, target)

/-- The manifest that the fields of an object describe, for an environment. -/
def ofFields (fields : List (String × Value)) (env : Environment) : Manifest :=
  let map := ((Value.field fields "map").fields?).getD []
  let targets := targets env map
  { name? := (Value.field fields "name").string?
    main? := mainOf env (Value.field fields "main").string? map
    paths := Dict.ofList <| (targets.filter fun t => isOwnFile t.1).map fun t =>
      (stripDot t.1, t.2)
    map := Dict.ofList (targets.filter fun t => !isOwnFile t.1) }

end Manifest

end ImportAtlas
