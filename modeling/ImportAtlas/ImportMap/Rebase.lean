import ImportAtlas.Error
import ImportAtlas.ImportMap.Basic
import ImportAtlas.ImportMap.Target

/-!
# Moving import maps

Relative targets and scope prefixes are taken from the directory that the map is in. When the map
moves to another directory they change, so that they keep denoting the same places.

## Summary

* `rebasePath` moves one target or prefix.
* `ImportMap.rebase` moves a map.
-/

namespace ImportAtlas

/-- How moved targets and prefixes begin. -/
inductive RebaseMode where
  /-- With a dot; they may climb above the directory. -/
  | relative
  /-- With a slash; they must stay within the directory. -/
  | rooted
  deriving DecidableEq, Inhabited

/-- What a path within the directory begins with. -/
def RebaseMode.lead : RebaseMode → String
  | .relative => "./"
  | .rooted => "/"

/-- A path whose backslashes are slashes. -/
def forwardSlashes (path : String) : String :=
  String.ofList (path.toList.map fun c => if c = '\\' then '/' else c)

/-- Whether a path leads above its directory. -/
def climbs (path : String) : Bool := path == ".." || "../".toList.isPrefixOf path.toList

/-- The path from a directory to a value of a map in another directory; a climbing path to the
parent directory alone has a slash. -/
def pathBetween (source target value : String) : String :=
  let path := Path.relative (Path.normalize (Path.join source value)) target
  if path == ".." then "../" else path

/-- A path within a directory, begun as the mode says. -/
def leadPath (mode : RebaseMode) (path : String) : String :=
  mode.lead ++ if path == "." then "" else path

/-- A target or prefix of a map in `source` as it is in a map in `target`. `name` stands for it
in an error. -/
def rebasePath (mode : RebaseMode) (source target value name : String) : Except Error String :=
  if Target.isUrlOrRooted value then .ok value
  else
    let path := pathBetween source target value
    if climbs path && mode == .rooted then .error (.map (.outsideBase name path))
    else
      let path := if climbs path then path else leadPath mode path
      .ok (if Target.endsInSlash value then Target.withSlash path else path)

/-- The entries of a table moved, each named by its specifier. -/
def rebaseEntries (mode : RebaseMode) (source target : String) (entries : Imports) :
    Except Error (List (String × String)) :=
  entries.entries.mapM fun (specifier, value) => do
    let value ← rebasePath mode source target value specifier
    pure (specifier, value)

namespace ImportMap

/-- A map in one directory as it is in another. Prefixes that become the same are merged, later
entries winning. -/
def rebase (map : ImportMap) (mode : RebaseMode) (source target : String) :
    Except Error ImportMap := do
  let source := forwardSlashes source
  let target := forwardSlashes target
  let imports ← rebaseEntries mode source target map.imports
  map.scopes.entries.foldlM (fun result (scopePrefix, entries) => do
    let scopePrefix ← rebasePath mode source target scopePrefix scopePrefix
    let entries ← rebaseEntries mode source target entries
    pure (result.setScope scopePrefix ((result.scope scopePrefix).insertAll (Dict.ofList entries))))
    ⟨Dict.ofList imports, ∅⟩

end ImportMap

end ImportAtlas
