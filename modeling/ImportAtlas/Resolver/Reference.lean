import ImportAtlas.Error
import ImportAtlas.ImportMap.Target
import ImportAtlas.Url.File
import ImportAtlas.Url.Join

/-!
# References

A specifier that is a URL or a path names a module without an import map; a bare specifier does
not.

## Summary

* `referenceUrl?` finds the URL that a specifier names by itself.
* `baseUrl` and `folderUrl` name the directory that a map is in.
* `filePathOf` finds the file that a URL names, and `displayUrl` shows a URL in a message.
-/

namespace ImportAtlas

/-- The URL that a reference denotes in a document at `base`. -/
def joinUrl (base reference : String) : Except Error String :=
  match Url.join? base reference with
  | some url => .ok url
  | none => .error .malformedUrl

/-- Whether a specifier is a path. -/
def isPathSpecifier (specifier : String) : Bool :=
  Target.isRelative specifier || Target.isRooted specifier

/-- The URL that a specifier in a module names without a map, `none` for a bare specifier. -/
def referenceUrl? (specifier parent : String) : Except Error (Option String) :=
  if isPathSpecifier specifier then (joinUrl parent specifier).map some
  else if Target.isLongUrl specifier then .ok (some specifier)
  else .ok none

/-- The URL that a value of a map at `base` denotes. -/
def mapUrl (base value : String) : Except Error String := do
  match ← referenceUrl? value base with
  | some url => pure url
  | none => joinUrl base ("./" ++ value)

/-- The URL of a directory. -/
def folderUrl (path : String) : Except Error String :=
  if path.toList.contains '\x00' then .error .malformedPath
  else .ok (Target.withSlash (Url.fileUrl (Path.resolve path)))

/-- The URL of a directory that is given by a URL or a path. -/
def baseUrl (base : String) : Except Error String :=
  if Target.isLongUrl base then .ok (Target.withSlash base) else folderUrl base

/-- Whether a URL names a file. -/
def isFileUrl (url : String) : Bool := "file:".toList.isPrefixOf url.toList

/-- The path of the file that a URL names. -/
def filePathOf (url : String) : Except Error String :=
  match Url.filePath? url with
  | some path => .ok path
  | none => .error .malformedUrl

/-- A URL as messages show it: the path if it names a file. -/
def displayUrl (url : String) : Except Error String :=
  if isFileUrl url then filePathOf url else .ok url

end ImportAtlas
