import ImportAtlas.ImportMap.Clean
import ImportAtlas.Resolver.Reference

/-!
# Resolving specifiers

A resolver holds an import map together with the URL of the directory that the map is in. A bare
specifier goes through the scopes around the module that names it, innermost first, and then
through the top-level imports; the first table that has a key for it decides.

## Summary

* `Resolver.make` prepares a map for resolving.
* `Resolver.resolve` finds the URL of a specifier and the entry that gave it.
* `ImportMap.record` notes an entry that was used.
-/

namespace ImportAtlas

/-- An import map at a place. -/
structure Resolver where
  /-- The map. -/
  map : ImportMap
  /-- The URL that targets and prefixes are relative to, ending in a slash. -/
  base : String
  /-- Whether an entry module without mapping is taken for a file. -/
  relativeFallback : Bool
  /-- The prefixes of scopes by the URL that they denote; of two with one URL the later counts. -/
  scopes : Dict String String
  deriving Inhabited

/-- An entry of a map, in a scope or at the top level. -/
structure MapEntry where
  /-- The prefix of the scope, if the entry is in one. -/
  scope? : Option String
  /-- The key of the entry. -/
  key : String
  /-- The target of the entry. -/
  target : String
  deriving DecidableEq, Inhabited

/-- The URL of a specifier, with the entry that gave it if there is one. -/
structure Resolution where
  /-- The module that the specifier names. -/
  url : String
  /-- The entry that applied. -/
  entry? : Option MapEntry
  deriving DecidableEq, Inhabited

/-- Adds an entry to a map. -/
def ImportMap.addEntry (map : ImportMap) (entry : MapEntry) : ImportMap :=
  match entry.scope? with
  | some scopePrefix => map.setScoped scopePrefix entry.key entry.target
  | none => map.setImport entry.key entry.target

/-- Adds the entry that a resolution went through. -/
def ImportMap.record (map : ImportMap) (resolution : Resolution) : ImportMap :=
  match resolution.entry? with
  | some entry => map.addEntry entry
  | none => map

namespace Resolver

/-- The prefixes of scopes by their URLs. -/
def scopeUrls (map : ImportMap) (base : String) : Except Error (Dict String String) := do
  let scopes ← map.scopes.keys.mapM fun scopePrefix => do
    let url ← mapUrl base scopePrefix
    pure (url, scopePrefix)
  pure (Dict.ofList scopes)

/-- A map at the directory with a URL. -/
def make (map : ImportMap) (base : String) (relativeFallback : Bool) : Except Error Resolver := do
  let scopes ← scopeUrls map base
  pure ⟨map, base, relativeFallback, scopes⟩

/-- The tables that apply in a module, innermost scope first, the top level last. -/
def tables (r : Resolver) (parent : String) : List (Option String × Imports) :=
  ((scopeMatches parent r.scopes.keys).map fun url =>
    let scopePrefix := r.scopes.getD url ""
    (some scopePrefix, r.map.scope scopePrefix)) ++ [(none, r.map.imports)]

/-- The resolution of a specifier through one entry. A target that is no directory takes nothing
after it. -/
def applyEntry (r : Resolver) (specifier parent : String) (entry : MapEntry) :
    Except Error Resolution := do
  let rest := restAfter entry.key specifier
  if !rest.isEmpty && !Target.endsInSlash entry.target then
    .error (.resolution specifier parent (some entry.key))
  else
    let url ← mapUrl r.base entry.target
    pure ⟨url ++ rest, some entry⟩

/-- The entry for a specifier in the first of several tables that has a key for it. -/
def firstEntry? (specifier : String) : List (Option String × Imports) → Option MapEntry
  | [] => none
  | (scope?, imports) :: more =>
    match imports.match? specifier with
    | some key => some ⟨scope?, key, imports.getD key ""⟩
    | none => firstEntry? specifier more

/-- The module that a specifier names in the module `parent`. -/
def resolve (r : Resolver) (specifier parent : String) (isEntry : Bool) :
    Except Error Resolution := do
  match ← referenceUrl? specifier parent with
  | some url => pure ⟨url, none⟩
  | none =>
    match firstEntry? specifier (r.tables parent) with
    | some entry => r.applyEntry specifier parent entry
    | none =>
      if isEntry && r.relativeFallback then
        let url ← joinUrl parent ("./" ++ specifier)
        pure ⟨url, none⟩
      else .error (.resolution specifier parent none)

end Resolver

end ImportAtlas
