import ImportAtlas.Data.Dict

/-!
# Import maps

An import map gives specifiers their targets: at the top level, and for the modules below a
scope prefix.

## Summary

* `ImportMap` holds the top-level imports and the scopes.
* `ImportMap.scope` reads a scope, `ImportMap.setImport` and `ImportMap.setScoped` add entries.
-/

namespace ImportAtlas

/-- Specifiers with their targets. -/
abbrev Imports := Dict String String

/-- Targets of specifiers, at the top level and by scope prefix. -/
structure ImportMap where
  /-- The entries that apply everywhere. -/
  imports : Imports
  /-- The entries that apply below a prefix. -/
  scopes : Dict String Imports
  deriving DecidableEq

namespace ImportMap

/-- The map without entries. -/
def empty : ImportMap := ⟨∅, ∅⟩

instance : EmptyCollection ImportMap := ⟨empty⟩

instance : Inhabited ImportMap := ⟨empty⟩

/-- Whether a map has no entry. -/
def isEmpty (map : ImportMap) : Bool :=
  map.imports.isEmpty && map.scopes.values.all Dict.isEmpty

/-- The entries below a prefix, none if there is no such scope. -/
def scope (map : ImportMap) (scopePrefix : String) : Imports := map.scopes.getD scopePrefix ∅

/-- Sets a top-level entry. -/
def setImport (map : ImportMap) (specifier target : String) : ImportMap :=
  { map with imports := map.imports.insert specifier target }

/-- Sets the entries below a prefix. -/
def setScope (map : ImportMap) (scopePrefix : String) (entries : Imports) : ImportMap :=
  { map with scopes := map.scopes.insert scopePrefix entries }

/-- Sets one entry below a prefix; a scope that is missing is added at the end. -/
def setScoped (map : ImportMap) (scopePrefix specifier target : String) : ImportMap :=
  map.setScope scopePrefix ((map.scope scopePrefix).insert specifier target)

/-- The map with a scope for a prefix, added at the end if it is missing. -/
def ensureScope (map : ImportMap) (scopePrefix : String) : ImportMap :=
  map.setScope scopePrefix (map.scope scopePrefix)

/-- The map with all keys in order. -/
def sorted (map : ImportMap) : ImportMap :=
  ⟨map.imports.sorted, (map.scopes.map fun _ entries => entries.sorted).sorted⟩

end ImportMap

end ImportAtlas
