import ImportAtlas.ImportMap.Match

/-!
# Redundant entries

An entry of a scope is redundant when its specifier has the same target without it: through
another key of the scope, through a scope around it, or through the top-level imports.

## Summary

* `ImportMap.fallback?` is the target that a specifier has once its entry is gone.
* `ImportMap.clean` drops redundant entries and scopes without entries, and sorts all keys.
* `ImportMap.extend` merges two maps.
-/

namespace ImportAtlas.ImportMap

/-- The scope prefixes by their normal forms; of two with one form the later counts. -/
def scopeForms (map : ImportMap) : Dict String String :=
  Dict.ofList (map.scopes.keys.map fun scopePrefix => (Target.normalize scopePrefix, scopePrefix))

/-- A text without its last character. -/
def dropLastChar (s : String) : String := String.ofList s.toList.dropLast

/-- The scopes around a prefix, innermost first. -/
def enclosing (map : ImportMap) (scopePrefix : String) : List Imports :=
  (scopeMatches (dropLastChar (Target.normalize scopePrefix)) map.scopeForms.keys).map fun form =>
    map.scope (map.scopeForms.getD form "")

/-- The tables that decide about a specifier below a prefix, `entries` being those of the scope
itself. -/
def tables (map : ImportMap) (scopePrefix : String) (entries : Imports) : List Imports :=
  entries :: (map.enclosing scopePrefix ++ [map.imports])

/-- The target that a specifier has below a prefix once its own entry is gone. -/
def fallback? (map : ImportMap) (scopePrefix : String) (entries : Imports) (specifier : String) :
    Option String :=
  Imports.firstTarget? specifier (map.tables scopePrefix (entries.erase specifier))

/-- Whether an entry of a scope changes nothing. Entries for relative specifiers are kept. -/
def isRedundant (map : ImportMap) (scopePrefix : String) (entries : Imports)
    (specifier : String) : Bool :=
  !Target.isRelative specifier &&
    (map.fallback? scopePrefix entries specifier).any fun target =>
      Target.normalize target == Target.normalize (entries.getD specifier "")

/-- The keys of a table, shorter ones first. -/
def keysByLength (entries : Imports) : List String :=
  entries.keys.mergeSort fun a b => decide (a.length ≤ b.length)

/-- The entries of a scope without the redundant ones. Shorter keys are judged first: dropping one
changes only what longer keys fall back to. -/
def cleanScope (map : ImportMap) (scopePrefix : String) (entries : Imports) : Imports :=
  (keysByLength entries).foldl
    (fun kept specifier =>
      if map.isRedundant scopePrefix kept specifier then kept.erase specifier else kept) entries

/-- The map without redundant entries and without empty scopes, its keys in order. -/
def clean (map : ImportMap) : ImportMap :=
  sorted ⟨map.imports, (map.scopes.map map.cleanScope).filter fun _ entries => !entries.isEmpty⟩

/-- Two maps merged, scopes entry by entry. The entries of `patch` win. -/
def extend (base patch : ImportMap) : ImportMap :=
  clean {
    imports := base.imports.insertAll patch.imports
    scopes := patch.scopes.entries.foldl (fun scopes (scopePrefix, entries) =>
      scopes.insert scopePrefix ((scopes.getD scopePrefix ∅).insertAll entries)) base.scopes }

end ImportAtlas.ImportMap
