import ImportAtlas.Error
import ImportAtlas.ImportMap.Basic
import ImportAtlas.ImportMap.Target

/-!
# Maps without scopes

Scopes can be folded into the top-level imports when no specifier has two different targets.

## Summary

* `ImportMap.flatten` folds the scopes, or names the first conflict.
-/

namespace ImportAtlas.ImportMap

/-- Adds an entry of a scope to a table, unless the table has a different target for it. -/
def foldEntry (scopePrefix : String) (imports : Imports) (entry : String × String) :
    Except Error Imports :=
  match imports.get? entry.1 with
  | some existing =>
    if Target.normalize existing = Target.normalize entry.2 then
      .ok (imports.insert entry.1 entry.2)
    else .error (.map (.conflict entry.1 existing entry.2 scopePrefix))
  | none => .ok (imports.insert entry.1 entry.2)

/-- Adds all entries of a scope to a table. -/
def foldScope (imports : Imports) (scope : String × Imports) : Except Error Imports :=
  scope.2.entries.foldlM (foldEntry scope.1) imports

/-- The map with all entries at the top level, in order. -/
def flatten (map : ImportMap) : Except Error ImportMap := do
  let imports ← map.scopes.entries.foldlM foldScope map.imports
  pure ⟨imports.sorted, ∅⟩

end ImportAtlas.ImportMap
