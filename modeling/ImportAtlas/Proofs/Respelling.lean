import ImportAtlas.Proofs.Choice

/-!
# Maps that are written anew

The targets of a map and the prefixes of its scopes may be written in another way while its keys
and its order stay. The same entry decides about every specifier then.

## Summary

* `Imports.respell`: a table with its targets written anew.
* `ImportMap.Respelled`: a map and the same map written anew.

## Main results

* `Imports.choice?_respell`: the entry that decides is the same.
* `ImportMap.Respelled.scope_eq`, `ImportMap.Respelled.get?_scope`: a scope written anew.
* `ImportMap.Respelled.setScope`: a scope may be added before or after.
-/

namespace ImportAtlas

namespace Imports

/-- The entries of a table with their targets written anew. -/
def respell (f : String → String) (imports : Imports) : Imports := imports.map fun _ => f

variable {f : String → String} {imports : Imports}

theorem get?_respell (f : String → String) (imports : Imports) (k : String) :
    (respell f imports).get? k = (imports.get? k).map f := Dict.get?_map _ imports k

theorem keys_respell (f : String → String) (imports : Imports) :
    (respell f imports).keys = imports.keys := Dict.keys_map _ imports

theorem isEmpty_respell (f : String → String) (imports : Imports) :
    (respell f imports).isEmpty = imports.isEmpty := List.isEmpty_map

theorem match?_respell (f : String → String) (imports : Imports) (specifier : String) :
    match? (respell f imports) specifier = match? imports specifier := by
  have hcontains : (respell f imports).contains = imports.contains := by
    funext k
    rw [Dict.contains, Dict.contains, keys_respell]
  rw [match?, match?, hcontains]

/-- The entry that decides is the same when targets are written anew. -/
theorem choice?_respell (f : String → String) (tables : List Imports) (specifier : String) :
    choice? specifier (tables.map (respell f)) =
      (choice? specifier tables).map fun entry => (entry.1, f entry.2) := by
  induction tables with
  | nil => rfl
  | cons imports tables ih =>
      rw [List.map_cons]
      cases hm : imports.match? specifier with
      | none =>
          rw [choice?_cons_of_none hm, ← ih, choice?_cons_of_none]
          rw [match?_respell, hm]
      | some key =>
          obtain ⟨v, hv⟩ := Dict.mem_keys_iff.1 (mem_keys_of_match? hm)
          have hm' : match? (respell f imports) specifier = some key := by rw [match?_respell, hm]
          have hv' : (respell f imports).get? key = some (f v) := by
            rw [get?_respell, hv]
            rfl
          rw [choice?_cons_of_match? hm, choice?_cons_of_match? hm', Dict.getD_of_get? hv,
            Dict.getD_of_get? hv']
          rfl

end Imports

namespace ImportMap

theorem scope_of_not_mem_keys {map : ImportMap} {q : String} (hq : q ∉ map.scopes.keys) :
    map.scope q = ∅ := by
  rw [scope, Dict.getD_eq, Dict.get?_eq_none_iff.2 hq]
  rfl

/-- What a map is when its targets and the prefixes of its scopes are written anew. -/
structure Respelled (f : String → String) (map respelled : ImportMap) : Prop where
  imports_eq : respelled.imports = map.imports.respell f
  entries_scopes : respelled.scopes.entries =
    map.scopes.entries.map fun e => (f e.1, e.2.respell f)

namespace Respelled

variable {f : String → String} {map respelled : ImportMap} {q : String}

theorem empty (f : String → String) : Respelled f ∅ ∅ := ⟨rfl, rfl⟩

variable (h : Respelled f map respelled)
include h

theorem keys_scopes : respelled.scopes.keys = map.scopes.keys.map f := by
  rw [Dict.keys, Dict.keys, h.entries_scopes, List.map_map, List.map_map]
  rfl

theorem get?_scopes {entries : Imports} (hq : map.scopes.get? q = some entries) :
    respelled.scopes.get? (f q) = some (entries.respell f) := by
  rw [Dict.get?_eq_some_iff, h.entries_scopes]
  exact List.mem_map.2 ⟨(q, entries), Dict.get?_eq_some_iff.1 hq, rfl⟩

/-- A scope of a map that is written anew. -/
theorem scope_eq (hq : q ∈ map.scopes.keys) : respelled.scope (f q) = (map.scope q).respell f := by
  obtain ⟨entries, hentries⟩ := Dict.mem_keys_iff.1 hq
  rw [scope, scope, Dict.getD_of_get? (h.get?_scopes hentries), Dict.getD_of_get? hentries]

/-- A scope that may be missing, if no other prefix is written as its own. -/
theorem get?_scope (hinj : ∀ q' ∈ map.scopes.keys, f q' = f q → q' = q) (k : String) :
    (respelled.scope (f q)).get? k = ((map.scope q).get? k).map f := by
  by_cases hq : q ∈ map.scopes.keys
  · rw [h.scope_eq hq, Imports.get?_respell]
  · have hq' : f q ∉ respelled.scopes.keys := by
      rw [h.keys_scopes, List.mem_map]
      rintro ⟨q', hmem, heq⟩
      exact hq (hinj q' hmem heq ▸ hmem)
    rw [scope_of_not_mem_keys hq, scope_of_not_mem_keys hq']
    rfl

/-- **A scope may be added before or after a map is written anew**, if no other prefix is written
as its own. -/
theorem setScope (hinj : ∀ q' ∈ map.scopes.keys, f q' = f q → q' = q) (entries : Imports) :
    Respelled f (map.setScope q entries) (respelled.setScope (f q) (entries.respell f)) := by
  refine ⟨h.imports_eq, ?_⟩
  rw [ImportMap.setScope, ImportMap.setScope, Dict.entries_insert, Dict.entries_insert,
    h.entries_scopes]
  exact Dict.insertEntry_map (Imports.respell f) entries fun e he =>
    hinj e.1 (List.mem_map_of_mem he)

end Respelled

end ImportMap

end ImportAtlas
