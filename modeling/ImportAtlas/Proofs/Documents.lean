import ImportAtlas.ImportMap.Document
import ImportAtlas.Proofs.JsonText
import ImportAtlas.Proofs.Outcomes

/-!
# Map documents

A map is written as an object whose keys stand in the order of the map, and is read again entry by
entry. Reading refuses one thing that a map can hold: a scope whose prefix is no folder.

## Summary

* `ImportMap.Foldered` says that all prefixes of scopes are folders.

## Main results

* `ImportMap.foldered_of_ofValue`: a map that has been read is of this kind.
* `ImportMap.ofValue_toValue`: a map of this kind is read back from its object.
* `ImportMap.ofJson_toJson_iff`: a map is read back from its text exactly when it is of this kind.
-/

namespace ImportAtlas.ImportMap

/-- All prefixes of scopes end in a slash. -/
def Foldered (map : ImportMap) : Prop := ∀ q ∈ map.scopes.keys, Target.endsInSlash q = true

instance (map : ImportMap) : Decidable map.Foldered :=
  inferInstanceAs (Decidable (∀ q ∈ map.scopes.keys, Target.endsInSlash q = true))

variable {map : ImportMap}

/-! ### Reading what was written -/

theorem mapM_entryOf (source place : String) (entries : List (String × String)) :
    (entries.map fun e => (e.1, Value.string e.2)).mapM
      (fun e => entryOf source place e.1 e.2) = .ok entries := by
  induction entries with
  | nil => rfl
  | cons e entries ih =>
      rw [List.map_cons, List.mapM_cons, ih]
      rfl

theorem importsOf_importsValue (source place : String) (imports : Imports) :
    importsOf source place (importsValue imports) = .ok imports := by
  have hentries := mapM_entryOf source place imports.entries
  rw [importsOf, importsValue, objectOr]
  simp only [bind, Except.bind] at hentries ⊢
  rw [hentries]
  exact congrArg Except.ok (Dict.ofList_entries imports)

theorem scopeOf_importsValue {source q : String} (hq : Target.endsInSlash q = true)
    (entries : Imports) : scopeOf source q (importsValue entries) = .ok (q, entries) := by
  rw [scopeOf, hq, importsOf_importsValue]
  rfl

theorem mapM_scopeOf (source : String) {scopes : List (String × Imports)}
    (h : ∀ e ∈ scopes, Target.endsInSlash e.1 = true) :
    (scopes.map fun e => (e.1, importsValue e.2)).mapM (fun e => scopeOf source e.1 e.2) =
      .ok scopes := by
  induction scopes with
  | nil => rfl
  | cons e scopes ih =>
      rw [List.forall_mem_cons] at h
      rw [List.map_cons, List.mapM_cons, ih h.2, scopeOf_importsValue h.1]
      rfl

/-- **A map whose scopes are folders is read back from its object**, in its order. -/
theorem ofValue_toValue (h : map.Foldered) (source : String) :
    ofValue map.toValue source = .ok map := by
  have himports := importsOf_importsValue source "imports" map.imports
  have hfolders : ∀ e ∈ map.scopes.entries, Target.endsInSlash e.1 = true := fun e he =>
    h e.1 (List.mem_map_of_mem he)
  have hscopes := mapM_scopeOf source hfolders
  have hobject : objectOr (.object (map.scopes.entries.map fun e => (e.1, importsValue e.2)))
      (.scopesNotObject source) =
        .ok (map.scopes.entries.map fun e => (e.1, importsValue e.2)) := rfl
  have hread : ofValue map.toValue source = (do
      let imports ← importsOf source "imports" (importsValue map.imports)
      let scopes ← objectOr (.object (map.scopes.entries.map fun e => (e.1, importsValue e.2)))
        (.scopesNotObject source)
      let scopes ← scopes.mapM fun e => scopeOf source e.1 e.2
      pure ⟨imports, Dict.ofList scopes⟩) := rfl
  rw [hread, himports, hobject]
  simp only [bind, Except.bind, pure, Except.pure] at hscopes ⊢
  rw [hscopes]
  exact congrArg (fun scopes => Except.ok (ImportMap.mk map.imports scopes))
    (Dict.ofList_entries map.scopes)

/-! ### What has been read -/

theorem endsInSlash_of_scopeOf {source q : String} {value : Value} {scope : String × Imports}
    (h : scopeOf source q value = .ok scope) : Target.endsInSlash scope.1 = true := by
  rw [scopeOf] at h
  cases hq : Target.endsInSlash q with
  | false =>
      rw [hq] at h
      exact absurd h (by simp)
  | true =>
      rw [hq] at h
      obtain ⟨entries, -, h⟩ := exists_of_bind_eq_ok h
      obtain rfl := Except.ok.inj h
      exact hq

/-- **The scopes of a map that has been read are folders.** -/
theorem foldered_of_ofValue {value : Value} {source : String} (h : ofValue value source = .ok map) :
    map.Foldered := by
  cases value with
  | object fields =>
      rw [ofValue] at h
      cases hkey : unknownKey? fields with
      | some key =>
          rw [hkey] at h
          exact absurd h (by simp)
      | none =>
          rw [hkey] at h
          obtain ⟨imports, -, h⟩ := exists_of_bind_eq_ok h
          obtain ⟨entries, -, h⟩ := exists_of_bind_eq_ok h
          obtain ⟨scopes, hscopes, h⟩ := exists_of_bind_eq_ok h
          obtain rfl := Except.ok.inj h
          intro q hq
          obtain ⟨scope, hscope, rfl⟩ := List.mem_map.1 (Dict.mem_keys_ofList.1 hq)
          obtain ⟨entry, -, hentry⟩ := (mem_iff_of_mapM_eq_ok hscopes).1 hscope
          exact endsInSlash_of_scopeOf hentry
  | _ => exact absurd h (by simp [ofValue])

/-! ### Texts -/

theorem delimited_importsValue (imports : Imports) : (importsValue imports).Delimited := by
  refine .object ?_ ?_
  · rw [List.map_map]
    exact imports.nodup_keys
  · intro f hf
    obtain ⟨e, -, rfl⟩ := List.mem_map.1 hf
    exact .string e.2

theorem delimited_toValue (map : ImportMap) : map.toValue.Delimited := by
  refine .object (show ["imports", "scopes"].Nodup by decide) ?_
  rw [List.forall_mem_cons, List.forall_mem_singleton]
  refine ⟨delimited_importsValue map.imports, .object ?_ ?_⟩
  · rw [List.map_map]
    exact map.scopes.nodup_keys
  · intro f hf
    obtain ⟨e, -, rfl⟩ := List.mem_map.1 hf
    exact delimited_importsValue e.2

/-- The text of a map is read as the object that was written. -/
theorem ofJson_toJson (map : ImportMap) (source : String) :
    ofJson map.toJson source = ofValue map.toValue source := by
  have hspace : ∀ c ∈ "\n".toList, Json.isSpace c = true := by
    intro c hc
    rw [List.mem_singleton.1 hc]
    rfl
  rw [ofJson, toJson, Json.parse?_pretty (delimited_toValue map) hspace]

/-- **Which maps are read back.** A map is read back from its text, with the order of its entries
and scopes, exactly when all its scopes are folders. -/
theorem ofJson_toJson_iff (map : ImportMap) (source : String) :
    ofJson map.toJson source = .ok map ↔ map.Foldered := by
  rw [ofJson_toJson]
  exact ⟨foldered_of_ofValue, fun h => ofValue_toValue h source⟩

end ImportAtlas.ImportMap
