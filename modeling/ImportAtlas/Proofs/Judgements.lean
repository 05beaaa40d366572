import ImportAtlas.Proofs.Recleaning
import ImportAtlas.Proofs.Respelling

/-!
# Cleaning a map that is written anew

A map that is written anew has the same scopes around each scope, so the same entry decides about a
specifier that loses its own. Cleaning then compares the forms of two targets, and these may agree
in one writing and differ in the other: a target that takes up the rest of its specifier may climb
out of its folder. So cleaning keeps the same entries of both maps exactly when this never makes a
difference.

## Summary

* `ImportMap.Leads`: the scopes of a map lie below a common lead when they are written anew.
* `ImportMap.Repeats`: an entry gives a specifier the target that it has anyway.
* `ImportMap.JudgedAlike`: the entries that decide repeat the same entries in both writings.

## Main results

* `ImportMap.Respelled.tables_eq`: the tables that decide in a scope.
* `ImportMap.Respelled.get?_kept_iff`: an entry that is judged, the shorter ones being judged alike.
* `ImportMap.Respelled.kept_iff`: when cleaning keeps the same entries.
-/

namespace ImportAtlas

/-! ### Places below a lead -/

theorem slashPrefixes_append (as bs : List Char) :
    slashPrefixes (as ++ bs) = (slashPrefixes bs).map (as ++ ·) ++ slashPrefixes as := by
  induction as with
  | nil => simp [slashPrefixes]
  | cons c as ih =>
      rw [List.cons_append, slashPrefixes, ih, slashPrefixes, List.map_append, List.map_map,
        List.append_assoc]
      rfl

/-- Below a common lead the same scopes hold a place. -/
theorem scopeMatches_append {lead path : String} {scopes : List String} (h : "" ∉ scopes) :
    scopeMatches (lead ++ path) (scopes.map (lead ++ ·)) =
      (scopeMatches path scopes).map (lead ++ ·) := by
  have hlead : ((slashPrefixes lead.toList).map String.ofList).filter
      (scopes.map (lead ++ ·)).contains = [] := by
    rw [List.filter_eq_nil_iff]
    intro form hform hmem
    obtain ⟨cs, hcs, rfl⟩ := List.mem_map.1 hform
    obtain ⟨scope, hscope, heq⟩ := List.mem_map.1 (List.contains_iff_mem.1 hmem)
    have htext : lead.toList ++ scope.toList = cs := by
      rw [← String.toList_append, heq, String.toList_ofList]
    have hlength := (mem_slashPrefixes.1 hcs).1.length_le
    rw [← htext, List.length_append] at hlength
    have hnil : scope.toList = [] := List.eq_nil_of_length_eq_zero (by omega)
    rw [String.toList_eq_nil_iff.1 hnil] at hscope
    exact h hscope
  have hforms : ((slashPrefixes path.toList).map (lead.toList ++ ·)).map String.ofList =
      ((slashPrefixes path.toList).map String.ofList).map (lead ++ ·) := by
    rw [List.map_map, List.map_map]
    refine List.map_congr_left fun cs _ => String.toList_injective ?_
    simp
  rw [scopeMatches, String.toList_append, slashPrefixes_append, List.map_append,
    List.filter_append, hlead, List.append_nil, hforms, List.filter_map, scopeMatches]
  congr 1
  refine List.filter_congr fun form _ => ?_
  rw [Bool.eq_iff_iff, Function.comp_apply, List.contains_iff_mem, List.contains_iff_mem]
  exact List.mem_map_of_injective fun a b => (String.append_right_inj lead).1

theorem ImportMap.dropLastChar_append {s : String} (lead : String) (h : s ≠ "") :
    dropLastChar (lead ++ s) = lead ++ dropLastChar s := by
  refine String.toList_injective ?_
  have hne : s.toList ≠ [] := fun hnil => h (String.toList_eq_nil_iff.1 hnil)
  simp [dropLastChar, List.dropLast_append_of_ne_nil hne]

/-! ### The entry that decides -/

namespace ImportMap

/-- Below a prefix the entry that decides about a specifier once its own is gone. -/
def deciding? (map : ImportMap) (scopePrefix : String) (entries : Imports) (specifier : String) :
    Option (String × String) :=
  Imports.choice? specifier (map.tables scopePrefix (entries.erase specifier))

/-- An entry gives a specifier a target of the form that it has anyway. -/
def Repeats (specifier target : String) (entry : String × String) : Prop :=
  ∃ found, Imports.targetBy? specifier entry = some found ∧
    Target.normalize found = Target.normalize target

instance (specifier target : String) (entry : String × String) :
    Decidable (Repeats specifier target entry) :=
  decidable_of_iff ((Imports.targetBy? specifier entry).any fun found =>
      Target.normalize found == Target.normalize target)
    (by simp only [Option.any_eq_true, beq_iff_eq, Repeats])

theorem redundant_iff_repeats {map : ImportMap} {scopePrefix specifier target : String}
    {entries : Imports} :
    map.Redundant scopePrefix entries specifier target ↔
      Target.isRelative specifier = false ∧
        ∃ entry, map.deciding? scopePrefix entries specifier = some entry ∧
          Repeats specifier target entry := by
  rw [Redundant, fallback?, Imports.firstTarget?_eq_bind, deciding?]
  simp only [Option.bind_eq_some_iff, Repeats]
  refine and_congr_right fun _ => ⟨?_, ?_⟩
  · rintro ⟨found, ⟨entry, hentry, hfound⟩, hform⟩
    exact ⟨entry, hentry, found, hfound, hform⟩
  · rintro ⟨entry, hentry, found, hfound, hform⟩
    exact ⟨found, ⟨entry, hentry, hfound⟩, hform⟩

/-- The scopes of a map lie below a common lead when they are written anew. -/
structure Leads (f : String → String) (lead : String) (map : ImportMap) : Prop where
  normalize_eq : ∀ q ∈ map.scopes.keys, Target.normalize (f q) = lead ++ Target.normalize q
  ne_empty : ∀ q ∈ map.scopes.keys, Target.normalize q ≠ ""

/-- The entries that decide repeat the same entries of scopes in both writings. -/
def JudgedAlike (f : String → String) (map : ImportMap) : Prop :=
  ∀ q ∈ map.scopes.keys, ∀ k v entry, (map.scope q).get? k = some v →
    Target.isRelative k = false → map.deciding? q (map.kept q) k = some entry →
      (Repeats k v entry ↔ Repeats k (f v) (entry.1, f entry.2))

/-- The forms of scopes belong to scopes. -/
theorem mem_keys_of_get?_scopeForms {map : ImportMap} {form q : String}
    (h : map.scopeForms.get? form = some q) :
    q ∈ map.scopes.keys ∧ form = Target.normalize q := by
  obtain ⟨q', hq', heq⟩ := List.mem_map.1 (Dict.mem_of_get?_ofList h)
  obtain ⟨rfl, rfl⟩ := Prod.mk.inj heq
  exact ⟨hq', rfl⟩

namespace Respelled

variable {f : String → String} {lead q : String} {map map' : ImportMap}
  (h : Respelled f map map') (hleads : map.Leads f lead)
include h hleads

theorem entries_scopeForms :
    map'.scopeForms.entries = map.scopeForms.entries.map fun e => (lead ++ e.1, f e.2) := by
  have hkeys : (map'.scopes.keys.map fun q => (Target.normalize q, q)) =
      (map.scopes.keys.map fun q => (Target.normalize q, q)).map fun e =>
        (lead ++ e.1, f e.2) := by
    rw [h.keys_scopes, List.map_map, List.map_map]
    refine List.map_congr_left fun q hq => ?_
    rw [Function.comp_apply, Function.comp_apply, hleads.normalize_eq q hq]
  rw [scopeForms, hkeys]
  exact Dict.entries_ofList_map f fun a _ b _ heq => (String.append_right_inj lead).1 heq

/-- The scopes around a scope are those around it in the other writing. -/
theorem enclosing_eq (hq : q ∈ map.scopes.keys) :
    map'.enclosing (f q) = (map.enclosing q).map (Imports.respell f) := by
  have hforms : map'.scopeForms.keys = map.scopeForms.keys.map (lead ++ ·) := by
    rw [Dict.keys, h.entries_scopeForms hleads, List.map_map, Dict.keys, List.map_map]
    rfl
  have hempty : "" ∉ map.scopeForms.keys := by
    intro hmem
    obtain ⟨q', hq'⟩ := Dict.mem_keys_iff.1 hmem
    obtain ⟨hscope, hform⟩ := mem_keys_of_get?_scopeForms hq'
    exact hleads.ne_empty q' hscope hform.symm
  rw [enclosing, hleads.normalize_eq q hq, dropLastChar_append lead (hleads.ne_empty q hq), hforms,
    scopeMatches_append hempty, List.map_map, enclosing, List.map_map]
  refine List.map_congr_left fun form hform => ?_
  obtain ⟨q', hq'⟩ := Dict.mem_keys_iff.1 (List.contains_iff_mem.1 (List.mem_filter.1 hform).2)
  have hq'' : map'.scopeForms.get? (lead ++ form) = some (f q') := by
    rw [Dict.get?_eq_some_iff, h.entries_scopeForms hleads]
    exact List.mem_map.2 ⟨(form, q'), Dict.get?_eq_some_iff.1 hq', rfl⟩
  rw [Function.comp_apply, Function.comp_apply, Dict.getD_of_get? hq', Dict.getD_of_get? hq'']
  exact h.scope_eq (mem_keys_of_get?_scopeForms hq').1

/-- The tables that decide in a scope are those of the other writing, written anew. -/
theorem tables_eq (hq : q ∈ map.scopes.keys) (entries : Imports) :
    map'.tables (f q) (entries.respell f) = (map.tables q entries).map (Imports.respell f) := by
  rw [tables, tables, h.enclosing_eq hleads hq, h.imports_eq, List.map_cons, List.map_append]
  rfl

/-- The same entry decides if the shorter keys around a specifier are the same. -/
theorem deciding?_eq (hq : q ∈ map.scopes.keys) {k : String} {entries entries' : Imports}
    (hget : ∀ j, Covers j k → j ≠ k → entries'.get? j = (entries.get? j).map f) :
    map'.deciding? (f q) entries' k =
      (map.deciding? q entries k).map fun entry => (entry.1, f entry.2) := by
  have herase : ∀ j, Covers j k →
      (entries'.erase k).get? j = (Imports.respell f (entries.erase k)).get? j := by
    intro j hj
    rw [Imports.get?_respell, Dict.get?_erase, Dict.get?_erase]
    split
    · rfl
    · rename_i hne
      exact hget j hj hne
  have htables := h.tables_eq hleads hq (entries.erase k)
  rw [deciding?, deciding?, ← Imports.choice?_respell, ← htables, tables, tables]
  have hm := Imports.match?_congr_get? herase
  cases hk : Imports.match? (Imports.respell f (entries.erase k)) k with
  | none => rw [Imports.choice?_cons_of_none (hm.trans hk), Imports.choice?_cons_of_none hk]
  | some key =>
      rw [Imports.choice?_cons_of_match? (hm.trans hk), Imports.choice?_cons_of_match? hk,
        Dict.getD_eq, Dict.getD_eq, herase key (Imports.covers_of_match? hk)]

/-- **An entry is kept alike** if the shorter keys around its own are, exactly when the entry that
decides in its place repeats it in both writings or in none. -/
theorem get?_kept_iff (hq : q ∈ map.scopes.keys) {k v : String}
    (hv : (map.scope q).get? k = some v)
    (hget : ∀ j, Covers j k → j ≠ k → (map'.kept (f q)).get? j = ((map.kept q).get? j).map f) :
    (map'.kept (f q)).get? k = ((map.kept q).get? k).map f ↔
      ∀ entry, Target.isRelative k = false → map.deciding? q (map.kept q) k = some entry →
        (Repeats k v entry ↔ Repeats k (f v) (entry.1, f entry.2)) := by
  have hv' : (map'.scope (f q)).get? k = some (f v) := by
    rw [h.scope_eq hq, Imports.get?_respell, hv]
    rfl
  have hagree : (map'.kept (f q)).get? k = ((map.kept q).get? k).map f ↔
      (map.Redundant q (map.kept q) k v ↔
        map'.Redundant (f q) (map'.kept (f q)) k (f v)) := by
    by_cases hred : map.Redundant q (map.kept q) k v
    · rw [iff_true_left hred, kept, kept, (get?_cleanScope_eq_none_iff hv).2 hred, Option.map_none,
        get?_cleanScope_eq_none_iff hv']
    · rw [iff_false_left hred, kept, kept, get?_cleanScope_eq_some_iff.2 ⟨hv, hred⟩,
        Option.map_some, get?_cleanScope_eq_some_iff, and_iff_right hv']
  rw [hagree, redundant_iff_repeats, redundant_iff_repeats, h.deciding?_eq hleads hq hget]
  cases Target.isRelative k with
  | true => simp
  | false => cases map.deciding? q (map.kept q) k <;> simp

/-- **When cleaning keeps the same entries** of a map that is written anew: exactly when the entries
that decide repeat the same entries in both writings. -/
theorem kept_iff :
    (∀ q ∈ map.scopes.keys, ∀ k,
        (map'.kept (f q)).get? k = ((map.kept q).get? k).map f) ↔
      map.JudgedAlike f := by
  constructor
  · intro hkept q hq k v entry hv hrel hentry
    exact (h.get?_kept_iff hleads hq hv fun j _ _ => hkept q hq j).1 (hkept q hq k) entry hrel
      hentry
  · intro halike q hq k
    induction hlength : k.length using Nat.strong_induction_on generalizing k with
    | _ n ih =>
        subst hlength
        cases hv : (map.scope q).get? k with
        | none =>
            have hv' : (map'.scope (f q)).get? k = none := by
              rw [h.scope_eq hq, Imports.get?_respell, hv, Option.map_none]
            rw [kept, kept, get?_cleanScope_of_eq_none hv, get?_cleanScope_of_eq_none hv',
              Option.map_none]
        | some v =>
            refine (h.get?_kept_iff hleads hq hv fun j hj hne => ?_).2 fun entry hrel hentry =>
              halike q hq k v entry hv hrel hentry
            have hshorter : j.length < k.length :=
              lt_of_le_of_ne hj.length_le fun heq => hne (hj.eq_of_length_eq (Covers.refl k) heq)
            exact ih j.length hshorter j rfl

end Respelled

end ImportMap

end ImportAtlas
