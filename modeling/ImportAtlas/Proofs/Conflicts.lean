import ImportAtlas.Proofs.Flattening
import ImportAtlas.Proofs.Rearranging

/-!
# Maps that cannot be flattened

Scopes are folded into the top level entry by entry, and each target is compared with the one that
stands for its key at that moment. This is the last one that was folded in. All before it had its
form, so that a target of another form is found whatever it disagrees with; and the conflict that
is reported is one of the map.

## Summary

* `ImportMap.Gives` says that a map gives a specifier a target, at the top level or in a scope.
* `ImportMap.Disagrees` says that it gives a specifier two targets of different forms.

## Main results

* `ImportMap.conflict_of_flatten`: the conflict that is reported is a disagreement of the map.
* `ImportMap.flatten_fails_iff_disagrees`: which maps cannot be flattened, and what becomes of the
  others.
-/

namespace ImportAtlas.ImportMap

variable {map flat : ImportMap} {k t t' q : String} {error : Error}

/-- A map gives a specifier a target, at the top level or in a scope. -/
def Gives (map : ImportMap) (specifier target : String) : Prop :=
  map.imports.get? specifier = some target ∨
    ∃ scopePrefix, (map.scope scopePrefix).get? specifier = some target

/-- A map gives a specifier two targets of different forms. -/
def Disagrees (map : ImportMap) : Prop :=
  ∃ specifier target target', map.Gives specifier target ∧ map.Gives specifier target' ∧
    Target.normalize target ≠ Target.normalize target'

/-! ### The entries of a map -/

theorem get?_scope_of_mem {entries : Imports} (hq : (q, entries) ∈ map.scopes.entries)
    (hk : (k, t) ∈ entries.entries) : (map.scope q).get? k = some t := by
  rw [scope, Dict.getD_of_get? (Dict.get?_eq_some_iff.2 hq)]
  exact Dict.get?_eq_some_iff.2 hk

theorem mem_scopeEntryList_iff :
    (k, t) ∈ map.scopeEntryList ↔ ∃ q, (map.scope q).get? k = some t := by
  rw [scopeEntryList, List.mem_flatMap]
  constructor
  · rintro ⟨⟨q, entries⟩, hq, hk⟩
    exact ⟨q, get?_scope_of_mem hq hk⟩
  · rintro ⟨q, hk⟩
    cases hq : map.scopes.get? q with
    | none =>
        rw [scope, Dict.getD_eq, hq] at hk
        exact absurd hk (by simp)
    | some entries =>
        rw [scope, Dict.getD_of_get? hq] at hk
        exact ⟨(q, entries), Dict.get?_eq_some_iff.1 hq, Dict.get?_eq_some_iff.1 hk⟩

theorem mem_entryList_iff : (k, t) ∈ map.entryList ↔ map.Gives k t := by
  rw [entryList, List.mem_append, mem_scopeEntryList_iff, Gives, Dict.get?_eq_some_iff]

theorem concordant_entryList_iff : Concordant map.entryList ↔ ¬ map.Disagrees := by
  constructor
  · rintro h ⟨k, t, t', ht, ht', hne⟩
    exact hne (h (k, t) (mem_entryList_iff.2 ht) (k, t') (mem_entryList_iff.2 ht') rfl)
  · rintro h ⟨k, t⟩ ht ⟨k', t'⟩ ht' hkey
    obtain rfl : k = k' := hkey
    by_contra hne
    exact h ⟨k, t, t', mem_entryList_iff.1 ht, mem_entryList_iff.1 ht', hne⟩

/-! ### The conflict that is reported -/

theorem foldEntry_eq_error_iff {imports : Imports} {e : String × String} :
    foldEntry q imports e = .error error ↔
      ∃ t, imports.get? e.1 = some t ∧ Target.normalize t ≠ Target.normalize e.2 ∧
        error = .map (.conflict e.1 t e.2 q) := by
  rw [foldEntry]
  cases imports.get? e.1 with
  | none => simp
  | some t =>
      by_cases ht : Target.normalize t = Target.normalize e.2 <;> simp [ht, eq_comm]

/-- Folding fails at an entry whose target has another form than one that was there before. By
induction on the entries: what stands in the table is from before, or has been folded in. -/
theorem conflict_of_foldlM {named : List (String × (String × String))} {imports : Imports}
    (h : named.foldlM (fun imports e => foldEntry e.1 imports e.2) imports = .error error) :
    ∃ q k t t', error = .map (.conflict k t t' q) ∧ (q, (k, t')) ∈ named ∧
      Target.normalize t ≠ Target.normalize t' ∧
        (imports.get? k = some t ∨ ∃ q', (q', (k, t)) ∈ named) := by
  induction named generalizing imports with
  | nil => exact absurd h (by simp [pure, Except.pure])
  | cons e named ih =>
      obtain ⟨q, key, target⟩ := e
      rw [List.foldlM_cons] at h
      cases hfold : foldEntry q imports (key, target) with
      | error error' =>
          rw [hfold] at h
          obtain rfl : error' = error := Except.error.inj h
          obtain ⟨t, ht, hne, rfl⟩ := foldEntry_eq_error_iff.1 hfold
          exact ⟨q, key, t, target, rfl, List.mem_cons_self, hne, Or.inl ht⟩
      | ok imports' =>
          obtain ⟨-, rfl⟩ := foldEntry_eq_ok_iff.1 hfold
          rw [hfold] at h
          obtain ⟨q', k, t, t', rfl, hmem, hne, hbefore⟩ := ih h
          refine ⟨q', k, t, t', rfl, List.mem_cons_of_mem _ hmem, hne, ?_⟩
          rcases hbefore with ht | ⟨q'', hq''⟩
          · rw [Dict.get?_insert] at ht
            split at ht
            · rename_i hk
              obtain rfl : k = key := hk
              obtain rfl : target = t := Option.some.inj ht
              exact Or.inr ⟨q, List.mem_cons_self⟩
            · exact Or.inl ht
          · exact Or.inr ⟨q'', List.mem_cons_of_mem _ hq''⟩

/-- **The conflict that is reported is one of the map**: the target in the scope that is named has
another form than the target that it is compared with. -/
theorem conflict_of_flatten (h : map.flatten = .error error) :
    ∃ k t t' q, error = .map (.conflict k t t' q) ∧ map.Gives k t ∧
      (map.scope q).get? k = some t' ∧ Target.normalize t ≠ Target.normalize t' := by
  have hscoped : ∀ {q k t}, (q, (k, t)) ∈ (map.scopes.entries.flatMap fun scope =>
      scope.2.entries.map (scope.1, ·)) → (map.scope q).get? k = some t := by
    intro q k t hmem
    obtain ⟨⟨q', entries⟩, hq, hk⟩ := List.mem_flatMap.1 hmem
    obtain ⟨e, he, heq⟩ := List.mem_map.1 hk
    obtain ⟨rfl, rfl⟩ := Prod.mk.inj heq
    exact get?_scope_of_mem hq he
  rw [flatten, foldlM_foldScope] at h
  cases hfold : (map.scopes.entries.flatMap fun scope => scope.2.entries.map (scope.1, ·)).foldlM
      (fun imports e => foldEntry e.1 imports e.2) map.imports with
  | ok imports =>
      rw [hfold] at h
      exact absurd h (by simp [bind, Except.bind, pure, Except.pure])
  | error error' =>
      rw [hfold] at h
      obtain rfl : error' = error := Except.error.inj h
      obtain ⟨q, k, t, t', rfl, hmem, hne, hbefore⟩ := conflict_of_foldlM hfold
      refine ⟨k, t, t', q, rfl, ?_, hscoped hmem, hne⟩
      rcases hbefore with ht | ⟨q', hq'⟩
      · exact Or.inl ht
      · exact Or.inr ⟨q', hscoped hq'⟩

/-! ### Maps that can be flattened -/

theorem flatten_fails_iff : (∃ error, map.flatten = .error error) ↔ map.Disagrees := by
  rw [← not_iff_not, ← concordant_entryList_iff]
  constructor
  · intro hnot
    cases hflat : map.flatten with
    | error error => exact absurd ⟨error, hflat⟩ hnot
    | ok flat => exact (flatten_eq_ok_iff.1 hflat).1
  · rintro h ⟨error, herror⟩
    rw [flatten_eq_ok_iff.2 ⟨h, rfl⟩] at herror
    exact absurd herror (by simp)

/-- The entries of a flat map are entries of the map. -/
theorem gives_of_flatten (h : map.flatten = .ok flat) (hk : flat.imports.get? k = some t) :
    map.Gives k t := by
  obtain ⟨-, rfl⟩ := flatten_eq_ok_iff.1 h
  rw [Dict.get?_sorted, Dict.get?_insertMany, Option.or_eq_some_iff] at hk
  rcases hk with hscope | ⟨-, htop⟩
  · refine Or.inr (mem_scopeEntryList_iff.1 ?_)
    obtain ⟨before, after, hsplit, -⟩ := List.lookup_eq_some_iff.1 hscope
    rw [← List.mem_reverse, hsplit]
    exact List.mem_append_right _ List.mem_cons_self
  · exact Or.inl htop

/-- The specifiers of a flat map are those of the map. -/
theorem mem_keys_flatten_iff (h : map.flatten = .ok flat) :
    k ∈ flat.imports.keys ↔ ∃ t, map.Gives k t := by
  constructor
  · intro hk
    obtain ⟨t, ht⟩ := Dict.mem_keys_iff.1 hk
    exact ⟨t, gives_of_flatten h ht⟩
  · rintro ⟨t, htop | ⟨q, hscope⟩⟩
    · exact mem_keys_of_flatten h (Or.inl (Dict.mem_keys_of_get? htop))
    · exact mem_keys_of_flatten h (Or.inr ⟨q, Dict.mem_keys_of_get? hscope⟩)

/-- **Which maps cannot be flattened, and what becomes of the others.** Flattening fails exactly
when the map gives a specifier two targets of different forms, and then it reports such a conflict.
Otherwise the flat map has no scopes; its specifiers are those of the map, in increasing order, and
each has a target of the form that all its targets have. -/
theorem flatten_fails_iff_disagrees (map : ImportMap) :
    ((∃ cause, map.flatten = .error (.map cause)) ↔ map.Disagrees) ∧
    (∀ error, map.flatten = .error error →
      ∃ k t t' q, error = .map (.conflict k t t' q) ∧ map.Gives k t ∧
        (map.scope q).get? k = some t' ∧ Target.normalize t ≠ Target.normalize t') ∧
    (¬ map.Disagrees → ∃ flat, map.flatten = .ok flat ∧ flat.scopes = ∅ ∧
      flat.imports.keys.Pairwise (· < ·) ∧
      (∀ k, k ∈ flat.imports.keys ↔ ∃ t, map.Gives k t) ∧
      ∀ k t, flat.imports.get? k = some t → map.Gives k t ∧
        ∀ t', map.Gives k t' → Target.normalize t' = Target.normalize t) := by
  refine ⟨?_, fun error herror => conflict_of_flatten herror, fun hagrees => ?_⟩
  · rw [← flatten_fails_iff]
    constructor
    · rintro ⟨cause, hcause⟩
      exact ⟨_, hcause⟩
    · rintro ⟨error, herror⟩
      obtain ⟨k, t, t', q, rfl, -⟩ := conflict_of_flatten herror
      exact ⟨_, herror⟩
  · have hflat := flatten_eq_ok_iff.2 ⟨concordant_entryList_iff.2 hagrees, rfl⟩
    refine ⟨_, hflat, rfl, Dict.pairwise_keys_sorted _, fun k => mem_keys_flatten_iff hflat, ?_⟩
    intro k t hk
    have ht := gives_of_flatten hflat hk
    refine ⟨ht, fun t' ht' => ?_⟩
    by_contra hne
    exact hagrees ⟨k, t', t, ht', ht, hne⟩

/-- A map with two spellings of one target between which another target stands. -/
def quarrellingMap : ImportMap :=
  ⟨Dict.ofList [("a", "./x.js")],
    Dict.ofList [("./s/", Dict.ofList [("a", "./s/../x.js")]),
      ("./t/", Dict.ofList [("a", "./y.js")]), ("./u/", Dict.ofList [("a", "x.js")])]⟩

/-- The map above cannot be flattened; a map whose inner scopes repeat the outer ones can. -/
theorem flatten_fails_iff_disagrees_echoingMap :
    (quarrellingMap.Disagrees ∧ ∃ cause, quarrellingMap.flatten = .error (.map cause)) ∧
      ¬ Resolver.echoingMap.Disagrees ∧ ∃ flat, Resolver.echoingMap.flatten = .ok flat ∧
        flat.scopes = ∅ ∧ "b/d/e" ∈ flat.imports.keys := by
  have hquarrel : quarrellingMap.Disagrees :=
    ⟨"a", "./x.js", "./y.js", Or.inl (by decide +kernel), Or.inr ⟨"./t/", by decide +kernel⟩,
      by decide +kernel⟩
  have hechoes : ¬ Resolver.echoingMap.Disagrees :=
    concordant_entryList_iff.1 (by decide +kernel)
  obtain ⟨flat, hflat, hscopes, -, hkeys, -⟩ :=
    (flatten_fails_iff_disagrees Resolver.echoingMap).2.2 hechoes
  refine ⟨⟨hquarrel, (flatten_fails_iff_disagrees quarrellingMap).1.2 hquarrel⟩, hechoes, flat,
    hflat, hscopes, (hkeys _).2 ⟨"./lib/d/e", Or.inr ⟨"./s/", by decide +kernel⟩⟩⟩

end ImportAtlas.ImportMap
