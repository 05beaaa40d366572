import ImportAtlas.Proofs.Extending

/-!
# What a scope cannot touch

A scope is around a module if its prefix denotes a directory, that is a URL that ends in a slash,
and the URL of the module begins with it. All other scopes of a map are out of reach for the
module: two maps that have the same top level and the same scopes around a module answer it alike,
whatever other scopes they have, and however these are spelled or placed between the ones that
count.

## Summary

* `ImportMap.prefixesAround` are the prefixes of the scopes around a place.
* `ImportMap.SameAround` says that two maps have the same entries around a place.

## Main results

* `Resolver.get?_scopes_of_isAbove`: which prefix counts at a directory around a place, among the
  prefixes around it.
* `Resolver.scopeMatches_eq_of_sameAround`: the directories with a scope around a place.
* `Resolver.resolve_eq_of_sameAround`: two maps answer a module alike.
-/

namespace ImportAtlas

/-! ### Readings of a part -/

namespace Dict

variable {α β : Type} [DecidableEq α]

/-- A dictionary is read at a key from the entries whose keys pass a test that the key passes. -/
theorem get?_ofList_filter {p : α → Bool} {k : α} (h : p k = true) (l : List (α × β)) :
    (ofList (l.filter fun e => p e.1)).get? k = (ofList l).get? k := by
  rw [get?_ofList, get?_ofList, ← List.filter_reverse]
  induction l.reverse with
  | nil => rfl
  | cons e l ih =>
      obtain ⟨k', v⟩ := e
      rw [List.filter_cons, List.lookup_cons]
      by_cases hk : k = k'
      · subst hk
        rw [if_pos h, List.lookup_cons, beq_self_eq_true]
      · rw [beq_eq_false_iff_ne.2 hk, ← ih]
        split
        · rw [List.lookup_cons, beq_eq_false_iff_ne.2 hk]
        · rfl

end Dict

/-! ### Scopes around a place -/

/-- Whether a URL names a directory that holds a place. -/
def isAbove (url place : String) : Bool :=
  Target.endsInSlash url && url.toList.isPrefixOf place.toList

theorem mem_scopeMatches_iff_isAbove {place url : String} {scopes : List String} :
    url ∈ scopeMatches place scopes ↔ isAbove url place = true ∧ url ∈ scopes := by
  rw [mem_scopeMatches, isAbove, Bool.and_eq_true, List.isPrefixOf_iff_prefix]

namespace ImportMap

variable {map map' : ImportMap} {base place : String}

/-- The prefixes of a map that denote directories around a place, in their order. -/
def prefixesAround (map : ImportMap) (base place : String) : List String :=
  map.scopes.keys.filter fun q => (mapUrl base q).toOption.any fun url => isAbove url place

/-- Two maps with the same entries around a place: at the top level, and in the scopes around it,
which have the same prefixes in the same order. -/
structure SameAround (base place : String) (map map' : ImportMap) : Prop where
  imports : ∀ k, map.imports.get? k = map'.imports.get? k
  prefixes : map.prefixesAround base place = map'.prefixesAround base place
  entries : ∀ q ∈ map.prefixesAround base place, ∀ k,
    (map.scope q).get? k = (map'.scope q).get? k

theorem mem_prefixesAround {q : String} :
    q ∈ map.prefixesAround base place ↔
      q ∈ map.scopes.keys ∧ ∃ url, mapUrl base q = .ok url ∧ isAbove url place = true := by
  rw [prefixesAround, List.mem_filter]
  cases mapUrl base q with
  | ok url => simp [Except.toOption]
  | error e => simp [Except.toOption]

end ImportMap

namespace Resolver

open ImportMap (prefixesAround SameAround)

variable {map map' : ImportMap} {base place : String} {relativeFallback : Bool} {r r' : Resolver}

/-! ### The prefix that counts -/

/-- **The prefix that counts at a directory around a place is found among the prefixes around
it.** A prefix without a trailing slash in its URL, and one for another directory, is passed over. -/
theorem get?_scopes_of_isAbove (h : make map base relativeFallback = .ok r) {url : String}
    (hurl : isAbove url place = true) :
    r.scopes.get? url = (Dict.ofList ((map.prefixesAround base place).map fun q =>
      ((mapUrl base q).toOption.getD "", q))).get? url := by
  obtain ⟨notes, hnotes, rfl⟩ := make_eq_ok_iff.1 h
  have hfilter : (map.prefixesAround base place).map (fun q =>
      ((mapUrl base q).toOption.getD "", q)) = notes.filter fun note => isAbove note.1 place := by
    rw [notes_eq hnotes, List.filter_map, prefixesAround]
    refine congrArg _ (List.filter_congr fun q hq => ?_)
    obtain ⟨url', hurl'⟩ := exists_make_iff.1 ⟨_, h⟩ q hq
    rw [Function.comp_apply, hurl']
    rfl
  rw [hfilter]
  exact (Dict.get?_ofList_filter (p := fun url => isAbove url place) hurl notes).symm

section Same

variable (hr : make map base relativeFallback = .ok r)
  (hr' : make map' base relativeFallback = .ok r') (h : SameAround base place map map')
include hr hr' h

theorem get?_scopes_eq_of_sameAround {url : String} (hurl : isAbove url place = true) :
    r.scopes.get? url = r'.scopes.get? url := by
  rw [get?_scopes_of_isAbove hr hurl, get?_scopes_of_isAbove hr' hurl, h.prefixes]

/-- **The directories with a scope around a place**, innermost first, are the same. -/
theorem scopeMatches_eq_of_sameAround :
    scopeMatches place r.scopes.keys = scopeMatches place r'.scopes.keys := by
  refine eq_of_pairwise_length (pairwise_scopeMatches _ _) (pairwise_scopeMatches _ _) fun url => ?_
  rw [mem_scopeMatches_iff_isAbove, mem_scopeMatches_iff_isAbove]
  refine and_congr_right fun hurl => ?_
  rw [Dict.mem_keys_iff, Dict.mem_keys_iff, get?_scopes_eq_of_sameAround hr hr' h hurl]

/-- Below a directory around a place, both maps have the same entries. -/
theorem get?_scopeAt_eq_of_sameAround {url : String} (hurl : isAbove url place = true)
    (k : String) : (r.scopeAt url).get? k = (r'.scopeAt url).get? k := by
  rw [scopeAt, scopeAt, ← get?_scopes_eq_of_sameAround hr hr' h hurl, map_of_make hr,
    map_of_make hr']
  cases hq : r.scopes.get? url with
  | none => rfl
  | some q =>
      obtain ⟨hmem, hdenotes⟩ := of_get?_scopes hr hq
      exact h.entries q (ImportMap.mem_prefixesAround.2 ⟨hmem, url, hdenotes, hurl⟩) k

end Same

/-! ### The entry that decides -/

/-- Tables with the same labels and the same readings have the same entry for a specifier. -/
theorem firstEntry?_congr {α : Type} {label label' : α → Option String} {f g : α → Imports}
    (specifier : String) {l : List α} (hlabel : ∀ a ∈ l, label a = label' a)
    (h : ∀ a ∈ l, ∀ k, (f a).get? k = (g a).get? k) :
    Resolver.firstEntry? specifier (l.map fun a => (label a, f a)) =
      Resolver.firstEntry? specifier (l.map fun a => (label' a, g a)) := by
  induction l with
  | nil => rfl
  | cons a l ih =>
      rw [List.forall_mem_cons] at hlabel h
      have hm : (f a).match? specifier = (g a).match? specifier :=
        Imports.match?_congr_get? fun k _ => h.1 k
      simp only [List.map_cons, Resolver.firstEntry?, hm]
      cases (g a).match? specifier with
      | none => exact ih hlabel.2 h.2
      | some key => simp only [hlabel.1, Dict.getD_eq, h.1 key]

/-- **A scope affects only the modules under it.** Maps with the same top level and the same scopes
around a module give it the same answer to every specifier, be it a module or a fault, and through
the same entry. -/
theorem resolve_eq_of_sameAround {parent : String} (hr : make map base relativeFallback = .ok r)
    (hr' : make map' base relativeFallback = .ok r') (h : SameAround base parent map map')
    (specifier : String) (isEntry : Bool) :
    r.resolve specifier parent isEntry = r'.resolve specifier parent isEntry := by
  have habove : ∀ {url}, some url ∈ (scopeMatches parent r.scopes.keys).map some ++ [none] →
      isAbove url parent = true := fun hmem =>
    (mem_scopeMatches_iff_isAbove.1 (by simpa using hmem)).1
  have hentry : Resolver.firstEntry? specifier (r.tables parent) =
      Resolver.firstEntry? specifier (r'.tables parent) := by
    rw [tables_eq_map, tables_eq_map, ← scopeMatches_eq_of_sameAround hr hr' h]
    refine firstEntry?_congr specifier (fun url? hmem => ?_) fun url? hmem k => ?_
    · cases url? with
      | none => rfl
      | some url => exact get?_scopes_eq_of_sameAround hr hr' h (habove hmem)
    · cases url? with
      | none =>
          rw [Option.elim_none, Option.elim_none, map_of_make hr, map_of_make hr']
          exact h.imports k
      | some url => exact get?_scopeAt_eq_of_sameAround hr hr' h (habove hmem) k
  rw [resolve, resolve, hentry]
  simp only [applyEntry, base_of_make hr, base_of_make hr', relativeFallback_of_make hr,
    relativeFallback_of_make hr']

/-- A map with two spellings of one prefix around a module, a prefix for a directory beside it, and
one that is no directory. -/
def crowdedMap : ImportMap :=
  ⟨Dict.ofList [("a", "./a.js")], Dict.ofList [("./s/", Dict.ofList [("a", "./s1.js")]),
    ("./t/", Dict.ofList [("a", "./t.js")]), ("s/", Dict.ofList [("a", "./s2.js")]),
    ("./s", Dict.ofList [("a", "./file.js")])]⟩

/-- A map with the same two scopes, and others for directories elsewhere. -/
def sparseMap : ImportMap :=
  ⟨Dict.ofList [("a", "./a.js")], Dict.ofList [("./s/", Dict.ofList [("a", "./s1.js")]),
    ("https://h/s/", Dict.ofList [("a", "./h.js")]), ("s/", Dict.ofList [("a", "./s2.js")])]⟩

theorem make_sparseMap :
    make sparseMap "file:///p/" true = .ok ⟨sparseMap, "file:///p/", true, Dict.ofList
      [("file:///p/s/", "./s/"), ("https://h/s/", "https://h/s/"), ("file:///p/s/", "s/")]⟩ :=
  make_eq_ok_iff.2 ⟨_, eq_ok_of_toOption (by decide +kernel), rfl⟩

/-- Both maps give the module the target of the later spelling. -/
theorem resolve_eq_of_sameAround_crowdedMap :
    SameAround "file:///p/" "file:///p/s/m.js" crowdedMap sparseMap ∧
      ∃ r r', make crowdedMap "file:///p/" true = .ok r ∧
        make sparseMap "file:///p/" true = .ok r' ∧
        r.resolve "a" "file:///p/s/m.js" true = r'.resolve "a" "file:///p/s/m.js" true ∧
        r'.url? "a" "file:///p/s/m.js" true = .ok (some "file:///p/s2.js") := by
  have hentries : ∀ q ∈ crowdedMap.prefixesAround "file:///p/" "file:///p/s/m.js",
      crowdedMap.scope q = sparseMap.scope q := by decide +kernel
  have hsame : SameAround "file:///p/" "file:///p/s/m.js" crowdedMap sparseMap :=
    ⟨fun _ => rfl, by decide +kernel, fun q hq k => by rw [hentries q hq]⟩
  obtain ⟨r, hr⟩ := @ImportMap.exists_make_of_isSome "file:///p/" true crowdedMap
    (by decide +kernel)
  exact ⟨hsame, r, _, hr, make_sparseMap, resolve_eq_of_sameAround hr make_sparseMap hsame "a" true,
    eq_ok_of_toOption (by decide +kernel)⟩

end Resolver

end ImportAtlas
