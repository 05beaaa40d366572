import ImportAtlas.Proofs.Preservation
import ImportAtlas.Proofs.Redundancy
import ImportAtlas.Proofs.Usage

/-!
# Resolving through a part of a map

A part of a map holds some of its entries, under the prefixes that count. Every table of the part
has lost keys only, so an entry of the map that is also in the part decides as it does in the whole
map: a specifier that goes through it finds the same URL.

## Main results

* `Resolver.exists_make_of_within`: a part can be resolved through where the whole map can.
* `Resolver.url?_eq_of_has`: an entry that is in the part decides as before.
-/

namespace ImportAtlas

/-! ### Entries of the first table -/

namespace Imports

/-- Where every table has lost entries, but those of the first table with a key for a specifier
keep that key, its entry still decides. -/
theorem choice?_of_firstEntry? {α : Type} {label : α → Option String} {f g : α → Imports}
    {l : List α} {specifier : String} {entry : MapEntry} (hsub : ∀ a ∈ l, Sub (f a) (g a))
    (h : Resolver.firstEntry? specifier (l.map fun a => (label a, g a)) = some entry)
    (hkept : ∀ a ∈ l, label a = entry.scope? → (f a).get? entry.key = some entry.target) :
    choice? specifier (l.map f) = some (entry.key, entry.target) := by
  induction l with
  | nil => exact absurd h (by simp [ Resolver.firstEntry?])
  | cons a l ih =>
      rw [List.forall_mem_cons] at hsub hkept
      rw [List.map_cons, Resolver.firstEntry?] at h
      rw [List.map_cons]
      have hkeys : ∀ k ∈ (f a).keys, k ∈ (g a).keys := fun k hk => hsub.1.mem_keys hk
      cases hm : (g a).match? specifier with
      | none =>
          rw [hm] at h
          rw [choice?_cons_of_none (match?_eq_none_of_subset hm hkeys)]
          exact ih hsub.2 h hkept.2
      | some key =>
          rw [hm] at h
          obtain rfl := Option.some.inj h
          have hget := hkept.1 rfl
          rw [choice?_cons_of_match? (match?_of_subset hm hkeys (Dict.mem_keys_of_get? hget)),
            Dict.getD_of_get? hget]

/-- Tables that lose entries decide about no more specifiers. -/
theorem choice?_eq_none_of_sub {α : Type} {f g : α → Imports} {l : List α} {specifier : String}
    (hsub : ∀ a ∈ l, Sub (f a) (g a)) (h : choice? specifier (l.map g) = none) :
    choice? specifier (l.map f) = none := by
  rw [choice?_eq_none_iff] at h ⊢
  intro imports hmem
  obtain ⟨a, ha, rfl⟩ := List.mem_map.1 hmem
  exact match?_eq_none_of_subset (h (g a) (List.mem_map_of_mem ha)) fun k hk =>
    (hsub a ha).mem_keys hk

end Imports

namespace Resolver

variable {map part : ImportMap} {base : String} {relativeFallback : Bool} {r r' : Resolver}
  (h : make map base relativeFallback = .ok r) (hw : part.Within r)
  (h' : make part base relativeFallback = .ok r')

theorem tables_eq_map (r : Resolver) (parent : String) :
    r.tables parent = ((scopeMatches parent r.scopes.keys).map some ++ [none]).map
      fun a : Option String => (a.bind r.scopes.get?, a.elim r.map.imports r.scopeAt) := by
  rw [tables, List.map_append, List.map_map]
  refine congrArg (· ++ [(none, r.map.imports)]) (List.map_congr_left fun url hurl => ?_)
  obtain ⟨q, hq⟩ := Dict.mem_keys_iff.1 (mem_scopeMatches.1 hurl).2
  rw [Function.comp_apply, Option.bind_some, Option.elim_some, scopeAt, hq, Dict.getD_of_get? hq]
  rfl

/-- The first entry for a specifier is the one that its resolution goes through. -/
theorem entry?_of_resolve {specifier parent : String} {isEntry : Bool} {resolution : Resolution}
    {entry : MapEntry} (hbare : isBareSpecifier specifier = true)
    (h : r.resolve specifier parent isEntry = .ok resolution)
    (hfirst : firstEntry? specifier (r.tables parent) = some entry) :
    resolution.entry? = some entry := by
  rw [resolve, referenceUrl?_of_bare hbare] at h
  simp only [bind, Except.bind, hfirst, applyEntry] at h
  split at h
  · exact absurd h (by simp)
  · cases hu : mapUrl r.base entry.target with
    | error e => exact absurd h (by simp [hu])
    | ok url =>
        rw [hu] at h
        obtain rfl := Except.ok.inj h
        rfl

/-- A part of a map can be resolved through where the map can. -/
theorem exists_make_of_within (h : make map base relativeFallback = .ok r)
    (hw : part.Within r) : ∃ r', make part base relativeFallback = .ok r' := by
  refine exists_make_iff.2 fun q hq => ?_
  obtain ⟨url, hurl⟩ := hw.counts q hq
  exact ⟨url, (of_get?_scopes h hurl).2⟩

theorem sub_imports_of_within (hw : part.Within r)
    (h' : make part base relativeFallback = .ok r') :
    Imports.Sub r'.map.imports r.map.imports := by
  intro k v hv
  rw [map_of_make h'] at hv
  exact hw.has ⟨none, k, v⟩ hv

include h hw h'

/-- The scope at a URL is a scope that counts for the whole map, too. -/
theorem get?_scopes_of_within {url q : String} (hq : r'.scopes.get? url = some q) :
    r.scopes.get? url = some q := by
  obtain ⟨hmem, hurl⟩ := of_get?_scopes h' hq
  obtain ⟨url', hq'⟩ := hw.counts q hmem
  rw [(of_get?_scopes h hq').2, Except.ok.injEq] at hurl
  rwa [hurl] at hq'

theorem mem_keys_scopes_of_within {url : String} (hurl : url ∈ r'.scopes.keys) :
    url ∈ r.scopes.keys := by
  obtain ⟨q, hq⟩ := Dict.mem_keys_iff.1 hurl
  exact Dict.mem_keys_of_get? (get?_scopes_of_within h hw h' hq)

theorem sub_scopeAt_of_within (url : String) :
    Imports.Sub (r'.scopeAt url) (r.scopeAt url) := by
  intro k v hv
  rw [scopeAt] at hv ⊢
  cases hq : r'.scopes.get? url with
  | none =>
      rw [hq] at hv
      exact absurd hv (by simp)
  | some q =>
      rw [hq, map_of_make h'] at hv
      rw [get?_scopes_of_within h hw h' hq]
      exact hw.has ⟨some q, k, v⟩ hv

/-- Only the scope of a prefix holds the entries of the prefix. -/
theorem get?_scopeAt_of_has {url q k v : String} (hq : r.scopes.get? url = some q)
    (hhas : part.Has ⟨some q, k, v⟩) : (r'.scopeAt url).get? k = some v := by
  have hmem : q ∈ part.scopes.keys := by
    by_contra hnot
    replace hhas : ((part.scopes.get? q).getD ∅).get? k = some v := hhas
    rw [Dict.get?_eq_none_iff.2 hnot] at hhas
    exact absurd hhas (by simp)
  have hurl := (mem_keys_scopes_iff h').2 ⟨q, hmem, (of_get?_scopes h hq).2⟩
  obtain ⟨q', hq'⟩ := Dict.mem_keys_iff.1 hurl
  obtain rfl : q = q' := Option.some.inj (hq.symm.trans (get?_scopes_of_within h hw h' hq'))
  rw [scopeAt, hq', map_of_make h']
  exact hhas

/-- Every table of the part has its entries from the table of the whole map. -/
theorem sub_of_within (a : Option String) :
    Imports.Sub (a.elim r'.map.imports r'.scopeAt) (a.elim r.map.imports r.scopeAt) := by
  cases a with
  | none => exact sub_imports_of_within hw h'
  | some url => exact sub_scopeAt_of_within h hw h' url

/-- If the first entry for a specifier stays, it stays in the table that it comes from. -/
theorem get?_of_firstEntry?_has {a : Option String} {entry : MapEntry} {parent : String}
    (ha : a ∈ (scopeMatches parent r.scopes.keys).map some ++ [none])
    (hlabel : (a.bind r.scopes.get?) = entry.scope?) (hhas : part.Has entry) :
    (a.elim r'.map.imports r'.scopeAt).get? entry.key = some entry.target := by
  obtain ⟨scope?, key, target⟩ := entry
  cases a with
  | none =>
      obtain rfl : none = scope? := hlabel
      rw [Option.elim_none, map_of_make h']
      exact hhas
  | some url =>
      have hurl : url ∈ scopeMatches parent r.scopes.keys := by simpa using ha
      obtain ⟨q, hq⟩ := Dict.mem_keys_iff.1 (mem_scopeMatches.1 hurl).2
      obtain rfl : r.scopes.get? url = scope? := hlabel
      rw [hq] at hhas
      exact get?_scopeAt_of_has h hw h' hq hhas

/-- The entry that decides about a specifier is the same in the part, if it stays. -/
theorem choice?_chain_of_has {specifier parent : String}
    (hkept : ∀ entry, firstEntry? specifier (r.tables parent) = some entry → part.Has entry) :
    Imports.choice? specifier (r'.chain parent) = Imports.choice? specifier (r.chain parent) := by
  have hsub := fun a (_ : a ∈ (scopeMatches parent r.scopes.keys).map some ++ [none]) =>
    sub_of_within h hw h' a
  have hchain : r.chain parent = ((scopeMatches parent r.scopes.keys).map some ++ [none]).map
      fun a : Option String => a.elim r.map.imports r.scopeAt := by
    rw [chain, List.map_append, List.map_map]
    rfl
  have hchain' : r'.tablesAt (scopeMatches parent r.scopes.keys) =
      ((scopeMatches parent r.scopes.keys).map some ++ [none]).map
        fun a : Option String => a.elim r'.map.imports r'.scopeAt := by
    rw [tablesAt, List.map_append, List.map_map]
    rfl
  rw [choice?_chain fun url hurl => mem_keys_scopes_of_within h hw h' hurl, hchain']
  cases hfirst : firstEntry? specifier (r.tables parent) with
  | none =>
      have hnone : Imports.choice? specifier (r.chain parent) = none := by
        rw [← map_snd_tables, ← map_firstEntry?, hfirst, Option.map_none]
      rw [hnone]
      rw [hchain] at hnone
      exact Imports.choice?_eq_none_of_sub hsub hnone
  | some entry =>
      have hsome : Imports.choice? specifier (r.chain parent) =
          some (entry.key, entry.target) := by
        rw [← map_snd_tables, ← map_firstEntry?, hfirst, Option.map_some]
      rw [hsome]
      have hhas := hkept entry hfirst
      rw [tables_eq_map] at hfirst
      exact Imports.choice?_of_firstEntry? hsub hfirst fun a ha hlabel =>
        get?_of_firstEntry?_has h hw h' ha hlabel hhas

/-- **A specifier whose entry stays finds the same URL**, and so does one that needs no entry. -/
theorem url?_eq_of_has {specifier parent : String} {isEntry : Bool}
    {resolution : Resolution} (hres : r.resolve specifier parent isEntry = .ok resolution)
    (hkept : ∀ entry, resolution.entry? = some entry → part.Has entry) :
    r'.url? specifier parent isEntry = r.url? specifier parent isEntry := by
  cases hbare : isBareSpecifier specifier with
  | false => exact url?_of_not_bare hbare r r' parent isEntry
  | true =>
      have hchoice := choice?_chain_of_has h hw h' fun entry hfirst =>
        hkept entry (entry?_of_resolve hbare hres hfirst)
      rw [url?_of_bare hbare, url?_of_bare hbare, hchoice, base_of_make h', base_of_make h,
        relativeFallback_of_make h', relativeFallback_of_make h]

end Resolver

end ImportAtlas
