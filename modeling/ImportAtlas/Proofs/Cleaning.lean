import ImportAtlas.Proofs.Preservation
import ImportAtlas.Proofs.Redundancy

/-!
# When cleaning keeps what a map means

Cleaning asks of every entry of a scope whether its own specifier finds the same target without
it. An entry whose key is a folder also stands in front of longer keys further out, and these come
to light when it goes. So a clean map means the same exactly when, for every entry that goes and
for every longer key of the map in its folder, what comes to light is what the entry said.

## Main results

* `Resolver.exists_make_clean`: a clean map can be resolved through where the map can.
* `Resolver.sameUrls_clean_iff`: when a clean map finds the same URLs.
* `Resolver.clean_changes_url`: a map for which it does not.
-/

namespace ImportAtlas

namespace ImportMap

/-- A map has an entry for a specifier, at the top level or in a scope. -/
def Names (map : ImportMap) (specifier : String) : Prop :=
  specifier ∈ map.imports.keys ∨ ∃ scopePrefix, specifier ∈ (map.scope scopePrefix).keys

theorem mem_keys_scopes_of_clean {map : ImportMap} {scopePrefix : String}
    (h : scopePrefix ∈ map.clean.scopes.keys) : scopePrefix ∈ map.scopes.keys := by
  obtain ⟨entries, hget⟩ := Dict.mem_keys_iff.1 h
  rw [get?_scopes_clean] at hget
  cases hs : map.scopes.get? scopePrefix with
  | none => exact absurd hget (by simp [hs])
  | some entries => exact Dict.mem_keys_of_get? hs

/-- A scope that keeps an entry stays. -/
theorem mem_keys_scopes_clean {map : ImportMap} {scopePrefix k v : String}
    (h : (map.cleanScope scopePrefix (map.scope scopePrefix)).get? k = some v) :
    scopePrefix ∈ map.clean.scopes.keys := by
  rw [← get?_scope_clean, scope, Dict.getD_eq] at h
  by_contra hnot
  rw [Dict.get?_eq_none_iff.2 hnot] at h
  exact absurd h (by simp)

theorem names_of_mem_keys_scope_clean {map : ImportMap} {scopePrefix k : String}
    (h : k ∈ (map.clean.scope scopePrefix).keys) : map.Names k := by
  obtain ⟨v, hv⟩ := Dict.mem_keys_iff.1 h
  rw [get?_scope_clean] at hv
  exact Or.inr ⟨scopePrefix, Dict.mem_keys_of_get? (map.sub_cleanScope scopePrefix _ k v hv)⟩

/-- A map all of whose entries in scopes are redundant keeps its top level. -/
theorem clean_eq_of_forall_cleanScope_eq_empty {map : ImportMap}
    (himports : map.imports.entries.Pairwise fun a b => a.1 ≤ b.1)
    (hscopes : ∀ e ∈ map.scopes.entries, map.cleanScope e.1 e.2 = ∅) :
    map.clean = ⟨map.imports, ∅⟩ := by
  have hnone : (map.scopes.map map.cleanScope).filter (fun _ kept => !kept.isEmpty) = ∅ := by
    refine Dict.ext (List.filter_eq_nil_iff.2 fun e he => ?_)
    obtain ⟨e', he', rfl⟩ := List.mem_map.1 he
    rw [hscopes e' he']
    exact Bool.false_ne_true
  rw [clean, sorted, hnone, Dict.sorted_of_pairwise himports]
  exact congrArg (ImportMap.mk map.imports) (Dict.ext List.mergeSort_nil)

/-- A map with one scope, all of whose entries are redundant, keeps its top level. -/
theorem clean_eq_of_cleanScope_eq_empty {imports entries : Imports} {scopePrefix : String}
    (himports : imports.entries.Pairwise fun a b => a.1 ≤ b.1)
    (hscope : cleanScope ⟨imports, Dict.ofList [(scopePrefix, entries)]⟩ scopePrefix entries = ∅) :
    clean ⟨imports, Dict.ofList [(scopePrefix, entries)]⟩ = ⟨imports, ∅⟩ :=
  clean_eq_of_forall_cleanScope_eq_empty himports fun e he => by
    rw [List.mem_singleton.1 he]
    exact hscope

end ImportMap

namespace Resolver

variable {map : ImportMap} {base : String} {relativeFallback : Bool} {r r' : Resolver}

theorem names_of_mem_keys_scopeAt {url k : String} (hk : k ∈ (r.scopeAt url).keys) :
    r.map.Names k := by
  rw [scopeAt] at hk
  cases hq : r.scopes.get? url with
  | none => rw [hq] at hk; exact absurd hk List.not_mem_nil
  | some q => rw [hq] at hk; exact Or.inr ⟨q, hk⟩

/-- The keys in the tables that apply in a module are keys of the map. -/
theorem names_of_mem_keys_tablesAt {urls : List String} {imports : Imports} {k : String}
    (himports : imports ∈ r.tablesAt urls) (hk : k ∈ imports.keys) : r.map.Names k := by
  rcases List.mem_append.1 himports with hscope | htop
  · obtain ⟨url, -, rfl⟩ := List.mem_map.1 hscope
    exact names_of_mem_keys_scopeAt hk
  · rw [List.mem_singleton.1 htop] at hk
    exact Or.inl hk

/-- **A clean map can be resolved through where the map can.** -/
theorem exists_make_clean (h : make map base relativeFallback = .ok r) :
    ∃ r', make map.clean base relativeFallback = .ok r' :=
  exists_make_iff.2 fun q hq => exists_make_iff.1 ⟨r, h⟩ q (ImportMap.mem_keys_scopes_of_clean hq)

theorem narrows_clean (h : make map base relativeFallback = .ok r)
    (h' : make map.clean base relativeFallback = .ok r') : r'.Narrows r where
  base_eq := (base_of_make h').trans (base_of_make h).symm
  relativeFallback_eq := (relativeFallback_of_make h').trans (relativeFallback_of_make h).symm
  get?_imports k := by rw [map_of_make h', map_of_make h, ImportMap.get?_imports_clean]
  mem_scopes url hurl := by
    obtain ⟨q, hq, hmap⟩ := (mem_keys_scopes_iff h').1 hurl
    exact (mem_keys_scopes_iff h).2 ⟨q, ImportMap.mem_keys_scopes_of_clean hq, hmap⟩

/-- The scope at a URL is another one after cleaning: several prefixes denote the URL, and the one
that counted has lost its entries or its rank among them. -/
def TakenOver (r r' : Resolver) (url : String) : Prop :=
  ∃ q, r'.scopes.get? url = some q ∧ r.scopes.get? url ≠ some q

/-- The key that applies to a specifier in a scope goes when the scope is cleaned. -/
def Unmasked (r : Resolver) (scopePrefix specifier : String) : Prop :=
  ∃ key target, (r.map.scope scopePrefix).match? specifier = some key ∧
    (r.map.scope scopePrefix).get? key = some target ∧
    r.map.Redundant scopePrefix (r.map.cleanScope scopePrefix (r.map.scope scopePrefix)) key target

/-- Below every scope the specifiers of the map that lose their key find the same place as before
through what remains: the rest of the scope, the scopes around it, and the top level. -/
def CleansSafely (r r' : Resolver) : Prop :=
  ∀ url scopePrefix outer, r.scopes.get? url = some scopePrefix →
    scopeMatches url r.scopes.keys = url :: outer →
    ∀ specifier, isBareSpecifier specifier = true → r.map.Names specifier →
      TakenOver r r' url ∨ Unmasked r scopePrefix specifier → AgreesIn r r' url outer specifier

section Clean

variable (h : make map base relativeFallback = .ok r)
  (h' : make map.clean base relativeFallback = .ok r')
include h h'

/-- Unless another prefix takes over, the scope at a URL is the cleaned one. -/
theorem get?_scopeAt_clean {url q : String} (hq : r.scopes.get? url = some q)
    (hno : ¬ TakenOver r r' url) (k : String) :
    (r'.scopeAt url).get? k = (r.map.cleanScope q (r.map.scope q)).get? k := by
  rw [map_of_make h]
  cases hq' : r'.scopes.get? url with
  | some q' =>
      have heq : q' = q := by
        by_contra hne
        exact hno ⟨q', hq', by rw [hq]; exact fun he => hne (Option.some.inj he).symm⟩
      rw [scopeAt, hq', heq, map_of_make h']
      exact ImportMap.get?_scope_clean map q k
  | none =>
      rw [scopeAt, hq', Option.elim_none, Dict.get?_empty, eq_comm]
      cases hv : (map.cleanScope q (map.scope q)).get? k with
      | none => rfl
      | some v =>
          have hmem : url ∈ r'.scopes.keys := (mem_keys_scopes_iff h').2
            ⟨q, ImportMap.mem_keys_scopes_clean hv, (of_get?_scopes h hq).2⟩
          exact absurd hmem (Dict.get?_eq_none_iff.1 hq')

/-- A specifier that keeps its key in a scope is decided as before. -/
theorem agreesIn_of_not_unmasked {url q specifier : String} {outer : List String}
    (hq : r.scopes.get? url = some q) (hno : ¬ TakenOver r r' url)
    (hkept : ¬ Unmasked r q specifier) : AgreesIn r r' url outer specifier := by
  have hget := get?_scopeAt_clean h h' hq hno
  have hsub : ∀ k ∈ (r'.scopeAt url).keys, k ∈ (r.scopeAt url).keys := by
    intro k hk
    obtain ⟨v, hv⟩ := Dict.mem_keys_iff.1 hk
    rw [hget] at hv
    rw [scopeAt, hq]
    exact Dict.mem_keys_of_get? (r.map.sub_cleanScope q _ k v hv)
  refine Imports.AgreeAt.of_choice?_eq ?_ r.base
  cases hm : (r.scopeAt url).match? specifier with
  | none =>
      rw [Imports.choice?_cons_of_none hm,
        Imports.choice?_cons_of_none (Imports.match?_eq_none_of_subset hm hsub)]
  | some key =>
      have hscope : r.scopeAt url = r.map.scope q := by rw [scopeAt, hq]; rfl
      obtain ⟨target, ht⟩ := Dict.mem_keys_iff.1 (Imports.mem_keys_of_match? hm)
      have hclean : (r'.scopeAt url).get? key = some target := by
        rw [hget, ImportMap.get?_cleanScope_eq_some_iff, ← hscope]
        refine ⟨ht, fun hred => hkept ⟨key, target, ?_, ?_, ?_⟩⟩
        · rw [← hscope, hm]
        · rw [← hscope, ht]
        · rw [← hscope]
          exact hred
      rw [Imports.choice?_cons_of_match? hm, Imports.choice?_cons_of_match?
        (Imports.match?_of_subset hm hsub (Dict.mem_keys_of_get? hclean)),
        Dict.getD_of_get? ht, Dict.getD_of_get? hclean]

/-- The keys in the tables around a scope, before and after cleaning, are keys of the map. -/
theorem names_of_mem_keys (url : String) (outer : List String) {imports : Imports} {k : String}
    (himports : imports ∈ (r'.scopeAt url :: r.tablesAt outer) ++
      (r.scopeAt url :: r.tablesAt outer)) (hk : k ∈ imports.keys) : r.map.Names k := by
  rcases List.mem_append.1 himports with hmem | hmem <;> rcases List.mem_cons.1 hmem with rfl | hmem
  · rw [scopeAt] at hk
    cases hq : r'.scopes.get? url with
    | none => rw [hq] at hk; exact absurd hk (List.not_mem_nil)
    | some q =>
        rw [hq, map_of_make h'] at hk
        rw [map_of_make h]
        exact ImportMap.names_of_mem_keys_scope_clean hk
  · exact names_of_mem_keys_tablesAt hmem hk
  · exact names_of_mem_keys_scopeAt hk
  · exact names_of_mem_keys_tablesAt hmem hk

end Clean

/-- **When a clean map means the same.** A clean map finds the URL of every specifier in every
module exactly when the specifiers of the map that lose their key in a scope find the same place
through what remains. -/
theorem sameUrls_clean_iff (h : make map base relativeFallback = .ok r) :
    ∃ r', make map.clean base relativeFallback = .ok r' ∧
      (SameUrls r r' ↔ CleansSafely r r') := by
  obtain ⟨r', h'⟩ := exists_make_clean h
  refine ⟨r', h', ?_⟩
  rw [sameUrls_iff (narrows_clean h h')]
  constructor
  · intro hin url q outer _ hurl specifier hbare _ _
    exact hin url outer hurl specifier hbare
  · intro hsafe url outer hurl specifier hbare
    have hmem : url ∈ scopeMatches url r.scopes.keys := by rw [hurl]; exact List.mem_cons_self
    obtain ⟨q, hq⟩ := Dict.mem_keys_iff.1 (mem_scopeMatches.1 hmem).2
    refine Imports.agreeAt_of_keys fun l hl hcov => ?_
    by_cases hsuspect : TakenOver r r' url ∨ Unmasked r q l
    · have hl' : isBareSpecifier l = true := by rw [isBareSpecifier_eq_of_covers hcov, hbare]
      refine hsafe url q outer hq hurl l hl' ?_ hsuspect
      obtain ⟨imports, himports, hk⟩ := hl
      exact names_of_mem_keys h h' url outer himports hk
    · rw [not_or] at hsuspect
      exact agreesIn_of_not_unmasked h h' hq hsuspect.1 hsuspect.2

/-- A map whose scope says what the top level says anyway. -/
def coveredMap : ImportMap :=
  ⟨Dict.ofList [("a/", "./x/")], Dict.ofList [("./s/", Dict.ofList [("a/b", "./x/b")])]⟩

theorem clean_coveredMap : coveredMap.clean = ⟨coveredMap.imports, ∅⟩ := by
  refine ImportMap.clean_eq_of_cleanScope_eq_empty (by decide +kernel) ?_
  rw [ImportMap.cleanScope, ImportMap.keysByLength_of_pairwise (by decide)]
  decide +kernel

/-- The map in a folder. -/
def coveredResolver : Resolver :=
  ⟨coveredMap, "file:///p/", false, Dict.ofList [("file:///p/s/", "./s/")]⟩

theorem make_coveredMap : make coveredMap "file:///p/" false = .ok coveredResolver :=
  make_eq_ok_iff.2 ⟨_, eq_ok_of_toOption (by decide +kernel), rfl⟩

theorem make_clean_coveredMap :
    make coveredMap.clean "file:///p/" false =
      .ok ⟨⟨coveredMap.imports, ∅⟩, "file:///p/", false, ∅⟩ := by
  rw [clean_coveredMap]
  exact make_eq_ok_iff.2 ⟨[], rfl, rfl⟩

/-- The map without its scope finds the same URLs: the key of the scope has no longer keys in its
folder. -/
theorem sameUrls_clean_coveredMap :
    ∃ r', make coveredMap.clean "file:///p/" false = .ok r' ∧ SameUrls coveredResolver r' := by
  obtain ⟨r', h', hiff⟩ := sameUrls_clean_iff make_coveredMap
  refine ⟨r', h', hiff.2 fun url scopePrefix outer hq hurl specifier _ hnames _ => ?_⟩
  rw [make_clean_coveredMap] at h'
  obtain rfl := Except.ok.inj h'
  obtain ⟨rfl, -⟩ := Prod.mk.inj (List.mem_singleton.1 (Dict.mem_of_get?_ofList hq))
  have hmatches : scopeMatches "file:///p/s/" ["file:///p/s/"] = ["file:///p/s/"] := by
    decide +kernel
  obtain rfl : [] = outer := (List.cons.inj (hmatches.symm.trans hurl)).2
  have hl : specifier = "a/" ∨ specifier = "a/b" := by
    rcases hnames with hk | ⟨q, hk⟩
    · exact Or.inl (List.mem_singleton.1 hk)
    · obtain ⟨v, hv⟩ := Dict.mem_keys_iff.1 hk
      cases hs : coveredResolver.map.scopes.get? q with
      | none => rw [ImportMap.scope, Dict.getD_eq, hs] at hv; exact absurd hv (by simp)
      | some entries =>
          obtain ⟨-, rfl⟩ := Prod.mk.inj (List.mem_singleton.1 (Dict.mem_of_get?_ofList hs))
          rw [ImportMap.scope, Dict.getD_eq, hs] at hv
          exact Or.inr (Prod.mk.inj (List.mem_singleton.1 (Dict.mem_of_get?_ofList hv))).1
  rcases hl with rfl | rfl
  · exact Imports.AgreeAt.of_choice?_eq (by decide +kernel) _
  · refine ⟨?_, by decide +kernel⟩
    exact (eq_ok_of_toOption (a := some "file:///p/x/b") (by decide +kernel)).trans
      (eq_ok_of_toOption (by decide +kernel)).symm

/-- A map with a folder in a scope, a longer key in that folder at the top level, and a different
target for it. -/
def maskingMap : ImportMap :=
  ⟨Dict.ofList [("d/", "./x/"), ("d/e", "./y")],
    Dict.ofList [("./s/", Dict.ofList [("d/", "./x/")])]⟩

theorem clean_maskingMap : maskingMap.clean = ⟨maskingMap.imports, ∅⟩ := by
  refine ImportMap.clean_eq_of_cleanScope_eq_empty (by decide +kernel) ?_
  rw [ImportMap.cleanScope, ImportMap.keysByLength_of_pairwise (by decide)]
  decide +kernel

/-- **Cleaning may change a URL**: the folder of the scope goes, and the longer key at the top level
comes to light. -/
theorem clean_changes_url :
    ((make maskingMap "file:///p/" false).bind fun r => r.url? "d/e" "file:///p/s/m.js" false) =
        .ok (some "file:///p/x/e") ∧
      ((make maskingMap.clean "file:///p/" false).bind fun r =>
        r.url? "d/e" "file:///p/s/m.js" false) = .ok (some "file:///p/y") := by
  rw [clean_maskingMap]
  exact ⟨eq_ok_of_toOption (by decide +kernel), eq_ok_of_toOption (by decide +kernel)⟩

end Resolver

end ImportAtlas
