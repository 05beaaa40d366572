import ImportAtlas.Proofs.NamedParts
import ImportAtlas.Proofs.Products
import ImportAtlas.Proofs.Rearranging

/-!
# Maps that are extended

Extending merges the scopes of two maps by the text of their prefixes, the entries of the patch
winning, and cleans the result. Two things can still come between an entry and a module in the
directory of its scope: another prefix for the same directory, of which the greatest text stands
for it; and cleaning, which drops an entry that something else seems to repeat. What decides then
may lead elsewhere.

## Summary

* `ImportMap.merge` is what is cleaned when a map is extended.
* `ImportMap.StandsFor` says which prefix a resolver asks for a directory.
* `ImportMap.Promised` are the entries that an extended map should resolve through in the
  directories of their scopes.
* `ImportMap.Intact` and `Resolver.Replaced` say what becomes of them.
* `ImportMap.Unrivaled` are entries that nothing can come between.

## Main results

* `ImportMap.get?_scope_merge`: the scopes of merged maps, read entry by entry.
* `ImportMap.get?_scopes_clean_iff`: which prefix counts at a URL.
* `ImportMap.extend_gives_promised_iff`: which promised entries are found.
* `ImportMap.extend_breaks_promises`: some are not.
-/

namespace ImportAtlas

namespace Dict

theorem get?_insertAll {α β : Type} [DecidableEq α] (d e : Dict α β) (k : α) :
    (d.insertAll e).get? k = (e.get? k).or (d.get? k) := by
  have hentries := get?_ofList e.entries k
  rw [ofList_entries] at hentries
  rw [insertAll, get?_insertMany, hentries]

end Dict

/-! ### Modules directly in a directory -/

/-- The scopes around a module in a directory are those around the directory. -/
theorem scopeMatches_append_name {name : String} (hname : '/' ∉ name.toList) (folder : String)
    (scopes : List String) : scopeMatches (folder ++ name) scopes = scopeMatches folder scopes := by
  have hnil : slashPrefixes name.toList = [] := by
    refine List.eq_nil_iff_forall_not_mem.2 fun p hp => ?_
    obtain ⟨hfront, hlast⟩ := mem_slashPrefixes.1 hp
    exact hname (hfront.subset (List.mem_of_getLast? hlast))
  rw [scopeMatches, scopeMatches, String.toList_append, slashPrefixes_append, hnil, List.map_nil,
    List.nil_append]

/-- A directory that is a scope is the innermost one around itself. -/
theorem exists_scopeMatches_eq_cons {folder : String} {scopes : List String}
    (hslash : Target.endsInSlash folder = true) (hmem : folder ∈ scopes) :
    ∃ outer, scopeMatches folder scopes = folder :: outer := by
  obtain ⟨before, after, hsplit⟩ := List.append_of_mem
    (mem_scopeMatches.2 ⟨⟨hslash, List.prefix_rfl⟩, hmem⟩)
  exact ⟨after, scopeMatches_eq_cons_of_append hsplit⟩

namespace Resolver

variable {map : ImportMap} {base : String} {relativeFallback : Bool} {r : Resolver}

theorem tables_append_name {name : String} (hname : '/' ∉ name.toList) (folder : String) :
    r.tables (folder ++ name) = r.tables folder := by
  rw [tables, tables, scopeMatches_append_name hname]

/-- The URL of a bare specifier that a module names. -/
theorem url?_eq_landing {specifier : String} (h : isBareSpecifier specifier = true) (r : Resolver)
    (parent : String) :
    r.url? specifier parent false = Imports.landing r.base specifier
      (( firstEntry? specifier (r.tables parent)).map fun entry => (entry.key, entry.target)) := by
  rw [url?_of_bare h, Bool.false_and, Bool.and_false, if_neg Bool.false_ne_true, map_firstEntry?,
    map_snd_tables]

/-- The notes of a resolver, in the order of the prefixes. -/
theorem notes_eq {keys : List String} {notes : List (String × String)}
    (h : keys.mapM (noteScope base) = .ok notes) :
    notes = keys.map fun q => (((mapUrl base q).toOption.getD ""), q) := by
  induction keys generalizing notes with
  | nil => exact (Except.ok.inj h).symm
  | cons q keys ih =>
      rw [List.mapM_cons] at h
      obtain ⟨note, hnote, h⟩ := exists_of_bind_eq_ok h
      obtain ⟨rest, hrest, h⟩ := exists_of_bind_eq_ok h
      obtain rfl := Except.ok.inj h
      obtain ⟨hurl, hq⟩ := noteScope_eq_ok_iff.1 hnote
      rw [List.map_cons, ← ih hrest, hurl]
      exact congrArg (· :: rest) (Prod.ext rfl hq)

/-- **Which prefix counts at a URL**: the last one that denotes it. -/
theorem get?_scopes_eq_some_iff (h : make map base relativeFallback = .ok r) {url q : String} :
    r.scopes.get? url = some q ↔ mapUrl base q = .ok url ∧
      ∃ before after, map.scopes.keys = before ++ q :: after ∧
        ∀ later ∈ after, mapUrl base later ≠ .ok url := by
  obtain ⟨notes, hnotes, rfl⟩ := make_eq_ok_iff.1 h
  have hurl : ∀ q ∈ map.scopes.keys, ∀ url,
      (mapUrl base q).toOption.getD "" = url ↔ mapUrl base q = .ok url := by
    intro q hq url
    obtain ⟨url', hurl'⟩ := exists_make_iff.1 ⟨_, h⟩ q hq
    rw [hurl', Except.ok.injEq]
    rfl
  rw [show Dict.get? (Dict.ofList notes) url = some q ↔ _ from
    notes_eq hnotes ▸ Dict.get?_ofList_map_eq_some_iff]
  constructor
  · rintro ⟨⟨before, after, hkeys, hafter⟩, hq⟩
    have hmem : q ∈ map.scopes.keys := by rw [hkeys]; simp
    refine ⟨(hurl q hmem url).1 hq, before, after, hkeys, fun later hlater heq => ?_⟩
    have hlaterMem : later ∈ map.scopes.keys := by rw [hkeys]; simp [hlater]
    exact hafter later hlater (((hurl later hlaterMem url).2 heq).trans hq.symm)
  · rintro ⟨hq, before, after, hkeys, hafter⟩
    have hmem : q ∈ map.scopes.keys := by rw [hkeys]; simp
    refine ⟨⟨before, after, hkeys, fun later hlater heq => ?_⟩, (hurl q hmem url).2 hq⟩
    have hlaterMem : later ∈ map.scopes.keys := by rw [hkeys]; simp [hlater]
    exact hafter later hlater ((hurl later hlaterMem url).1
      (heq.trans ((hurl q hmem url).2 hq)))

end Resolver

namespace ImportMap

variable {map base patch : ImportMap} {url folder q k t : String} {relativeFallback : Bool}
  {r : Resolver}

/-! ### Merging two maps -/

/-- Two maps in one, scopes entry by entry. The entries of `patch` win. -/
def merge (base patch : ImportMap) : ImportMap where
  imports := base.imports.insertAll patch.imports
  scopes := patch.scopes.entries.foldl (fun scopes (scopePrefix, entries) =>
    scopes.insert scopePrefix ((scopes.getD scopePrefix ∅).insertAll entries)) base.scopes

/-- A map that is extended is merged with the patch, and cleaned. -/
theorem extend_eq (base patch : ImportMap) : base.extend patch = (base.merge patch).clean := rfl

theorem mem_keys_merge (h : q ∈ (base.merge patch).scopes.keys) :
    q ∈ base.scopes.keys ∨ q ∈ patch.scopes.keys := mem_keys_insertScopes h

theorem get?_insertScopes {added : List (String × Imports)} (h : (added.map Prod.fst).Nodup)
    (scopes : Dict String Imports) (q k : String) :
    ((added.foldl (fun scopes (scopePrefix, entries) =>
        scopes.insert scopePrefix ((scopes.getD scopePrefix ∅).insertAll entries))
          scopes).getD q ∅).get? k =
      ((added.lookup q).bind fun entries => entries.get? k).or ((scopes.getD q ∅).get? k) := by
  induction added generalizing scopes with
  | nil => rfl
  | cons scope added ih =>
      obtain ⟨p, entries⟩ := scope
      obtain ⟨hp, hadded⟩ := List.nodup_cons.1 h
      rw [List.foldl_cons, ih hadded, List.lookup_cons]
      by_cases hq : q = p
      · subst hq
        have hnone : added.lookup q = none := List.lookup_eq_none_iff.2 fun e he =>
          bne_iff_ne.2 fun heq => hp (List.mem_map.2 ⟨e, he, heq.symm⟩)
        rw [hnone, beq_self_eq_true, Option.bind_none, Option.none_or, Option.bind_some,
          Dict.getD_eq, Dict.get?_insert, if_pos rfl, Option.getD_some, Dict.get?_insertAll]
      · rw [beq_eq_false_iff_ne.2 hq, Dict.getD_eq, Dict.get?_insert, if_neg hq, ← Dict.getD_eq]

/-- **The scopes of merged maps, read entry by entry.** -/
theorem get?_scope_merge (base patch : ImportMap) (q k : String) :
    ((base.merge patch).scope q).get? k =
      ((patch.scope q).get? k).or ((base.scope q).get? k) := by
  have hpatch : (patch.scope q).get? k =
      (patch.scopes.entries.lookup q).bind fun entries => entries.get? k := by
    show ((patch.scopes.entries.lookup q).getD ∅).get? k = _
    cases patch.scopes.entries.lookup q <;> rfl
  rw [hpatch]
  exact get?_insertScopes patch.scopes.nodup_keys base.scopes q k

/-! ### The prefix that stands for a directory -/

/-- A prefix that stands for a directory once a map is cleaned: the greatest text of the prefixes
that keep an entry and denote it. -/
def StandsFor (map : ImportMap) (url folder q : String) : Prop :=
  q ∈ map.clean.scopes.keys ∧ mapUrl url q = .ok folder ∧
    ∀ q' ∈ map.clean.scopes.keys, mapUrl url q' = .ok folder → q' ≤ q

/-- **Which prefix counts at a URL in a clean map**: the prefixes are in increasing order, and the
last one counts. -/
theorem get?_scopes_clean_iff (h : Resolver.make map.clean url relativeFallback = .ok r) :
    r.scopes.get? folder = some q ↔ map.StandsFor url folder q := by
  have hsorted : map.clean.scopes.keys.Pairwise (· < ·) := Dict.pairwise_keys_sorted _
  rw [Resolver.get?_scopes_eq_some_iff h]
  constructor
  · rintro ⟨hq, before, after, hkeys, hafter⟩
    refine ⟨by rw [hkeys]; simp, hq, fun q' hq' hurl => ?_⟩
    rw [hkeys] at hq' hsorted
    rcases List.mem_append.1 hq' with hbefore | hrest
    · exact ((List.pairwise_append.1 hsorted).2.2 q' hbefore q List.mem_cons_self).le
    · rcases List.mem_cons.1 hrest with rfl | hlater
      · exact le_rfl
      · exact absurd hurl (hafter q' hlater)
  · rintro ⟨hmem, hq, hgreatest⟩
    obtain ⟨before, after, hkeys⟩ := List.append_of_mem hmem
    refine ⟨hq, before, after, hkeys, fun later hlater hurl => ?_⟩
    have hle := hgreatest later (by rw [hkeys]; simp [hlater]) hurl
    rw [hkeys] at hsorted
    have hlt := (List.pairwise_cons.1 (List.pairwise_append.1 hsorted).2.1).1 later hlater
    exact absurd hle hlt.not_ge

/-! ### Entries in the directories of their scopes -/

/-- An entry of a map that cleaning leaves in front of the modules in the directory of its scope:
its prefix stands for the directory, and it is not redundant in what is left of the scope. -/
structure Intact (map : ImportMap) (url folder q k t : String) : Prop where
  stands : map.StandsFor url folder q
  slash : Target.endsInSlash folder = true
  kept : ¬ map.Redundant q (map.kept q) k t

theorem get?_scope_clean_eq_some_iff (hk : (map.scope q).get? k = some t) :
    (map.clean.scope q).get? k = some t ↔ ¬ map.Redundant q (map.kept q) k t := by
  rw [get?_scope_clean, get?_cleanScope_eq_some_iff, and_iff_right hk, kept]

/-- **An intact entry decides in the directory of its scope.** -/
theorem Intact.firstEntry? (h : map.Intact url folder q k t)
    (hr : Resolver.make map.clean url relativeFallback = .ok r)
    (hk : (map.scope q).get? k = some t) :
    Resolver.firstEntry? k (r.tables folder) = some ⟨some q, k, t⟩ := by
  have hq := (get?_scopes_clean_iff hr).2 h.stands
  obtain ⟨outer, houter⟩ := exists_scopeMatches_eq_cons h.slash (Dict.mem_keys_of_get? hq)
  have ht : (r.map.scope q).get? k = some t := by
    rw [Resolver.map_of_make hr]
    exact (get?_scope_clean_eq_some_iff hk).2 h.kept
  have hmatch : (r.map.scope q).match? k = some k := by
    rw [Imports.match?, if_pos (Dict.contains_iff.2 ⟨t, ht⟩)]
  rw [Resolver.tables, houter, List.map_cons, List.cons_append]
  simp only [Dict.getD_of_get? hq, Resolver.firstEntry?, hmatch, Dict.getD_of_get? ht]

/-- An entry that decides in the directory of its scope is intact. -/
theorem intact_of_decides {entry : MapEntry}
    (hr : Resolver.make map.clean url relativeFallback = .ok r)
    (hfolder : mapUrl url q = .ok folder) (hk : (map.scope q).get? k = some t)
    (hentry : Resolver.firstEntry? k (r.tables folder) = some entry)
    (hscope : entry.scope? = some q) (hkey : entry.key = k) : map.Intact url folder q k t := by
  obtain ⟨imports, hmem, hget⟩ := Resolver.mem_of_firstEntry? hentry
  rw [hscope, hkey] at *
  rcases List.mem_append.1 hmem with htable | htop
  · obtain ⟨place, hplace, heq⟩ := List.mem_map.1 htable
    obtain ⟨⟨hslash, -⟩, hknown⟩ := mem_scopeMatches.1 hplace
    obtain ⟨q', hq'⟩ := Dict.mem_keys_iff.1 hknown
    obtain ⟨hscope', rfl⟩ := Prod.mk.inj heq
    rw [Dict.getD_of_get? hq'] at hscope' hget
    obtain rfl := Option.some.inj hscope'
    obtain rfl : place = folder :=
      Except.ok.inj ((Resolver.of_get?_scopes hr hq').2.symm.trans hfolder)
    refine ⟨(get?_scopes_clean_iff hr).1 hq', hslash, (get?_scope_clean_eq_some_iff hk).1 ?_⟩
    rw [Resolver.map_of_make hr] at hget
    rw [hget, ← hk, eq_comm]
    rw [get?_scope_clean] at hget
    exact map.sub_cleanScope q' _ k _ hget
  · exact absurd (Prod.mk.inj (List.mem_singleton.1 htop)).1 (by simp)

/-- **An entry that another one repeats is missed**: an entry of which no other gives its key a
target of the same form is not redundant. -/
theorem not_redundant_of_unrepeated
    (htop : ∀ e ∈ map.imports.entries, Covers e.1 k → ¬ Repeats k t e)
    (hscopes : ∀ scope ∈ map.scopes.entries, ∀ e ∈ scope.2.entries,
      ¬ (scope.1 = q ∧ e.1 = k) → Covers e.1 k → ¬ Repeats k t e) :
    ¬ map.Redundant q (map.kept q) k t := by
  have hentry : ∀ {p key target}, (map.scope p).get? key = some target → ¬ (p = q ∧ key = k) →
      Covers key k → ¬ Repeats k t (key, target) := by
    intro p key target hget hother hcov
    rw [scope, Dict.getD_eq] at hget
    cases hp : map.scopes.get? p with
    | none =>
        rw [hp] at hget
        exact absurd hget (by simp)
    | some entries =>
        rw [hp] at hget
        exact hscopes (p, entries) (Dict.get?_eq_some_iff.1 hp) (key, target)
          (Dict.get?_eq_some_iff.1 hget) hother hcov
  rw [redundant_iff_repeats]
  rintro ⟨-, ⟨key, target⟩, hdeciding, hrepeats⟩
  obtain ⟨imports, hmem, hget, hmatch⟩ := Imports.exists_of_choice? hdeciding
  have hcov := Imports.covers_of_match? hmatch
  rw [tables, enclosing_eq_map] at hmem
  rcases List.mem_cons.1 hmem with rfl | hmem
  · rw [Dict.get?_erase, Option.ite_none_left_eq_some] at hget
    exact hentry (map.sub_cleanScope q _ key target hget.2) (fun h => hget.1 h.2) hcov hrepeats
  · rcases List.mem_append.1 hmem with hmem | hmem
    · obtain ⟨p, hp, rfl⟩ := List.mem_map.1 hmem
      refine hentry hget (fun h => ?_) hcov hrepeats
      exact (((map.around_enclosingScopes q).mem_iff p).1 hp).2.2.2 (congrArg _ h.1)
    · rw [List.mem_singleton.1 hmem] at hget
      exact htop (key, target) (Dict.get?_eq_some_iff.1 hget) hcov hrepeats

/-- An entry that nothing can come between and the modules in the directory of its scope: no other
prefix denotes the directory, and no other entry gives its key a target of the same form. -/
structure Unrivaled (map : ImportMap) (url folder q k t : String) : Prop where
  denotes : mapUrl url q = .ok folder
  slash : Target.endsInSlash folder = true
  sole : ∀ q' ∈ map.scopes.keys, mapUrl url q' = .ok folder → q' = q
  top_level : ∀ e ∈ map.imports.entries, Covers e.1 k → ¬ Repeats k t e
  scopes : ∀ scope ∈ map.scopes.entries, ∀ e ∈ scope.2.entries,
    ¬ (scope.1 = q ∧ e.1 = k) → Covers e.1 k → ¬ Repeats k t e

instance (map : ImportMap) (url folder q k t : String) :
    Decidable (map.Unrivaled url folder q k t) :=
  decidable_of_iff ((mapUrl url q).toOption = some folder ∧ Target.endsInSlash folder = true ∧
      (∀ q' ∈ map.scopes.keys, (mapUrl url q').toOption = some folder → q' = q) ∧
      (∀ e ∈ map.imports.entries, Covers e.1 k → ¬ Repeats k t e) ∧
      ∀ scope ∈ map.scopes.entries, ∀ e ∈ scope.2.entries,
        ¬ (scope.1 = q ∧ e.1 = k) → Covers e.1 k → ¬ Repeats k t e)
    ⟨fun ⟨hdenotes, hslash, honly, htop, hscopes⟩ =>
        ⟨Resolver.eq_ok_of_toOption hdenotes, hslash,
          fun q' hq' hurl => honly q' hq' (by rw [hurl]; rfl), htop, hscopes⟩,
      fun h => ⟨by rw [h.denotes]; rfl, h.slash,
        fun q' hq' hurl => h.sole q' hq' (Resolver.eq_ok_of_toOption hurl), h.top_level,
          h.scopes⟩⟩

theorem Unrivaled.intact (h : map.Unrivaled url folder q k t)
    (hk : (map.scope q).get? k = some t) : map.Intact url folder q k t := by
  have hkept := not_redundant_of_unrepeated h.top_level h.scopes
  refine ⟨⟨?_, h.denotes, fun q' hq' hurl => ?_⟩, h.slash, hkept⟩
  · exact mem_keys_scopes_clean (get?_cleanScope_eq_some_iff.2 ⟨hk, hkept⟩)
  · rw [h.sole q' (mem_keys_scopes_of_clean hq') hurl]

/-! ### What becomes of promised entries -/

/-- The entries that a map extended by a patch should resolve through in the directories of their
scopes: the last one of the patch for its key in the directory, and one of the map if the patch has
none for its key there and the map has no other prefix for the directory. -/
inductive Promised (base patch : ImportMap) (url folder q k t : String) : Prop
  | patched (before after : List String) (keys_eq : patch.scopes.keys = before ++ q :: after)
      (denotes : mapUrl url q = .ok folder) (has : (patch.scope q).get? k = some t)
      (last : ∀ later ∈ after, mapUrl url later = .ok folder →
        (patch.scope later).get? k = none)
  | retained (denotes : mapUrl url q = .ok folder) (has : (base.scope q).get? k = some t)
      (unpatched : ∀ q' ∈ patch.scopes.keys, mapUrl url q' = .ok folder →
        (patch.scope q').get? k = none)
      (sole : ∀ q' ∈ base.scopes.keys, mapUrl url q' = .ok folder → q' = q)

theorem Promised.denotes (h : Promised base patch url folder q k t) :
    mapUrl url q = .ok folder := by
  cases h with
  | patched _ _ _ denotes => exact denotes
  | retained denotes => exact denotes

/-- Promised entries are merged. -/
theorem Promised.get?_scope (h : Promised base patch url folder q k t) :
    ((base.merge patch).scope q).get? k = some t := by
  rw [get?_scope_merge]
  cases h with
  | patched _ _ _ _ has => rw [has, Option.some_or]
  | retained denotes has unpatched =>
      have hnone : (patch.scope q).get? k = none := by
        by_cases hq : q ∈ patch.scopes.keys
        · exact unpatched q hq denotes
        · rw [scope_of_not_mem_keys hq]
          rfl
      rw [hnone, Option.none_or, has]

/-- A map extended by a patch can be resolved through where both of them can. -/
theorem exists_make_extend (hbase : ∃ r, Resolver.make base url relativeFallback = .ok r)
    (hpatch : ∃ r, Resolver.make patch url relativeFallback = .ok r) :
    ∃ r, Resolver.make (base.extend patch) url relativeFallback = .ok r := by
  rw [Resolver.exists_make_iff] at *
  intro q hq
  rcases mem_keys_merge (mem_keys_scopes_of_clean hq) with hmem | hmem
  · exact hbase q hmem
  · exact hpatch q hmem

end ImportMap

/-- In a directory another entry than the one for a key in a scope decides about the key, and it
leads where the target of that one is. -/
def Resolver.Replaced (r : Resolver) (folder q k t : String) : Prop :=
  ∃ entry, firstEntry? k (r.tables folder) = some entry ∧
    ¬ (entry.scope? = some q ∧ entry.key = k) ∧
      Imports.landing r.base k (some (entry.key, entry.target)) = (mapUrl r.base t).map some

namespace ImportMap

variable {base patch : ImportMap} {url folder q k t : String} {relativeFallback : Bool}
  {r : Resolver}

/-- **When a promised entry is found** by a module directly in the directory of its scope. -/
theorem Promised.url?_eq_iff {name : String} (h : Promised base patch url folder q k t)
    (hr : Resolver.make (base.extend patch) url relativeFallback = .ok r)
    (hbare : isBareSpecifier k = true) (hname : '/' ∉ name.toList) :
    r.url? k (folder ++ name) false = (mapUrl url t).map some ↔
      (base.merge patch).Intact url folder q k t ∨ r.Replaced folder q k t := by
  rw [Resolver.url?_eq_landing hbare, Resolver.tables_append_name hname, Resolver.Replaced,
    Resolver.base_of_make hr]
  constructor
  · intro hurl
    cases hentry : Resolver.firstEntry? k (r.tables folder) with
    | none =>
        rw [hentry] at hurl
        exact absurd ((Imports.landing_self url k t).trans hurl.symm)
          (Imports.landing_self_ne_none url k t)
    | some entry =>
        rw [hentry] at hurl
        by_cases hown : entry.scope? = some q ∧ entry.key = k
        · exact Or.inl (intact_of_decides hr h.denotes h.get?_scope hentry hown.1 hown.2)
        · exact Or.inr ⟨entry, rfl, hown, hurl⟩
  · rintro (hintact | ⟨entry, hentry, -, hlanding⟩)
    · rw [hintact.firstEntry? hr h.get?_scope]
      exact Imports.landing_self url k t
    · rw [hentry]
      exact hlanding

/-- **Which promised entries are found.** If two maps can be resolved through, so can the one
extended by the other. A module directly in the directory of a scope finds the target of a promised
entry exactly when the entry is intact, or another one decides and leads to the same place. So it
finds those that nothing can come between. -/
theorem extend_gives_promised_iff
    (hbase : ∃ r, Resolver.make base url relativeFallback = .ok r)
    (hpatch : ∃ r, Resolver.make patch url relativeFallback = .ok r) :
    ∃ r, Resolver.make (base.extend patch) url relativeFallback = .ok r ∧
      ∀ folder q k t name, Promised base patch url folder q k t → isBareSpecifier k = true →
        '/' ∉ name.toList →
          (r.url? k (folder ++ name) false = (mapUrl url t).map some ↔
            (base.merge patch).Intact url folder q k t ∨ r.Replaced folder q k t) ∧
          ((base.merge patch).Unrivaled url folder q k t →
            r.url? k (folder ++ name) false = (mapUrl url t).map some) := by
  obtain ⟨r, hr⟩ := exists_make_extend hbase hpatch
  refine ⟨r, hr, fun folder q k t name hpromised hbare hname => ?_⟩
  have hiff := hpromised.url?_eq_iff hr hbare hname
  exact ⟨hiff, fun h => hiff.2 (Or.inl (h.intact hpromised.get?_scope))⟩

theorem exists_make_of_isSome {map : ImportMap}
    (h : ∀ q ∈ map.scopes.keys, (mapUrl url q).toOption.isSome = true) :
    ∃ r, Resolver.make map url relativeFallback = .ok r := by
  refine Resolver.exists_make_iff.2 fun q hq => ?_
  obtain ⟨place, hplace⟩ := Option.isSome_iff_exists.1 (h q hq)
  exact ⟨place, Resolver.eq_ok_of_toOption hplace⟩

/-- A map whose scope has two entries. -/
def layeredMap : ImportMap :=
  ⟨Dict.ofList [("a", "./a.js")],
    Dict.ofList [("./s/", Dict.ofList [("x", "./x1.js"), ("y", "./y.js")])]⟩

/-- A patch that has another target for one of them, and a scope of its own. -/
def layeredPatch : ImportMap :=
  ⟨∅, Dict.ofList [("./s/", Dict.ofList [("x", "./x2.js")]),
    ("./t/", Dict.ofList [("z", "./z.js")])]⟩

/-- A map whose scope says otherwise than its top level. -/
def dissentingMap : ImportMap :=
  ⟨Dict.ofList [("a", "./x.js")], Dict.ofList [("./s/", Dict.ofList [("a", "./y.js")])]⟩

/-- A patch that makes the scope say the same. -/
def consentingPatch : ImportMap := ⟨∅, Dict.ofList [("./s/", Dict.ofList [("a", "./x.js")])]⟩

theorem extend_consentingPatch :
    dissentingMap.extend consentingPatch = ⟨dissentingMap.imports, ∅⟩ := by
  have hmerge : dissentingMap.merge consentingPatch =
      ⟨dissentingMap.imports, consentingPatch.scopes⟩ := rfl
  rw [extend_eq, hmerge]
  refine clean_eq_of_cleanScope_eq_empty (by decide +kernel) ?_
  rw [cleanScope, keysByLength_of_pairwise (by decide)]
  decide +kernel

/-- The patch wins, and what it leaves alone stays; an entry that the patch gives may go if the top
level repeats it. -/
theorem extend_gives_promised_iff_layeredMap :
    (∃ r, Resolver.make (layeredMap.extend layeredPatch) "file:///p/" false = .ok r ∧
      r.url? "x" "file:///p/s/m.js" false = .ok (some "file:///p/x2.js") ∧
      r.url? "y" "file:///p/s/m.js" false = .ok (some "file:///p/y.js")) ∧
    ∃ r, Resolver.make (dissentingMap.extend consentingPatch) "file:///p/" false = .ok r ∧
      r.Replaced "file:///p/s/" "./s/" "a" "./x.js" ∧
      r.url? "a" "file:///p/s/m.js" false = .ok (some "file:///p/x.js") := by
  have hplace : mapUrl "file:///p/" "./s/" = .ok "file:///p/s/" :=
    Resolver.eq_ok_of_toOption (by decide +kernel)
  constructor
  · obtain ⟨r, hr, hgives⟩ := @extend_gives_promised_iff layeredMap layeredPatch "file:///p/" false
      (exists_make_of_isSome (by decide +kernel)) (exists_make_of_isSome (by decide +kernel))
    have hx : Promised layeredMap layeredPatch "file:///p/" "file:///p/s/" "./s/" "x" "./x2.js" :=
      .patched [] ["./t/"] rfl hplace (by decide +kernel) fun later hlater _ => by
        rw [List.mem_singleton.1 hlater]
        decide +kernel
    have hnone : ∀ q' ∈ layeredPatch.scopes.keys, (layeredPatch.scope q').get? "y" = none := by
      decide +kernel
    have hy : Promised layeredMap layeredPatch "file:///p/" "file:///p/s/" "./s/" "y" "./y.js" :=
      .retained hplace (by decide +kernel) (fun q' hq' _ => hnone q' hq') fun q' hq' _ =>
        List.mem_singleton.1 hq'
    refine ⟨r, hr, ?_, ?_⟩
    · exact ((hgives _ _ _ _ "m.js" hx (by decide) (by decide)).2 (by decide +kernel)).trans
        (Resolver.eq_ok_of_toOption (by decide +kernel))
    · exact ((hgives _ _ _ _ "m.js" hy (by decide) (by decide)).2 (by decide +kernel)).trans
        (Resolver.eq_ok_of_toOption (by decide +kernel))
  · obtain ⟨r, hr, hgives⟩ := @extend_gives_promised_iff dissentingMap consentingPatch "file:///p/"
      false (exists_make_of_isSome (by decide +kernel)) (exists_make_of_isSome (by decide +kernel))
    have ha : Promised dissentingMap consentingPatch "file:///p/" "file:///p/s/" "./s/" "a"
        "./x.js" :=
      .patched [] [] rfl hplace (by decide +kernel) fun _ hlater _ => absurd hlater List.not_mem_nil
    have hreplaced : r.Replaced "file:///p/s/" "./s/" "a" "./x.js" := by
      have hr' := hr
      rw [extend_consentingPatch] at hr'
      obtain rfl := Except.ok.inj ((Resolver.make_eq_ok_iff.2 ⟨[], rfl, rfl⟩).symm.trans hr')
      exact ⟨⟨none, "a", "./x.js"⟩, by decide +kernel, by decide, rfl⟩
    refine ⟨r, hr, hreplaced, ?_⟩
    exact ((hgives _ _ _ _ "m.js" ha (by decide) (by decide)).1.2 (Or.inr hreplaced)).trans
      (Resolver.eq_ok_of_toOption (by decide +kernel))

/-! ### Promises that are broken -/

/-- A patch with an entry that repeats what the scope around its own says. -/
def nestedPatch : ImportMap :=
  ⟨∅, Dict.ofList [("./s/t/", Dict.ofList [("d/e", "./x/e")])]⟩

/-- A map whose prefix is written without a dot. -/
def plainMap : ImportMap := ⟨∅, Dict.ofList [("s/", Dict.ofList [("k", "./1.js")])]⟩

/-- A patch for the same directory. -/
def dottedPatch : ImportMap := ⟨∅, Dict.ofList [("./s/", Dict.ofList [("k", "./2.js")])]⟩

theorem extend_nestedPatch :
    Resolver.maskingMap.extend nestedPatch = ⟨Resolver.maskingMap.imports, ∅⟩ := by
  rw [extend_eq]
  refine clean_eq_of_forall_cleanScope_eq_empty (by decide +kernel) fun e he => ?_
  have hentries : (Resolver.maskingMap.merge nestedPatch).scopes.entries =
      [("./s/", Dict.ofList [("d/", "./x/")]), ("./s/t/", Dict.ofList [("d/e", "./x/e")])] := rfl
  rw [hentries, List.mem_cons, List.mem_singleton] at he
  rcases he with rfl | rfl <;> rw [cleanScope, keysByLength_of_pairwise (by decide)] <;>
    decide +kernel

theorem intact_plainMap :
    (plainMap.merge dottedPatch).Intact "file:///p/" "file:///p/s/" "s/" "k" "./1.js" := by
  have hkept : ¬ (plainMap.merge dottedPatch).Redundant "s/"
      ((plainMap.merge dottedPatch).kept "s/") "k" "./1.js" :=
    not_redundant_of_unrepeated (by decide +kernel) (by decide +kernel)
  refine ⟨⟨?_, Resolver.eq_ok_of_toOption (by decide +kernel), fun q' hq' _ => ?_⟩, by decide,
    hkept⟩
  · exact mem_keys_scopes_clean (get?_cleanScope_eq_some_iff.2 ⟨by decide +kernel, hkept⟩)
  · have hkeys : ∀ q' ∈ (plainMap.merge dottedPatch).scopes.keys, q' ≤ "s/" := by decide +kernel
    exact hkeys q' (mem_keys_scopes_of_clean hq')

/-- **Promised entries may be missed.** Cleaning judges an entry of the patch against a scope of the
map that is itself dropped; and a prefix of the map stands for a directory though the patch has an
entry for it under another prefix. -/
theorem extend_breaks_promises :
    (Promised Resolver.maskingMap nestedPatch "file:///p/" "file:///p/s/t/" "./s/t/" "d/e"
        "./x/e" ∧
      isBareSpecifier "d/e" = true ∧ (mapUrl "file:///p/" "./x/e").toOption = some "file:///p/x/e" ∧
      ∃ r, Resolver.make (Resolver.maskingMap.extend nestedPatch) "file:///p/" false = .ok r ∧
        r.url? "d/e" "file:///p/s/t/m.js" false = .ok (some "file:///p/y")) ∧
    (Promised plainMap dottedPatch "file:///p/" "file:///p/s/" "./s/" "k" "./2.js" ∧
      isBareSpecifier "k" = true ∧ (mapUrl "file:///p/" "./2.js").toOption = some "file:///p/2.js" ∧
      ∃ r, Resolver.make (plainMap.extend dottedPatch) "file:///p/" false = .ok r ∧
        r.url? "k" "file:///p/s/m.js" false = .ok (some "file:///p/1.js")) := by
  refine ⟨⟨.patched [] [] rfl (Resolver.eq_ok_of_toOption (by decide +kernel)) (by decide +kernel)
      fun _ hlater _ => absurd hlater List.not_mem_nil, by decide, by decide +kernel, ?_⟩,
    .patched [] [] rfl (Resolver.eq_ok_of_toOption (by decide +kernel)) (by decide +kernel)
      fun _ hlater _ => absurd hlater List.not_mem_nil, by decide, by decide +kernel, ?_⟩
  · rw [extend_nestedPatch]
    exact ⟨_, Resolver.make_eq_ok_iff.2 ⟨[], rfl, rfl⟩,
      Resolver.eq_ok_of_toOption (by decide +kernel)⟩
  · obtain ⟨r, hr⟩ := @exists_make_extend plainMap dottedPatch "file:///p/" false
      (exists_make_of_isSome (by decide +kernel)) (exists_make_of_isSome (by decide +kernel))
    have hentry := intact_plainMap.firstEntry? hr (by decide +kernel)
    refine ⟨r, hr, ?_⟩
    have hplace : "file:///p/s/m.js" = "file:///p/s/" ++ "m.js" := rfl
    rw [hplace, Resolver.url?_eq_landing (by decide), Resolver.tables_append_name (by decide),
      hentry, Resolver.base_of_make hr]
    exact Resolver.eq_ok_of_toOption (by decide +kernel)

end ImportMap

end ImportAtlas
