import ImportAtlas.ImportMap.Flatten
import ImportAtlas.Proofs.Cleaning
import ImportAtlas.Proofs.Usage

/-!
# When a map without scopes means the same

Scopes are folded into the top level unless a specifier has two targets that differ. What is
compared are the targets of one key. But a key that is a folder also stands for what is below it,
and once all keys stand at the top level, a longer one wins over the folder that has decided before.
So a flat map means the same exactly when, at every place, what decides about a key of the flat map
leads where the flat map sends the key.

## Summary

* `ImportMap.entryList` lists all entries of a map.
* `Imports.Serves` says that a target does for a key what an entry does that has decided before.
* `Resolver.FlattensSafely` says this of all keys, at every scope and outside all scopes.

## Main results

* `ImportMap.flatten_eq_ok_iff`: which maps can be flattened, and what becomes of them.
* `Resolver.flatten_keeps_urls_iff`: when a flat map finds the same URLs.
* `Resolver.flatten_changes_url`: a map for which it does not.
-/

namespace ImportAtlas

namespace ImportMap

variable {map flat : ImportMap}

/-! ### What becomes of the entries -/

/-- Entries whose targets have one form if their keys are the same. -/
def Concordant (entries : List (String × String)) : Prop :=
  ∀ e ∈ entries, ∀ e' ∈ entries, e.1 = e'.1 → Target.normalize e.2 = Target.normalize e'.2

instance (entries : List (String × String)) : Decidable (Concordant entries) :=
  inferInstanceAs (Decidable (∀ e ∈ entries, ∀ e' ∈ entries, _))

/-- Entries of which others speak with the same form are concordant if the others are. -/
theorem Concordant.of_forall_exists {entries entries' : List (String × String)}
    (h : Concordant entries')
    (hsome : ∀ e ∈ entries, ∃ e' ∈ entries', e'.1 = e.1 ∧
      Target.normalize e'.2 = Target.normalize e.2) : Concordant entries := by
  intro e he f hf hkey
  obtain ⟨e', he', hek, het⟩ := hsome e he
  obtain ⟨f', hf', hfk, hft⟩ := hsome f hf
  rw [← het, ← hft]
  exact h e' he' f' hf' (by rw [hek, hfk, hkey])

theorem foldEntry_eq_ok_iff {q : String} {imports result : Imports} {e : String × String} :
    foldEntry q imports e = .ok result ↔
      (∀ t, imports.get? e.1 = some t → Target.normalize t = Target.normalize e.2) ∧
        result = imports.insert e.1 e.2 := by
  rw [foldEntry]
  cases imports.get? e.1 with
  | none => simp [eq_comm]
  | some t =>
      by_cases ht : Target.normalize t = Target.normalize e.2 <;> simp [ht, eq_comm]

/-- Adding an entry that agrees with the table leaves further entries as concordant as before. -/
theorem concordant_cons_iff {imports : Imports} {e : String × String}
    {more : List (String × String)} :
    Concordant (imports.entries ++ e :: more) ↔
      (∀ t, imports.get? e.1 = some t → Target.normalize t = Target.normalize e.2) ∧
        Concordant ((imports.insert e.1 e.2).entries ++ more) := by
  have hadded : e ∈ (imports.insert e.1 e.2).entries :=
    Dict.get?_eq_some_iff.1 (by rw [Dict.get?_insert, if_pos rfl])
  constructor
  · intro h
    refine ⟨fun t ht => ?_, h.of_forall_exists fun f hf => ⟨f, ?_, rfl, rfl⟩⟩
    · exact h (e.1, t) (List.mem_append_left _ (Dict.get?_eq_some_iff.1 ht)) e (by simp) rfl
    · rcases List.mem_append.1 hf with hold | hmore
      · obtain ⟨k, v⟩ := f
        rw [← Dict.get?_eq_some_iff, Dict.get?_insert] at hold
        split at hold
        · rename_i hk
          obtain ⟨k', v'⟩ := e
          obtain rfl : v' = v := Option.some.inj hold
          obtain rfl : k = k' := hk
          exact List.mem_append_right _ List.mem_cons_self
        · exact List.mem_append_left _ (Dict.get?_eq_some_iff.1 hold)
      · exact List.mem_append_right _ (List.mem_cons_of_mem _ hmore)
  · rintro ⟨hhead, h⟩
    -- an entry that is written over is spoken for by the one that takes its place
    refine h.of_forall_exists fun f hf => ?_
    rcases List.mem_append.1 hf with hold | hnew
    · by_cases hk : f.1 = e.1
      · refine ⟨e, List.mem_append_left _ hadded, hk.symm, (hhead f.2 ?_).symm⟩
        rw [← hk]
        exact Dict.get?_eq_some_iff.2 hold
      · refine ⟨f, List.mem_append_left _ ?_, rfl, rfl⟩
        have hget : imports.get? f.1 = some f.2 := Dict.get?_eq_some_iff.2 hold
        exact Dict.get?_eq_some_iff.1 (by rw [Dict.get?_insert, if_neg hk, hget])
    · rcases List.mem_cons.1 hnew with rfl | hmore
      · exact ⟨f, List.mem_append_left _ hadded, rfl, rfl⟩
      · exact ⟨f, List.mem_append_right _ hmore, rfl, rfl⟩

/-- Folding entries from several scopes succeeds when they are concordant, and sets all of them. -/
theorem foldlM_foldEntry_eq_ok_iff {named : List (String × (String × String))}
    {imports result : Imports} :
    named.foldlM (fun imports e => foldEntry e.1 imports e.2) imports = .ok result ↔
      Concordant (imports.entries ++ named.map Prod.snd) ∧
        result = imports.insertMany (named.map Prod.snd) := by
  induction named generalizing imports with
  | nil =>
      have hself : Concordant imports.entries := by
        intro e he e' he' hk
        have hget : imports.get? e.1 = some e.2 := Dict.get?_eq_some_iff.2 he
        have hget' : imports.get? e'.1 = some e'.2 := Dict.get?_eq_some_iff.2 he'
        rw [hk, hget'] at hget
        rw [Option.some.inj hget]
      simp [pure, Except.pure, hself, eq_comm]
  | cons e named ih =>
      rw [List.foldlM_cons, List.map_cons, concordant_cons_iff, Dict.insertMany_cons]
      constructor
      · intro h
        obtain ⟨imports', himports, hrest⟩ := exists_of_bind_eq_ok h
        obtain ⟨hhead, rfl⟩ := foldEntry_eq_ok_iff.1 himports
        obtain ⟨hmore, rfl⟩ := ih.1 hrest
        exact ⟨⟨hhead, hmore⟩, rfl⟩
      · rintro ⟨⟨hhead, hmore⟩, rfl⟩
        rw [foldEntry_eq_ok_iff.2 ⟨hhead, rfl⟩]
        exact ih.2 ⟨hmore, rfl⟩

theorem foldlM_foldScope (scopes : List (String × Imports)) (imports : Imports) :
    scopes.foldlM foldScope imports =
      (scopes.flatMap fun scope => scope.2.entries.map (scope.1, ·)).foldlM
        (fun imports e => foldEntry e.1 imports e.2) imports := by
  induction scopes generalizing imports with
  | nil => rfl
  | cons scope scopes ih =>
      rw [List.foldlM_cons, List.flatMap_cons, List.foldlM_append, List.foldlM_map, foldScope]
      exact bind_congr fun imports' => ih imports'

/-- The entries of all scopes. -/
def scopeEntryList (map : ImportMap) : List (String × String) :=
  map.scopes.entries.flatMap fun scope => scope.2.entries

/-- All entries, those of the top level first. -/
def entryList (map : ImportMap) : List (String × String) :=
  map.imports.entries ++ map.scopeEntryList

/-- **Which maps can be flattened.** No two entries for one key may have targets of different
forms; then all entries are set at the top level, those of scopes over those of the top level. -/
theorem flatten_eq_ok_iff :
    map.flatten = .ok flat ↔ Concordant map.entryList ∧
      flat = ⟨(map.imports.insertMany map.scopeEntryList).sorted, ∅⟩ := by
  have hentries : (map.scopes.entries.flatMap fun scope =>
      scope.2.entries.map (scope.1, ·)).map Prod.snd = map.scopeEntryList := by
    rw [List.map_flatMap]
    simp only [List.map_map, Function.comp_def, List.map_id', scopeEntryList]
  rw [flatten, foldlM_foldScope]
  constructor
  · intro h
    obtain ⟨imports, himports, h⟩ := exists_of_bind_eq_ok h
    obtain ⟨hconcordant, rfl⟩ := foldlM_foldEntry_eq_ok_iff.1 himports
    rw [hentries] at hconcordant h
    exact ⟨hconcordant, (Except.ok.inj h).symm⟩
  · rintro ⟨hconcordant, rfl⟩
    rw [entryList, ← hentries] at hconcordant
    rw [foldlM_foldEntry_eq_ok_iff.2 ⟨hconcordant, rfl⟩, hentries]
    rfl

/-- The flat map is the one with the same entries whose keys are in order. -/
theorem flatten_eq_ok_of_perm {imports : Imports} (h : Concordant map.entryList)
    (hperm : (map.imports.insertMany map.scopeEntryList).entries.Perm imports.entries)
    (hsorted : imports.entries.Pairwise fun a b => a.1 ≤ b.1) :
    map.flatten = .ok ⟨imports, ∅⟩ := by
  refine flatten_eq_ok_iff.2 ⟨h, ?_⟩
  rw [Dict.sorted_eq_of_get?_eq (Dict.get?_eq_of_perm hperm), Dict.sorted_of_pairwise hsorted]

/-- Every key of a map is a key of the flat map. -/
theorem mem_keys_of_flatten (h : map.flatten = .ok flat) {k : String} (hk : map.Names k) :
    k ∈ flat.imports.keys := by
  obtain ⟨-, rfl⟩ := flatten_eq_ok_iff.1 h
  show k ∈ (map.imports.insertMany map.scopeEntryList).sorted.keys
  rw [Dict.mem_keys_sorted, Dict.mem_keys_insertMany]
  rcases hk with htop | ⟨q, hscope⟩
  · exact Or.inr htop
  · left
    obtain ⟨v, hv⟩ := Dict.mem_keys_iff.1 hscope
    cases hq : map.scopes.get? q with
    | none => rw [scope, Dict.getD_eq, hq] at hv; exact absurd hv (by simp)
    | some entries =>
        rw [scope, Dict.getD_of_get? hq] at hv
        refine List.mem_map.2 ⟨(k, v), List.mem_flatMap.2 ⟨(q, entries), ?_, ?_⟩, rfl⟩
        · exact Dict.get?_eq_some_iff.1 hq
        · exact Dict.get?_eq_some_iff.1 hv

theorem scopes_of_flatten (h : map.flatten = .ok flat) : flat.scopes = ∅ := by
  obtain ⟨-, rfl⟩ := flatten_eq_ok_iff.1 h
  rfl

end ImportMap

/-! ### Serving a key -/

namespace Imports

variable {base key target specifier name k t url : String} {tables : List Imports}
  {choice : Option (String × String)}

/-- A target for a key leads where an entry leads that has decided about the key before, and passes
on what follows the key if the entry does. -/
def Serves (base key target : String) (choice : Option (String × String)) : Prop :=
  ∀ url, landing base key choice = .ok (some url) → mapUrl base target = .ok url ∧
    (Target.endsInSlash key = true → takesMore choice = true → Target.endsInSlash target = true)

instance : Decidable (Serves base key target choice) :=
  decidable_of_iff (∀ url ∈ (landing base key choice).toOption.join,
      (mapUrl base target).toOption = some url ∧ (Target.endsInSlash key = true →
        takesMore choice = true → Target.endsInSlash target = true)) <| by
    refine forall_congr' fun url => ?_
    have hland : url ∈ (landing base key choice).toOption.join ↔
        landing base key choice = .ok (some url) := by
      cases landing base key choice <;> simp [Except.toOption]
    have hmap : (mapUrl base target).toOption = some url ↔ mapUrl base target = .ok url := by
      cases mapUrl base target <;> simp [Except.toOption]
    rw [hland, hmap]

theorem exists_of_landing (h : landing base specifier choice = .ok (some url)) :
    ∃ k t, choice = some (k, t) := by
  cases choice with
  | none => exact absurd h (by simp [landing])
  | some entry => exact ⟨entry.1, entry.2, rfl⟩

theorem landing_self_eq_ok_iff :
    landing base key (some (key, target)) = .ok (some url) ↔ mapUrl base target = .ok url := by
  rw [landing_self]
  cases mapUrl base target <;> simp [Except.map]

/-- Something follows a key, and the entry leads somewhere: then its target is a directory. -/
theorem endsInSlash_of_landing (hcov : Covers k specifier) (hne : k ≠ specifier)
    (h : landing base specifier (some (k, t)) = .ok (some url)) : Target.endsInSlash t = true := by
  by_contra hnot
  rw [landing_of_not_takesMore hcov hne (Bool.eq_false_iff.2 hnot)] at h
  exact absurd h (by simp)

/-- **A target that serves a key serves all specifiers behind it.** -/
theorem Serves.landing_eq (h : Serves base key target (some (k, t))) (hk : Covers k key)
    (hcov : Covers key specifier)
    (hland : landing base specifier (some (k, t)) = .ok (some url)) :
    landing base specifier (some (key, target)) = .ok (some url) := by
  by_cases hne : key = specifier
  · subst hne
    exact landing_self_eq_ok_iff.2 (h url hland).1
  · have hks : k ≠ specifier := by
      rintro rfl
      exact hne (hcov.eq_of_length_eq (Covers.refl k) (le_antisymm hcov.length_le hk.length_le))
    have ht := endsInSlash_of_landing (hk.trans hcov) hks hland
    rw [landing_append hk hcov ht] at hland
    cases hkey : landing base key (some (k, t)) with
    | error e => rw [hkey] at hland; exact absurd hland (by simp [Except.map])
    | ok place? =>
        rw [hkey] at hland
        obtain ⟨place, rfl, -⟩ := Option.map_eq_some_iff.1 (Except.ok.inj hland)
        obtain ⟨hplace, htakes⟩ := h place hkey
        rw [landing_append (Covers.refl key) hcov (htakes (hcov.endsInSlash_of_ne hne) ht),
          landing_self_eq_ok_iff.2 hplace, ← hland]

end Imports

/-! ### Resolving through a flat map -/

namespace Resolver

variable {map flat : ImportMap} {base : String} {relativeFallback : Bool} {r r' : Resolver}
  {specifier parent url : String} {isEntry : Bool}

theorem entry?_of_applyEntry {entry : MapEntry} {resolution : Resolution}
    (h : r.applyEntry specifier parent entry = .ok resolution) :
    resolution.entry? = some entry := by
  rw [applyEntry] at h
  split at h
  · exact absurd h (by simp)
  · obtain ⟨url, -, h⟩ := exists_of_bind_eq_ok h
    obtain rfl := Except.ok.inj h
    rfl

/-- A specifier is resolved through an entry when it is bare and the entry that decides leads
somewhere. -/
theorem exists_resolve_iff :
    (∃ entry, r.resolve specifier parent isEntry = .ok ⟨url, some entry⟩) ↔
      isBareSpecifier specifier = true ∧
        Imports.landing r.base specifier (Imports.choice? specifier (r.chain parent)) =
          .ok (some url) := by
  constructor
  · rintro ⟨entry, h⟩
    obtain ⟨hbare, hentry⟩ := firstEntry?_of_resolve h rfl
    refine ⟨hbare, ?_⟩
    have hurl : r.url? specifier parent isEntry = .ok (some url) := by rw [url?, h]; rfl
    rw [url?_of_bare hbare, ← map_snd_tables, ← map_firstEntry?, hentry] at hurl
    rw [← map_snd_tables, ← map_firstEntry?, hentry]
    exact hurl
  · rintro ⟨hbare, hland⟩
    rw [← map_snd_tables, ← map_firstEntry?] at hland
    rw [resolve, referenceUrl?_of_bare hbare]
    simp only [bind, Except.bind]
    cases hentry : firstEntry? specifier (r.tables parent) with
    | none => rw [hentry] at hland; exact absurd hland (by simp [Imports.landing])
    | some entry =>
        rw [hentry, Option.map_some, ← outcome_applyEntry r specifier parent] at hland
        cases happly : r.applyEntry specifier parent entry with
        | error e => rw [happly] at hland; cases e <;> exact absurd hland (by simp [outcome])
        | ok resolution =>
            obtain ⟨url', entry?⟩ := resolution
            rw [happly] at hland
            obtain rfl : url' = url := Option.some.inj (Except.ok.inj hland)
            obtain rfl : entry? = some entry := entry?_of_applyEntry happly
            exact ⟨entry, happly⟩

/-- Of the specifiers that a map resolves, a flat map finds the URLs. -/
def KeepsUrls (r r' : Resolver) : Prop :=
  ∀ specifier parent isEntry entry url,
    r.resolve specifier parent isEntry = .ok ⟨url, some entry⟩ →
      r'.url? specifier parent isEntry = .ok (some url)

/-- At every scope and outside all scopes, the flat map serves its keys. -/
def FlattensSafely (r : Resolver) (flat : ImportMap) : Prop :=
  ∀ place ∈ "" :: r.scopes.keys, ∀ e ∈ flat.imports.entries, isBareSpecifier e.1 = true →
    Imports.Serves r.base e.1 e.2 (Imports.choice? e.1 (r.chain place))

instance (r : Resolver) (flat : ImportMap) : Decidable (r.FlattensSafely flat) :=
  inferInstanceAs (Decidable (∀ place ∈ "" :: r.scopes.keys, ∀ e ∈ flat.imports.entries, _))

/-- The tables around a module are those at its innermost scope, or outside all scopes. -/
theorem exists_place (r : Resolver) (parent : String) :
    ∃ place ∈ "" :: r.scopes.keys, r.chain parent = r.chain place := by
  cases hs : scopeMatches parent r.scopes.keys with
  | nil => exact ⟨"", List.mem_cons_self, by rw [chain, chain, hs]; rfl⟩
  | cons url outer =>
      have hurl : url ∈ scopeMatches parent r.scopes.keys := by rw [hs]; exact List.mem_cons_self
      refine ⟨url, List.mem_cons_of_mem _ (mem_scopeMatches.1 hurl).2, ?_⟩
      rw [chain, chain, hs, scopeMatches_eq_cons_of_append (show _ = [] ++ url :: outer from hs)]

section Flat

/-- A flat map can be resolved through at any place. -/
theorem make_flat (hflat : map.flatten = .ok flat) (base : String) (relativeFallback : Bool) :
    make flat base relativeFallback = .ok ⟨flat, base, relativeFallback, ∅⟩ := by
  refine make_eq_ok_iff.2 ⟨[], ?_, rfl⟩
  rw [ImportMap.scopes_of_flatten hflat]
  rfl

theorem chain_flat (parent : String) :
    (⟨flat, base, relativeFallback, ∅⟩ : Resolver).chain parent = [flat.imports] := by
  have hnone : scopeMatches parent (∅ : Dict String String).keys = [] :=
    List.eq_nil_iff_forall_not_mem.2 fun url hurl =>
      absurd (mem_scopeMatches.1 hurl).2 List.not_mem_nil
  rw [chain, hnone]
  rfl

/-- Through a flat map a specifier leads where the entry with the longest key leads. -/
theorem url?_flat (hbare : isBareSpecifier specifier = true) {key target : String}
    (hmatch : flat.imports.match? specifier = some key)
    (hget : flat.imports.get? key = some target) :
    url? ⟨flat, base, relativeFallback, ∅⟩ specifier parent isEntry =
      Imports.landing base specifier (some (key, target)) := by
  rw [url?_of_bare hbare, chain_flat, Imports.choice?_cons_of_match? hmatch, Dict.getD_of_get? hget]
  rfl

variable (h : make map base relativeFallback = .ok r)
include h

/-- A flat map that keeps URLs serves its keys: it finds the keys themselves, and what stands
behind those that are folders. -/
theorem flattensSafely_of_keepsUrls
    (hkeeps : KeepsUrls r ⟨flat, base, relativeFallback, ∅⟩) : r.FlattensSafely flat := by
  rintro place - ⟨key, target⟩ he hbare url hland
  have hget : flat.imports.get? key = some target := Dict.get?_eq_some_iff.2 he
  have hself := Imports.match?_self (Dict.mem_keys_of_get? hget)
  refine ⟨?_, fun hs htakes => ?_⟩
  · have hresolve : ∃ entry, r.resolve key place false = .ok ⟨url, some entry⟩ :=
      exists_resolve_iff.2 ⟨hbare, hland⟩
    obtain ⟨entry, hres⟩ := hresolve
    have hurl := hkeeps key place false entry url hres
    rw [url?_flat hbare hself hget, Imports.landing_self_eq_ok_iff] at hurl
    rw [base_of_make h, hurl]
  · -- a long name behind the key is decided as the key is, through both maps
    obtain ⟨name, hempty, hn, hlen⟩ := Imports.exists_long_name (flat.imports :: r.chain place)
    rw [List.forall_mem_cons] at hlen
    have hcov : Covers key (key ++ name) := Or.inr ⟨hs, by simp⟩
    have hname : isBareSpecifier (key ++ name) = true := by
      rw [← isBareSpecifier_eq_of_covers hcov, hbare]
    have hsome : ∃ url', Imports.landing r.base (key ++ name)
        (Imports.choice? (key ++ name) (r.chain place)) = .ok (some url') := by
      obtain ⟨k, t, hc⟩ := Imports.exists_of_landing hland
      rw [hc] at htakes hland
      rw [Imports.choice?_append_name hs hn hlen.2, hc,
        Imports.landing_append (Imports.covers_of_choice? hc) hcov htakes, hland]
      exact ⟨_, rfl⟩
    obtain ⟨url', hland'⟩ := hsome
    have hresolve : ∃ entry, r.resolve (key ++ name) place false = .ok ⟨url', some entry⟩ :=
      exists_resolve_iff.2 ⟨hname, hland'⟩
    obtain ⟨entry, hres⟩ := hresolve
    have hurl := hkeeps (key ++ name) place false entry url' hres
    have hflat : Imports.choice? (key ++ name) [flat.imports] =
        Imports.choice? key [flat.imports] :=
      Imports.choice?_append_name hs hn (List.forall_mem_singleton.2 hlen.1)
    rw [url?_of_bare hname, chain_flat, hflat, Bool.false_and, Bool.and_false,
      if_neg Bool.false_ne_true] at hurl
    by_contra hnot
    have hchoice : Imports.choice? key [flat.imports] = some (key, target) := by
      rw [Imports.choice?_cons_of_match? hself, Dict.getD_of_get? hget]
    rw [(Imports.landing_append_name_eq_none_iff hs hempty).2] at hurl
    · exact absurd hurl (by simp)
    · rw [hchoice]
      exact Bool.eq_false_iff.2 hnot

/-- A flat map that serves its keys keeps URLs: the longest key lies between the key that has
decided before and the specifier, so it has been decided alike. -/
theorem keepsUrls_of_flattensSafely (hflat : map.flatten = .ok flat)
    (hsafe : r.FlattensSafely flat) : KeepsUrls r ⟨flat, base, relativeFallback, ∅⟩ := by
  intro specifier parent isEntry entry url hres
  obtain ⟨hbare, hland⟩ := exists_resolve_iff.1 ⟨entry, hres⟩
  obtain ⟨place, hplace, hchain⟩ := r.exists_place parent
  rw [hchain] at hland
  obtain ⟨k, t, hc⟩ := Imports.exists_of_landing hland
  rw [hc, base_of_make h] at hland
  have hcov := Imports.covers_of_choice? hc
  obtain ⟨imports, hmem, hget, -⟩ := Imports.exists_of_choice? hc
  have hnames := names_of_mem_keys_tablesAt hmem (Dict.mem_keys_of_get? hget)
  rw [map_of_make h] at hnames
  have hk := ImportMap.mem_keys_of_flatten hflat hnames
  cases hm : flat.imports.match? specifier with
  | none => exact absurd hcov (Imports.match?_eq_none_iff.1 hm k hk)
  | some key =>
      have hkey := Imports.covers_of_match? hm
      have hbetween := hcov.of_length_le hkey (Imports.length_le_of_match? hm hk hcov)
      obtain ⟨target, htarget⟩ := Dict.mem_keys_iff.1 (Imports.mem_keys_of_match? hm)
      have hserves := hsafe place hplace (key, target) (Dict.get?_eq_some_iff.1 htarget) (by
        rw [isBareSpecifier_eq_of_covers hkey, hbare])
      rw [Imports.choice?_of_covers hc hbetween hkey, base_of_make h] at hserves
      rw [url?_flat hbare hm htarget]
      exact hserves.landing_eq hbetween hkey hland

/-- **When a flat map means the same.** A map can be flattened exactly when its entries for one key
have targets of one form. The flat map then finds the URL of every specifier that the map resolves
in any module, exactly when it serves its keys at every scope and outside all scopes. -/
theorem flatten_keeps_urls_iff :
    ((∃ flat, map.flatten = .ok flat) ↔ ImportMap.Concordant map.entryList) ∧
      ∀ flat, map.flatten = .ok flat → ∃ r', make flat base relativeFallback = .ok r' ∧
        (KeepsUrls r r' ↔ r.FlattensSafely flat) := by
  refine ⟨⟨fun ⟨flat, hflat⟩ => (ImportMap.flatten_eq_ok_iff.1 hflat).1, fun hconcordant =>
    ⟨_, ImportMap.flatten_eq_ok_iff.2 ⟨hconcordant, rfl⟩⟩⟩, fun flat hflat => ?_⟩
  exact ⟨_, make_flat hflat base relativeFallback, flattensSafely_of_keepsUrls h,
    keepsUrls_of_flattensSafely h hflat⟩

end Flat

/-- A map with scopes in each other. What the inner ones say is what the outer ones say, in other
words. -/
def echoingMap : ImportMap :=
  ⟨Dict.ofList [("b/", "./lib/"), ("c", "./c.js")],
    Dict.ofList [
      ("./s/", Dict.ofList [("a", "./x.js"), ("b/", "./lib/./"), ("b/d/e", "./lib/d/e")]),
      ("./s/t/", Dict.ofList [("b/d/", "./lib/d/")])]⟩

/-- The map with all entries at the top level. -/
def flatEchoingMap : ImportMap :=
  ⟨Dict.ofList [("a", "./x.js"), ("b/", "./lib/./"), ("b/d/", "./lib/d/"), ("b/d/e", "./lib/d/e"),
    ("c", "./c.js")], ∅⟩

theorem flatten_echoingMap : echoingMap.flatten = .ok flatEchoingMap :=
  ImportMap.flatten_eq_ok_of_perm (by decide +kernel) (by decide +kernel) (by decide +kernel)

/-- Flattening keeps the URLs of a map whose inner scopes repeat the outer ones. -/
theorem flatten_keeps_urls_echoingMap :
    ∃ r r', make echoingMap "file:///p/" false = .ok r ∧
      make flatEchoingMap "file:///p/" false = .ok r' ∧ KeepsUrls r r' := by
  have h : make echoingMap "file:///p/" false =
      .ok ⟨echoingMap, "file:///p/", false,
        Dict.ofList [("file:///p/s/", "./s/"), ("file:///p/s/t/", "./s/t/")]⟩ :=
    make_eq_ok_iff.2 ⟨_, eq_ok_of_toOption (by decide +kernel), rfl⟩
  obtain ⟨r', h', hiff⟩ := (flatten_keeps_urls_iff h).2 flatEchoingMap flatten_echoingMap
  exact ⟨_, r', h, h', hiff.2 (by decide +kernel)⟩

/-- A map with a folder in a scope and a longer key in that folder at the top level. -/
def outrankedMap : ImportMap :=
  ⟨Dict.ofList [("a/b", "./z")], Dict.ofList [("./s/", Dict.ofList [("a/", "./x/")])]⟩

/-- The map with both entries at the top level. -/
def flatOutrankedMap : ImportMap := ⟨Dict.ofList [("a/", "./x/"), ("a/b", "./z")], ∅⟩

/-- **Flattening may change a URL**: no key has two targets, but the folder of the scope no longer
stands in front of the longer key. -/
theorem flatten_changes_url :
    (∀ q ∈ outrankedMap.scopes.keys, Target.endsInSlash q = true) ∧
      outrankedMap.flatten = .ok flatOutrankedMap ∧
      ((make outrankedMap "file:///p/" false).bind fun r =>
        r.url? "a/b" "file:///p/s/m.js" false) = .ok (some "file:///p/x/b") ∧
      ((make flatOutrankedMap "file:///p/" false).bind fun r =>
        r.url? "a/b" "file:///p/s/m.js" false) = .ok (some "file:///p/z") := by
  refine ⟨by decide, ImportMap.flatten_eq_ok_of_perm (by decide +kernel) (by decide +kernel)
    (by decide +kernel), ?_, ?_⟩
  · exact eq_ok_of_toOption (by decide +kernel)
  · exact eq_ok_of_toOption (by decide +kernel)

end Resolver

end ImportAtlas
