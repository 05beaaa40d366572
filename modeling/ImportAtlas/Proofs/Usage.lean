import ImportAtlas.Proofs.Resolve

/-!
# Entries that were used

Tracing notes every entry that a specifier went through. The map of these entries is a part of the
map that is resolved through, and no entry is lost from it again.

## Main results

* `Resolver.offers_of_resolve`: a resolution goes through an entry of the map.
* `ImportMap.Within.record`, `ImportMap.has_record`: what noting a resolution does.
-/

namespace ImportAtlas

namespace ImportMap

variable {map : ImportMap}

/-- The entries of a scope, or those of the top level. -/
def table (map : ImportMap) : Option String → Imports
  | some scopePrefix => map.scope scopePrefix
  | none => map.imports

/-- A map holds an entry. -/
def Has (map : ImportMap) (entry : MapEntry) : Prop :=
  (map.table entry.scope?).get? entry.key = some entry.target

/-- A map holds the entry that a resolution went through, if there is one. -/
def Accounts (map : ImportMap) (resolution : Resolution) : Prop :=
  ∀ entry, resolution.entry? = some entry → map.Has entry

/-- Adding an entry sets one key of one table. -/
theorem get?_table_addEntry (map : ImportMap) (entry : MapEntry) (scope? : Option String)
    (k : String) :
    ((map.addEntry entry).table scope?).get? k =
      if scope? = entry.scope? ∧ k = entry.key then some entry.target
      else (map.table scope?).get? k := by
  obtain ⟨scope?', key, target⟩ := entry
  cases scope?' with
  | none =>
      cases scope? with
      | none =>
          show (map.imports.insert key target).get? k = _
          rw [Dict.get?_insert]
          simp only [true_and, table]
      | some q => rw [if_neg fun h => absurd h.1 (by simp)]; rfl
  | some q' =>
      cases scope? with
      | none => rw [if_neg fun h => absurd h.1 (by simp)]; rfl
      | some q =>
          show (Dict.getD (map.scopes.insert q' ((map.scope q').insert key target)) q ∅).get? k = _
          rw [Dict.getD_eq, Dict.get?_insert]
          by_cases hq : q = q'
          · subst hq
            rw [if_pos rfl, Option.getD_some, Dict.get?_insert]
            simp only [true_and, table]
          · rw [if_neg hq, if_neg fun h => hq (Option.some.inj h.1)]
            rfl

theorem has_addEntry_self (map : ImportMap) (entry : MapEntry) :
    (map.addEntry entry).Has entry := by
  rw [Has, get?_table_addEntry, if_pos ⟨rfl, rfl⟩]

/-- An entry that a map holds after another one was added is that one or was there before. -/
theorem has_of_has_addEntry {entry entry' : MapEntry} (h : (map.addEntry entry).Has entry') :
    entry' = entry ∨ map.Has entry' := by
  rw [Has, get?_table_addEntry] at h
  split at h
  · rename_i heq
    obtain ⟨scope?, key, target⟩ := entry
    obtain ⟨scope?', key', target'⟩ := entry'
    obtain ⟨rfl, rfl⟩ := heq
    obtain rfl : target = target' := Option.some.inj h
    exact Or.inl rfl
  · exact Or.inr h

/-- An entry stays when another one is added, unless that one gives its key another target. -/
theorem has_addEntry {entry entry' : MapEntry} (h : map.Has entry')
    (hsame : entry'.scope? = entry.scope? → entry'.key = entry.key →
      entry'.target = entry.target) : (map.addEntry entry).Has entry' := by
  rw [Has, get?_table_addEntry]
  split
  · rename_i heq
    rw [hsame heq.1 heq.2]
  · exact h

theorem mem_keys_scopes_of_addEntry {entry : MapEntry} {q : String}
    (h : q ∈ (map.addEntry entry).scopes.keys) :
    entry.scope? = some q ∨ q ∈ map.scopes.keys := by
  obtain ⟨scope?, key, target⟩ := entry
  cases scope? with
  | none => exact Or.inr h
  | some q' =>
      replace h : q ∈ (map.scopes.insert q' ((map.scope q').insert key target)).keys := h
      rw [Dict.mem_keys_insert] at h
      exact h.imp (fun hq => by rw [hq]) id

/-- Two entries of one map that share scope and key are the same. -/
theorem Has.target_eq {entry entry' : MapEntry} (h : map.Has entry) (h' : map.Has entry')
    (hs : entry'.scope? = entry.scope?) (hk : entry'.key = entry.key) :
    entry'.target = entry.target := by
  rw [Has, hs, hk] at h'
  exact Option.some.inj (h'.symm.trans h)

end ImportMap

namespace Resolver

variable {r : Resolver}

/-- An entry that a resolver may go through: one of its map, in a scope that counts. -/
structure Offers (r : Resolver) (entry : MapEntry) : Prop where
  has : r.map.Has entry
  counts : ∀ q, entry.scope? = some q → ∃ url, r.scopes.get? url = some q

theorem mem_tables {parent : String} {scope? : Option String} {imports : Imports}
    (h : (scope?, imports) ∈ r.tables parent) :
    (scope? = none ∧ imports = r.map.imports) ∨
      ∃ url q, r.scopes.get? url = some q ∧ scope? = some q ∧ imports = r.map.scope q := by
  rcases List.mem_append.1 h with hs | htop
  · obtain ⟨url, hurl, heq⟩ := List.mem_map.1 hs
    obtain ⟨rfl, rfl⟩ := Prod.mk.inj heq
    obtain ⟨q, hq⟩ := Dict.mem_keys_iff.1 (mem_scopeMatches.1 hurl).2
    rw [Dict.getD_of_get? hq]
    exact Or.inr ⟨url, q, hq, rfl, rfl⟩
  · obtain ⟨rfl, rfl⟩ := Prod.mk.inj (List.mem_singleton.1 htop)
    exact Or.inl ⟨rfl, rfl⟩

theorem mem_of_firstEntry? {specifier : String} {tables : List (Option String × Imports)}
    {entry : MapEntry} (h : firstEntry? specifier tables = some entry) :
    ∃ imports, (entry.scope?, imports) ∈ tables ∧
      imports.get? entry.key = some entry.target := by
  induction tables with
  | nil => exact absurd h (by simp [ firstEntry?])
  | cons table tables ih =>
      obtain ⟨scope?, imports⟩ := table
      rw [ firstEntry?] at h
      cases hm : imports.match? specifier with
      | none =>
          rw [hm] at h
          obtain ⟨imports', hmem, hget⟩ := ih h
          exact ⟨imports', List.mem_cons_of_mem _ hmem, hget⟩
      | some key =>
          rw [hm] at h
          obtain rfl := Option.some.inj h
          obtain ⟨v, hv⟩ := Dict.mem_keys_iff.1 (Imports.mem_keys_of_match? hm)
          exact ⟨imports, List.mem_cons_self, by rw [hv, Dict.getD_of_get? hv]⟩

/-- The entry of a resolution is the first one for its specifier. -/
theorem firstEntry?_of_resolve {specifier parent : String} {isEntry : Bool}
    {resolution : Resolution} {entry : MapEntry}
    (h : r.resolve specifier parent isEntry = .ok resolution)
    (he : resolution.entry? = some entry) :
    isBareSpecifier specifier = true ∧ firstEntry? specifier (r.tables parent) = some entry := by
  cases hbare : isBareSpecifier specifier with
  | false =>
      rw [resolve] at h
      cases hu : referenceUrl? specifier parent with
      | error e => exact absurd h (by simp [hu, bind, Except.bind])
      | ok url? =>
          cases url? with
          | none => exact absurd hu (referenceUrl?_ne_none hbare parent)
          | some url =>
              obtain rfl : (⟨url, none⟩ : Resolution) = resolution := by
                simpa [hu, bind, Except.bind, pure, Except.pure] using h
              exact absurd he (by simp)
  | true =>
      refine ⟨rfl, ?_⟩
      rw [resolve, referenceUrl?_of_bare hbare] at h
      simp only [bind, Except.bind] at h
      cases hf : firstEntry? specifier (r.tables parent) with
      | none =>
          rw [hf] at h
          simp only at h
          split at h
          · cases hj : joinUrl parent ("./" ++ specifier) with
            | error e => exact absurd h (by simp [hj])
            | ok url =>
                obtain rfl : (⟨url, none⟩ : Resolution) = resolution := by
                  simpa [hj, pure, Except.pure] using h
                exact absurd he (by simp)
          · exact absurd h (by simp)
      | some entry' =>
          rw [hf] at h
          simp only [applyEntry] at h
          split at h
          · exact absurd h (by simp)
          · cases hu : mapUrl r.base entry'.target with
            | error e => exact absurd h (by simp [hu, bind, Except.bind])
            | ok url =>
                rw [hu] at h
                obtain rfl := Except.ok.inj h
                exact he

/-- **A resolution goes through an entry that the resolver offers.** -/
theorem offers_of_resolve {specifier parent : String} {isEntry : Bool} {resolution : Resolution}
    {entry : MapEntry} (h : r.resolve specifier parent isEntry = .ok resolution)
    (he : resolution.entry? = some entry) : r.Offers entry := by
  obtain ⟨imports, hmem, hget⟩ := mem_of_firstEntry? ( firstEntry?_of_resolve h he).2
  obtain ⟨scope?, key, target⟩ := entry
  rcases mem_tables hmem with ⟨hs, rfl⟩ | ⟨url, q, hq, hs, rfl⟩
  · obtain rfl : scope? = none := hs
    exact ⟨hget, fun q hq => absurd hq (by simp)⟩
  · obtain rfl : scope? = some q := hs
    exact ⟨hget, fun q' hq' => ⟨url, by rw [hq]; exact hq'⟩⟩

end Resolver

namespace ImportMap

/-- A map of entries that a resolver offers. -/
structure Within (used : ImportMap) (r : Resolver) : Prop where
  /-- All entries are entries of the resolver's map. -/
  has : ∀ entry, used.Has entry → r.map.Has entry
  /-- All scopes are scopes that count. -/
  counts : ∀ q ∈ used.scopes.keys, ∃ url, r.scopes.get? url = some q

variable {used : ImportMap} {r : Resolver} {specifier parent : String} {isEntry : Bool}
  {resolution : Resolution}

theorem within_empty (r : Resolver) : Within ∅ r where
  has entry h := by
    obtain ⟨scope?, key, target⟩ := entry
    replace h : Dict.get? ∅ key = some target := by cases scope? <;> exact h
    exact absurd h (by simp)
  counts q hq := absurd hq List.not_mem_nil

/-- Noting a resolution keeps within what the resolver offers. -/
theorem Within.record (h : used.Within r)
    (hr : r.resolve specifier parent isEntry = .ok resolution) :
    (used.record resolution).Within r := by
  rw [ImportMap.record]
  split
  · rename_i entry he
    have hoffer := Resolver.offers_of_resolve hr he
    constructor
    · intro entry' h'
      rcases has_of_has_addEntry h' with rfl | hold
      · exact hoffer.has
      · exact h.has entry' hold
    · intro q hq
      rcases mem_keys_scopes_of_addEntry hq with hs | hold
      · exact hoffer.counts q hs
      · exact h.counts q hold
  · exact h

theorem accounts_record (used : ImportMap) (resolution : Resolution) :
    (used.record resolution).Accounts resolution := by
  intro entry he
  rw [ImportMap.record, he]
  exact has_addEntry_self used entry

/-- Noting a resolution loses no entry that was noted before. -/
theorem has_record (h : used.Within r)
    (hr : r.resolve specifier parent isEntry = .ok resolution) {entry : MapEntry}
    (he : used.Has entry) : (used.record resolution).Has entry := by
  rw [ImportMap.record]
  split
  · rename_i entry' he'
    exact has_addEntry he (Has.target_eq (Resolver.offers_of_resolve hr he').has (h.has entry he))
  · exact he

end ImportMap

end ImportAtlas
