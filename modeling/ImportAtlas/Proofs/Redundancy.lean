import ImportAtlas.ImportMap.Clean
import ImportAtlas.Proofs.Match

/-!
# Redundant entries

Cleaning judges the keys of a scope one after the other, shorter ones first, and each against what
is left at that moment. What a key falls back to depends on shorter keys only, and these have been
judged by then; so the entries that stay are exactly those that are not redundant in the result.

## Main results

* `ImportMap.mem_keys_cleanScope_iff`: an entry stays exactly when it is not redundant in what is
  left.
* `ImportMap.get?_scope_clean`, `ImportMap.get?_imports_clean`: what a clean map holds.
-/

namespace ImportAtlas

/-- A table that holds only entries of another one. -/
def Imports.Sub (imports imports' : Imports) : Prop :=
  ∀ k v, imports.get? k = some v → imports'.get? k = some v

namespace Imports.Sub

variable {imports imports' imports'' : Imports}

theorem refl (imports : Imports) : Sub imports imports := fun _ _ h => h

theorem trans (h : Sub imports imports') (h' : Sub imports' imports'') : Sub imports imports'' :=
  fun k v hv => h' k v (h k v hv)

theorem mem_keys (h : Sub imports imports') {k : String} (hk : k ∈ imports.keys) :
    k ∈ imports'.keys := by
  obtain ⟨v, hv⟩ := Dict.mem_keys_iff.1 hk
  exact Dict.mem_keys_of_get? (h k v hv)

theorem erase (imports : Imports) (k : String) : Sub (imports.erase k) imports := by
  intro k' v hv
  rw [Dict.get?_erase] at hv
  split at hv
  · exact absurd hv (by simp)
  · exact hv

end Imports.Sub

namespace ImportMap

/-- An entry that changes nothing: without it its specifier has a target of the same form, from
the rest of its scope, the scopes around it, or the top-level imports. -/
def Redundant (map : ImportMap) (scopePrefix : String) (entries : Imports)
    (specifier target : String) : Prop :=
  Target.isRelative specifier = false ∧
    ∃ found, map.fallback? scopePrefix entries specifier = some found ∧
      Target.normalize found = Target.normalize target

theorem isRedundant_iff {map : ImportMap} {scopePrefix specifier target : String}
    {entries : Imports} (h : entries.get? specifier = some target) :
    map.isRedundant scopePrefix entries specifier = true ↔
      map.Redundant scopePrefix entries specifier target := by
  rw [isRedundant, Redundant, Bool.and_eq_true, Option.any_eq_true, Dict.getD_of_get? h]
  simp only [Bool.not_eq_eq_eq_not, Bool.not_true, beq_iff_eq]

/-- What a specifier falls back to depends on the shorter keys around it only. -/
theorem fallback?_congr {map : ImportMap} {scopePrefix specifier : String}
    {entries entries' : Imports}
    (h : ∀ k, Covers k specifier → k ≠ specifier → entries.get? k = entries'.get? k) :
    map.fallback? scopePrefix entries specifier = map.fallback? scopePrefix entries' specifier := by
  have hget : ∀ k, Covers k specifier →
      (entries.erase specifier).get? k = (entries'.erase specifier).get? k := by
    intro k hcov
    rw [Dict.get?_erase, Dict.get?_erase]
    split
    · rfl
    · rename_i hne
      exact h k hcov hne
  have hm := Imports.match?_congr_get? hget
  have ht := Imports.target?_congr hget
  simp only [fallback?, tables, Imports.firstTarget?, hm, ht]

/-! ### Judging the keys in turn -/

section Judging

variable (map : ImportMap) (scopePrefix : String)

/-- A table after one key has been judged. -/
def judge (kept : Imports) (specifier : String) : Imports :=
  if map.isRedundant scopePrefix kept specifier then kept.erase specifier else kept

theorem cleanScope_eq_foldl (entries : Imports) :
    map.cleanScope scopePrefix entries =
      (keysByLength entries).foldl (map.judge scopePrefix) entries := rfl

theorem sub_judge (kept : Imports) (specifier : String) :
    Imports.Sub (map.judge scopePrefix kept specifier) kept := by
  rw [judge]
  split
  · exact Imports.Sub.erase kept specifier
  · exact Imports.Sub.refl kept

theorem get?_judge_of_ne (kept : Imports) {k specifier : String} (h : k ≠ specifier) :
    (map.judge scopePrefix kept specifier).get? k = kept.get? k := by
  rw [judge]
  split
  · rw [Dict.get?_erase, if_neg h]
  · rfl

theorem sub_foldl_judge (keys : List String) (kept : Imports) :
    Imports.Sub (keys.foldl (map.judge scopePrefix) kept) kept := by
  induction keys generalizing kept with
  | nil => exact Imports.Sub.refl kept
  | cons k keys ih => exact (ih _).trans (map.sub_judge scopePrefix kept k)

theorem get?_foldl_judge (keys : List String) (kept : Imports) {k : String} (h : k ∉ keys) :
    (keys.foldl (map.judge scopePrefix) kept).get? k = kept.get? k := by
  induction keys generalizing kept with
  | nil => rfl
  | cons k' keys ih =>
      rw [List.mem_cons, not_or] at h
      rw [List.foldl_cons, ih _ h.2, get?_judge_of_ne map scopePrefix kept h.1]

variable {map scopePrefix}

/-- A key that is judged before longer ones stays exactly when it is not redundant in the end. -/
theorem mem_keys_foldl_judge_iff {kept : Imports} {keys : List String} {k v : String}
    (hv : kept.get? k = some v) (hk : k ∉ keys) (hlen : ∀ k' ∈ keys, k.length ≤ k'.length) :
    k ∈ ((k :: keys).foldl (map.judge scopePrefix) kept).keys ↔
      ¬ map.Redundant scopePrefix ((k :: keys).foldl (map.judge scopePrefix) kept) k v := by
  have hfall : map.fallback? scopePrefix ((k :: keys).foldl (map.judge scopePrefix) kept) k =
      map.fallback? scopePrefix kept k := fallback?_congr fun j hcov hne => by
    refine get?_foldl_judge map scopePrefix _ _ fun hj => ?_
    rcases List.mem_cons.1 hj with rfl | hj
    · exact hne rfl
    · exact hne (hcov.eq_of_length_eq (Covers.refl k) (le_antisymm hcov.length_le (hlen j hj)))
  have hred : map.Redundant scopePrefix ((k :: keys).foldl (map.judge scopePrefix) kept) k v ↔
      map.isRedundant scopePrefix kept k = true := by
    rw [isRedundant_iff hv, Redundant, Redundant, hfall]
  rw [hred, Dict.mem_keys_iff, List.foldl_cons, get?_foldl_judge map scopePrefix _ _ hk, judge]
  by_cases hr : map.isRedundant scopePrefix kept k = true
  · rw [if_pos hr, Dict.get?_erase, if_pos rfl]
    simp [hr]
  · rw [if_neg hr, hv]
    simp [hr]

theorem perm_keysByLength (entries : Imports) : (keysByLength entries).Perm entries.keys :=
  List.mergeSort_perm _ _

theorem pairwise_keysByLength (entries : Imports) :
    (keysByLength entries).Pairwise fun a b => a.length ≤ b.length := by
  have h := @List.pairwise_mergeSort _ (fun a b : String => decide (a.length ≤ b.length))
    (fun a b c hab hbc => by
      simp only [decide_eq_true_eq] at *
      omega)
    (fun a b => by
      simp only [Bool.or_eq_true, decide_eq_true_eq]
      omega) entries.keys
  exact h.imp fun hab => by simpa using hab

theorem keysByLength_of_pairwise {entries : Imports}
    (h : entries.keys.Pairwise fun a b => a.length ≤ b.length) :
    keysByLength entries = entries.keys :=
  List.mergeSort_of_pairwise (h.imp fun hab => by simpa using hab)

end Judging

/-! ### What a clean map holds -/

theorem sub_cleanScope (map : ImportMap) (scopePrefix : String) (entries : Imports) :
    Imports.Sub (map.cleanScope scopePrefix entries) entries :=
  sub_foldl_judge map scopePrefix _ entries

/-- **An entry of a scope stays exactly when it is not redundant in what is left.** -/
theorem mem_keys_cleanScope_iff {map : ImportMap} {scopePrefix k v : String} {entries : Imports}
    (hv : entries.get? k = some v) :
    k ∈ (map.cleanScope scopePrefix entries).keys ↔
      ¬ map.Redundant scopePrefix (map.cleanScope scopePrefix entries) k v := by
  have hmem : k ∈ keysByLength entries :=
    (perm_keysByLength entries).mem_iff.2 (Dict.mem_keys_of_get? hv)
  obtain ⟨before, after, hsplit⟩ := List.append_of_mem hmem
  have hnodup : (keysByLength entries).Nodup :=
    (perm_keysByLength entries).nodup_iff.2 entries.nodup_keys
  have hlen := pairwise_keysByLength entries
  rw [hsplit] at hnodup hlen
  have hbefore : k ∉ before := fun hk =>
    (List.nodup_append.1 hnodup).2.2 k hk k List.mem_cons_self rfl
  have hafter : k ∉ after := (List.nodup_cons.1 (List.nodup_append.1 hnodup).2.1).1
  rw [cleanScope_eq_foldl, hsplit, List.foldl_append]
  refine mem_keys_foldl_judge_iff ?_ hafter fun k' hk' => ?_
  · rw [get?_foldl_judge map scopePrefix _ _ hbefore, hv]
  · exact (List.pairwise_cons.1 (List.pairwise_append.1 hlen).2.1).1 k' hk'

/-- The entries that stay are those that are not redundant in what is left. -/
theorem get?_cleanScope_eq_some_iff {map : ImportMap} {scopePrefix k v : String}
    {entries : Imports} :
    (map.cleanScope scopePrefix entries).get? k = some v ↔
      entries.get? k = some v ∧
        ¬ map.Redundant scopePrefix (map.cleanScope scopePrefix entries) k v := by
  constructor
  · intro h
    have hv := map.sub_cleanScope scopePrefix entries k v h
    exact ⟨hv, (mem_keys_cleanScope_iff hv).1 (Dict.mem_keys_of_get? h)⟩
  · rintro ⟨hv, hred⟩
    obtain ⟨w, hw⟩ := Dict.mem_keys_iff.1 ((mem_keys_cleanScope_iff hv).2 hred)
    rw [hw, ← map.sub_cleanScope scopePrefix entries k w hw, hv]

/-- An entry goes exactly when it is redundant in what is left. -/
theorem get?_cleanScope_eq_none_iff {map : ImportMap} {scopePrefix k v : String}
    {entries : Imports} (hv : entries.get? k = some v) :
    (map.cleanScope scopePrefix entries).get? k = none ↔
      map.Redundant scopePrefix (map.cleanScope scopePrefix entries) k v := by
  rw [Dict.get?_eq_none_iff, mem_keys_cleanScope_iff hv, not_not]

theorem get?_cleanScope_of_eq_none {map : ImportMap} {scopePrefix k : String} {entries : Imports}
    (h : entries.get? k = none) : (map.cleanScope scopePrefix entries).get? k = none := by
  rw [Dict.get?_eq_none_iff] at h ⊢
  exact fun hk => h ((map.sub_cleanScope scopePrefix entries).mem_keys hk)

theorem get?_imports_clean (map : ImportMap) (k : String) :
    map.clean.imports.get? k = map.imports.get? k :=
  Dict.get?_sorted map.imports k

theorem get?_scopes_clean (map : ImportMap) (scopePrefix : String) :
    map.clean.scopes.get? scopePrefix =
      ((map.scopes.get? scopePrefix).map (map.cleanScope scopePrefix)).bind fun entries =>
        if entries.isEmpty then none else some entries.sorted := by
  rw [clean, sorted, Dict.get?_sorted, Dict.get?_map, Dict.get?_filter, Dict.get?_map]
  cases map.scopes.get? scopePrefix with
  | none => rfl
  | some entries =>
      cases h : (map.cleanScope scopePrefix entries).isEmpty <;> simp [Option.filter, h]

/-- A scope of a clean map, read entry by entry. -/
theorem get?_scope_clean (map : ImportMap) (scopePrefix k : String) :
    (map.clean.scope scopePrefix).get? k =
      (map.cleanScope scopePrefix (map.scope scopePrefix)).get? k := by
  rw [scope, scope, Dict.getD_eq, Dict.getD_eq, get?_scopes_clean]
  cases map.scopes.get? scopePrefix with
  | none =>
      rw [Option.getD_none]
      cases h : (map.cleanScope scopePrefix ∅).get? k with
      | none => rfl
      | some v => exact absurd (map.sub_cleanScope scopePrefix ∅ k v h) (by simp)
  | some entries =>
      simp only [Option.map_some, Option.bind_some, Option.getD_some]
      split
      · rename_i h
        rw [Option.getD_none, Dict.isEmpty_iff.1 h]
        rfl
      · rw [Option.getD_some, Dict.get?_sorted]

end ImportMap

end ImportAtlas
