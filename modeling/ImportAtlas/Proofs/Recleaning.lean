import Mathlib.Algebra.GroupWithZero.Nat
import Mathlib.Algebra.Order.BigOperators.Group.List
import ImportAtlas.Proofs.Cleaning

/-!
# Cleaning a clean map

The entries of a scope are judged against the scopes around it as they were before cleaning. An
entry that stays because of an entry further out may lose its reason when that one goes. So a clean
map is left alone by cleaning exactly when no entry that stayed agrees with what comes to light
outside its scope; and after as many passes as a map has entries in scopes nothing comes to light
any more.

## Main results

* `ImportMap.cleanScope_eq_self_iff`: a scope stays as it is when none of its entries is redundant.
* `ImportMap.clean_clean_iff`: when a clean map is left alone, and how many passes are enough.
* `ImportMap.clean_changes_clean`: a clean map that is not left alone.
-/

namespace ImportAtlas

namespace Imports

variable {specifier : String}

/-- The target that an entry gives to a specifier that its key covers. A target that is no
directory takes nothing after the key. -/
def targetBy? (specifier : String) (entry : String × String) : Option String :=
  if !(restAfter entry.1 specifier).isEmpty && !Target.endsInSlash entry.2 then none
  else some (entry.2 ++ restAfter entry.1 specifier)

/-- The target of a specifier is that of the entry that decides about it. -/
theorem firstTarget?_eq_bind (specifier : String) (tables : List Imports) :
    firstTarget? specifier tables = (choice? specifier tables).bind (targetBy? specifier) := by
  induction tables with
  | nil => rfl
  | cons imports tables ih =>
      rw [firstTarget?]
      cases hm : imports.match? specifier with
      | none => rw [choice?_cons_of_none hm, ← ih]; rfl
      | some key =>
          rw [choice?_cons_of_match? hm, target?, hm]
          rfl

end Imports

namespace ImportMap

variable {map : ImportMap} {scopePrefix k v : String} {entries : Imports}

/-! ### Scopes that stay as they are -/

theorem judge_eq_self {specifier : String}
    (h : map.isRedundant scopePrefix entries specifier = false) :
    map.judge scopePrefix entries specifier = entries := by
  rw [judge, if_neg (Bool.eq_false_iff.1 h)]

theorem foldl_judge_eq_self {keys : List String}
    (h : ∀ k ∈ keys, map.isRedundant scopePrefix entries k = false) :
    keys.foldl (map.judge scopePrefix) entries = entries := by
  induction keys with
  | nil => rfl
  | cons k keys ih =>
      rw [List.forall_mem_cons] at h
      rw [List.foldl_cons, judge_eq_self h.1, ih h.2]

/-- **A scope stays as it is exactly when none of its entries is redundant.** -/
theorem cleanScope_eq_self_iff :
    map.cleanScope scopePrefix entries = entries ↔
      ∀ k v, entries.get? k = some v → ¬ map.Redundant scopePrefix entries k v := by
  constructor
  · intro h k v hv
    have hstay := (mem_keys_cleanScope_iff hv).1 (by rw [h]; exact Dict.mem_keys_of_get? hv)
    rwa [h] at hstay
  · intro h
    refine foldl_judge_eq_self fun k hk => ?_
    obtain ⟨v, hv⟩ := Dict.mem_keys_iff.1 ((perm_keysByLength entries).mem_iff.1 hk)
    exact Bool.eq_false_iff.2 fun hred => h k v hv ((isRedundant_iff hv).1 hred)

/-- Tables with the same readings have the same redundant entries. -/
theorem redundant_congr {entries' : Imports} (h : ∀ k, entries.get? k = entries'.get? k) :
    map.Redundant scopePrefix entries k v ↔ map.Redundant scopePrefix entries' k v := by
  rw [Redundant, Redundant, fallback?_congr fun k _ _ => h k]

/-! ### What comes to light -/

/-- The entry that decides about a specifier outside a scope: in the scopes around it, or else at
the top level. -/
def outer? (map : ImportMap) (scopePrefix specifier : String) : Option (String × String) :=
  Imports.choice? specifier (map.enclosing scopePrefix ++ [map.imports])

/-- A scope of a map after cleaning. -/
def kept (map : ImportMap) (scopePrefix : String) : Imports :=
  map.cleanScope scopePrefix (map.scope scopePrefix)

/-- An entry that stays, with no other key of its scope around its specifier, and outside its scope
another entry decides about the specifier than before. -/
structure Uncovered (map : ImportMap) (scopePrefix specifier target : String) : Prop where
  /-- The entry stays. -/
  get?_kept : (map.kept scopePrefix).get? specifier = some target
  /-- Entries for relative specifiers are never judged. -/
  not_relative : Target.isRelative specifier = false
  /-- No other key of the scope covers the specifier. -/
  alone : ∀ key ∈ (map.kept scopePrefix).keys, Covers key specifier → key = specifier
  /-- The entry that decided outside the scope does so no longer. -/
  outer_ne : map.clean.outer? scopePrefix specifier ≠ map.outer? scopePrefix specifier

/-- Without its entry a specifier has no key in a table that has no other key around it. -/
theorem match?_erase_eq_none_iff :
    Imports.match? (entries.erase k) k = none ↔ ∀ key ∈ entries.keys, Covers key k → key = k := by
  rw [Imports.match?_eq_none_iff]
  refine forall_congr' fun key => ?_
  rw [Dict.mem_keys_iff, Dict.mem_keys_iff, Dict.get?_erase]
  by_cases hne : key = k
  · simp [hne]
  · simp [hne]

/-- A specifier falls back to another key of its scope if there is one around it. -/
theorem fallback?_of_isSome (h : (Imports.match? (entries.erase k) k).isSome = true) :
    map.fallback? scopePrefix entries k = Imports.target? (entries.erase k) k := by
  rw [fallback?, tables, Imports.firstTarget?, if_pos h]

/-- Otherwise it falls back to the entry that decides outside the scope. -/
theorem fallback?_of_eq_none (h : Imports.match? (entries.erase k) k = none) :
    map.fallback? scopePrefix entries k =
      (map.outer? scopePrefix k).bind (Imports.targetBy? k) := by
  rw [fallback?, tables, Imports.firstTarget?, if_neg (by simp [h]),
    Imports.firstTarget?_eq_bind, outer?]

/-- An entry that stayed is redundant in the clean map exactly when what comes to light outside its
scope agrees with it. -/
theorem redundant_clean_iff (hv : (map.kept scopePrefix).get? k = some v) :
    map.clean.Redundant scopePrefix (map.kept scopePrefix) k v ↔
      map.Uncovered scopePrefix k v ∧ ∃ entry found, map.clean.outer? scopePrefix k = some entry ∧
        Imports.targetBy? k entry = some found ∧ Target.normalize found = Target.normalize v := by
  have hstayed : ¬ map.Redundant scopePrefix (map.kept scopePrefix) k v :=
    (get?_cleanScope_eq_some_iff.1 hv).2
  rw [Redundant] at hstayed ⊢
  cases hm : Imports.match? ((map.kept scopePrefix).erase k) k with
  | some key =>
      have hsome : (Imports.match? ((map.kept scopePrefix).erase k) k).isSome = true := by
        rw [hm, Option.isSome_some]
      rw [fallback?_of_isSome hsome] at hstayed ⊢
      refine iff_of_false hstayed fun h => ?_
      rw [match?_erase_eq_none_iff.2 h.1.alone] at hm
      exact absurd hm (by simp)
  | none =>
      rw [fallback?_of_eq_none hm] at hstayed ⊢
      simp only [Option.bind_eq_some_iff] at hstayed ⊢
      constructor
      · rintro ⟨hrel, found, ⟨entry, hentry, hfound⟩, hform⟩
        refine ⟨⟨hv, hrel, match?_erase_eq_none_iff.1 hm, fun heq =>
          hstayed ⟨hrel, found, ⟨entry, ?_, hfound⟩, hform⟩⟩, entry, found, hentry, hfound, hform⟩
        rw [← heq, hentry]
      · rintro ⟨hu, entry, found, hentry, hfound, hform⟩
        exact ⟨hu.not_relative, found, ⟨entry, hentry, hfound⟩, hform⟩

/-! ### Maps that cleaning leaves alone -/

/-- A map as cleaning leaves it, but for redundant entries: its keys in order, and no scope without
entries. -/
structure Tidy (map : ImportMap) : Prop where
  sorted_imports : map.imports.sorted = map.imports
  sorted_scopes : map.scopes.sorted = map.scopes
  scope_eq : ∀ q entries, map.scopes.get? q = some entries →
    entries.isEmpty = false ∧ entries.sorted = entries

theorem tidy_clean (map : ImportMap) : map.clean.Tidy where
  sorted_imports := Dict.sorted_of_pairwise (Dict.pairwise_sorted _)
  sorted_scopes := Dict.sorted_of_pairwise (Dict.pairwise_sorted _)
  scope_eq q entries hq := by
    rw [get?_scopes_clean, Option.bind_eq_some_iff] at hq
    obtain ⟨cleaned, -, hsome⟩ := hq
    obtain ⟨hempty, heq⟩ := Option.ite_none_left_eq_some.1 hsome
    obtain rfl := Option.some.inj heq
    refine ⟨?_, Dict.sorted_of_pairwise (Dict.pairwise_sorted _)⟩
    rw [Bool.eq_false_iff]
    intro hnone
    refine hempty (Dict.isEmpty_iff.2 fun k => ?_)
    rw [← Dict.get?_sorted, Dict.isEmpty_iff.1 hnone]

/-- **A tidy map is left alone exactly when none of its entries is redundant.** -/
theorem Tidy.clean_eq_self_iff (h : map.Tidy) :
    map.clean = map ↔ ∀ q entries, map.scopes.get? q = some entries →
      map.cleanScope q entries = entries := by
  constructor
  · intro heq q entries hq
    have hread : ∀ k, (map.cleanScope q entries).get? k = entries.get? k := by
      intro k
      have hscope := get?_scope_clean map q k
      rwa [heq, scope, Dict.getD_of_get? hq, eq_comm] at hscope
    refine cleanScope_eq_self_iff.2 fun k v hv => ?_
    rw [← redundant_congr hread]
    rw [← hread] at hv
    exact (get?_cleanScope_eq_some_iff.1 hv).2
  · intro hstay
    have hscopes : ∀ q, map.clean.scopes.get? q = map.scopes.get? q := by
      intro q
      rw [get?_scopes_clean]
      cases hq : map.scopes.get? q with
      | none => rfl
      | some entries =>
          obtain ⟨hempty, hsorted⟩ := h.scope_eq q entries hq
          simp [hstay q entries hq, hempty, hsorted]
    have heq : map.clean.scopes = map.scopes := by
      rw [← h.sorted_scopes, ← (tidy_clean map).sorted_scopes]
      exact Dict.sorted_eq_of_get?_eq hscopes
    calc map.clean = ⟨map.clean.imports, map.clean.scopes⟩ := rfl
      _ = ⟨map.imports, map.scopes⟩ := by
        rw [heq]
        exact congrArg (ImportMap.mk · map.scopes) h.sorted_imports

/-! ### Passes that are enough -/

/-- The number of entries in scopes. -/
def scopedEntries (map : ImportMap) : Nat := (map.scopes.entries.map fun e => e.2.size).sum

theorem entries_foldl_judge_sublist (keys : List String) (entries : Imports) :
    (keys.foldl (map.judge scopePrefix) entries).entries.Sublist entries.entries := by
  induction keys generalizing entries with
  | nil => exact List.Sublist.refl _
  | cons k keys ih =>
      refine (ih _).trans ?_
      rw [judge]
      split
      · exact List.filter_sublist
      · exact List.Sublist.refl _

/-- Cleaning makes no scope larger. -/
theorem size_cleanScope_le (map : ImportMap) (scopePrefix : String) (entries : Imports) :
    (map.cleanScope scopePrefix entries).size ≤ entries.size :=
  (entries_foldl_judge_sublist _ entries).length_le

/-- A scope that loses no entry stays as it is. -/
theorem cleanScope_eq_self_of_size
    (h : (map.cleanScope scopePrefix entries).size = entries.size) :
    map.cleanScope scopePrefix entries = entries :=
  Dict.ext ((entries_foldl_judge_sublist _ entries).eq_of_length h)

/-- Scopes without entries do not count. -/
theorem sum_size_filter (l : List (String × Imports)) :
    ((l.filter fun e => !e.2.isEmpty).map fun e => e.2.size).sum =
      (l.map fun e => e.2.size).sum := by
  induction l with
  | nil => rfl
  | cons e l ih =>
      rw [List.filter_cons, List.map_cons, List.sum_cons, ← ih]
      cases hempty : e.2.isEmpty with
      | false => simp
      | true =>
          have hsize : e.2.size = 0 := by rw [Dict.size, List.isEmpty_iff.1 hempty, List.length_nil]
          simp [hsize]

/-- What a clean map has in its scopes is what is left of each of them. -/
theorem scopedEntries_clean (map : ImportMap) :
    map.clean.scopedEntries =
      (map.scopes.entries.map fun e => (map.cleanScope e.1 e.2).size).sum := by
  have hperm := Dict.perm_sorted (((map.scopes.map map.cleanScope).filter fun _ entries =>
    !entries.isEmpty).map fun _ entries => entries.sorted)
  have hsize : ∀ e : String × Imports, (e.1, e.2.sorted).2.size = e.2.size := fun e =>
    (Dict.perm_sorted e.2).length_eq
  rw [scopedEntries, clean, sorted, (hperm.map fun e => e.2.size).sum_eq, Dict.map, Dict.filter,
    Dict.map, List.map_map]
  simp only [Function.comp_def, hsize]
  rw [sum_size_filter, List.map_map]
  rfl

theorem scopedEntries_clean_le (map : ImportMap) : map.clean.scopedEntries ≤ map.scopedEntries := by
  rw [scopedEntries_clean]
  exact List.sum_le_sum fun e _ => map.size_cleanScope_le e.1 e.2

/-- **A tidy map that is not left alone loses an entry.** -/
theorem Tidy.scopedEntries_clean_lt (h : map.Tidy) (hne : map.clean ≠ map) :
    map.clean.scopedEntries < map.scopedEntries := by
  rw [scopedEntries_clean]
  refine List.sum_lt_sum _ _ (fun e _ => map.size_cleanScope_le e.1 e.2) ?_
  by_contra hall
  refine hne (h.clean_eq_self_iff.2 fun q entries hq => cleanScope_eq_self_of_size ?_)
  have hmem := Dict.get?_eq_some_iff.1 hq
  by_contra hsize
  exact hall ⟨(q, entries), hmem, lt_of_le_of_ne (map.size_cleanScope_le q entries) hsize⟩

/-- A tidy map comes to rest after as many passes as it has entries in scopes. -/
theorem Tidy.clean_iterate (h : map.Tidy) {passes : Nat} (hp : map.scopedEntries ≤ passes) :
    (clean^[passes] map).clean = clean^[passes] map := by
  induction passes generalizing map with
  | zero =>
      by_contra hne
      exact absurd (h.scopedEntries_clean_lt hne) (by omega)
  | succ passes ih =>
      rw [Function.iterate_succ_apply]
      by_cases hrest : map.clean = map
      · rw [hrest, Function.iterate_fixed hrest, hrest]
      · have hlt := h.scopedEntries_clean_lt hrest
        exact ih (tidy_clean map) (by omega)

/-! ### Cleaning twice -/

/-- **When cleaning a second time changes nothing**: exactly when no entry that stayed agrees with
what comes to light outside its scope. Whatever comes to light, after one more pass than there are
entries in scopes the map is at rest. -/
theorem clean_clean_iff (map : ImportMap) :
    (map.clean.clean = map.clean ↔
      ∀ scopePrefix specifier target, map.Uncovered scopePrefix specifier target →
        ∀ entry found, map.clean.outer? scopePrefix specifier = some entry →
          Imports.targetBy? specifier entry = some found →
            Target.normalize found ≠ Target.normalize target) ∧
      (clean^[map.scopedEntries + 1] map).clean = clean^[map.scopedEntries + 1] map := by
  have hread : ∀ q k, (map.clean.scope q).get? k = (map.kept q).get? k :=
    fun q k => get?_scope_clean map q k
  refine ⟨?_, ?_⟩
  · rw [(tidy_clean map).clean_eq_self_iff]
    constructor
    · intro hstay q k v hu entry found hentry hfound hform
      obtain ⟨entries, hq⟩ := Dict.mem_keys_iff.1 (mem_keys_scopes_clean hu.get?_kept)
      have hscope : map.clean.scope q = entries := by rw [scope, Dict.getD_of_get? hq]
      have hv : entries.get? k = some v := by rw [← hscope, hread, hu.get?_kept]
      refine cleanScope_eq_self_iff.1 (hstay q entries hq) k v hv ?_
      rw [← hscope, redundant_congr (hread q), redundant_clean_iff hu.get?_kept]
      exact ⟨hu, entry, found, hentry, hfound, hform⟩
    · intro hno q entries hq
      have hscope : map.clean.scope q = entries := by rw [scope, Dict.getD_of_get? hq]
      refine cleanScope_eq_self_iff.2 fun k v hv hred => ?_
      rw [← hscope, hread] at hv
      rw [← hscope, redundant_congr (hread q), redundant_clean_iff hv] at hred
      obtain ⟨hu, entry, found, hentry, hfound, hform⟩ := hred
      exact hno q k v hu entry found hentry hfound hform
  · rw [Function.iterate_succ_apply]
    exact (tidy_clean map).clean_iterate map.scopedEntries_clean_le

/-- A map whose outer scope has a folder that hides a longer key of the top level; the inner scope
has that key with the target that the top level gives it. -/
def hidingMap : ImportMap :=
  ⟨Dict.ofList [("d/", "./x/"), ("d/e", "./y")],
    Dict.ofList [("./s/", Dict.ofList [("d/", "./x/")]), ("./s/t/", Dict.ofList [("d/e", "./y")])]⟩

/-- The folder of the outer scope goes. -/
theorem clean_hidingMap :
    hidingMap.clean =
      ⟨hidingMap.imports, Dict.ofList [("./s/t/", Dict.ofList [("d/e", "./y")])]⟩ := by
  have houter : hidingMap.cleanScope "./s/" (Dict.ofList [("d/", "./x/")]) = ∅ := by
    rw [cleanScope, keysByLength_of_pairwise (by decide)]
    decide +kernel
  have hinner : hidingMap.cleanScope "./s/t/" (Dict.ofList [("d/e", "./y")]) =
      Dict.ofList [("d/e", "./y")] := by
    rw [cleanScope, keysByLength_of_pairwise (by decide)]
    decide +kernel
  have hscopes : (hidingMap.scopes.map hidingMap.cleanScope).filter (fun _ kept => !kept.isEmpty) =
      Dict.ofList [("./s/t/", Dict.ofList [("d/e", "./y")])] := by
    apply Dict.ext
    show [("./s/", hidingMap.cleanScope "./s/" (Dict.ofList [("d/", "./x/")])),
      ("./s/t/", hidingMap.cleanScope "./s/t/" (Dict.ofList [("d/e", "./y")]))].filter
        (fun e => !e.2.isEmpty) = _
    rw [houter, hinner]
    rfl
  have hentries : (Dict.ofList [("d/e", "./y")]).sorted = Dict.ofList [("d/e", "./y")] :=
    Dict.sorted_of_pairwise (List.pairwise_singleton _ _)
  rw [clean, hscopes, sorted, Dict.sorted_of_pairwise (by decide +kernel)]
  refine congrArg (ImportMap.mk hidingMap.imports) ?_
  show (Dict.ofList [("./s/t/", (Dict.ofList [("d/e", "./y")]).sorted)]).sorted = _
  rw [hentries]
  exact Dict.sorted_of_pairwise (List.pairwise_singleton _ _)

/-- **A clean map may not be left alone**: with the folder of the outer scope out of the way, the
entry of the inner scope says what the top level says. -/
theorem clean_changes_clean :
    hidingMap.clean.clean = ⟨hidingMap.imports, ∅⟩ ∧ hidingMap.clean.clean ≠ hidingMap.clean := by
  have hinner : cleanScope ⟨hidingMap.imports, Dict.ofList
      [("./s/t/", Dict.ofList [("d/e", "./y")])]⟩ "./s/t/" (Dict.ofList [("d/e", "./y")]) = ∅ := by
    rw [cleanScope, keysByLength_of_pairwise (by decide)]
    decide +kernel
  have hclean : hidingMap.clean.clean = ⟨hidingMap.imports, ∅⟩ := by
    rw [clean_hidingMap]
    exact clean_eq_of_cleanScope_eq_empty (by decide +kernel) hinner
  refine ⟨hclean, ?_⟩
  rw [hclean, clean_hidingMap]
  decide +kernel

end ImportMap

end ImportAtlas
