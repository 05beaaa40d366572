import ImportAtlas.Proofs.Judgements

/-!
# The order of entries

A dictionary remembers in which order its keys came. Cleaning sees this order in one place only: of
two scopes whose prefixes have the same normal form the later one stands for both. What cleaning
keeps is otherwise a matter of what the map says: an entry goes exactly when what is left of its
scope, the scopes around it and the top-level imports repeat it.

## Summary

* `ImportMap.Encloses`: a scope lies around another one.
* `ImportMap.Around`: the scopes around a scope, innermost first.
* `ImportMap.SameEntries`: two maps say the same, in whatever order.

## Main results

* `ImportMap.Around.unique`: which scopes lie around a scope, and in which order they are asked.
* `ImportMap.SameEntries.get?_kept`: maps that say the same keep the same entries.
* `ImportMap.clean_drops_exactly_redundant`: what cleaning keeps, and that the order is not seen.
-/

namespace ImportAtlas

namespace Dict

variable {β : Type}

/-- A sorted dictionary has its keys in increasing order. -/
theorem pairwise_keys_sorted (d : Dict String β) : d.sorted.keys.Pairwise (· < ·) := by
  have hle : d.sorted.keys.Pairwise (· ≤ ·) := List.pairwise_map.2 (pairwise_sorted d)
  exact hle.imp₂ (fun _ _ hab hne => lt_of_le_of_ne hab hne) d.sorted.nodup_keys

end Dict

namespace ImportMap

/-! ### The scopes around a scope -/

/-- A scope lies around another one: its prefix in normal form ends in a slash, and the other's is
longer and begins with it. -/
def Encloses (outer inner : String) : Prop :=
  Target.endsInSlash (Target.normalize outer) = true ∧
    (Target.normalize outer).toList <+: (Target.normalize inner).toList ∧
      Target.normalize outer ≠ Target.normalize inner

instance (outer inner : String) : Decidable (Encloses outer inner) :=
  inferInstanceAs (Decidable (_ ∧ _ ∧ _))

/-- A scope that stands for its normal form: none of the later ones has the same. -/
def StandsForForm (map : ImportMap) (scopePrefix : String) : Prop :=
  ∃ before after, map.scopes.keys = before ++ scopePrefix :: after ∧
    ∀ later ∈ after, Target.normalize later ≠ Target.normalize scopePrefix

/-- The scopes around a scope, innermost first. -/
structure Around (map : ImportMap) (scopePrefix : String) (around : List String) : Prop where
  /-- They are the scopes that stand for their forms and enclose the scope. -/
  mem_iff : ∀ outer, outer ∈ around ↔ map.StandsForForm outer ∧ Encloses outer scopePrefix
  /-- The longest form comes first. -/
  longest_first : around.Pairwise fun p q =>
    (Target.normalize q).length < (Target.normalize p).length

variable {map map' : ImportMap} {scopePrefix q k v : String} {around around' : List String}

theorem get?_scopeForms_eq_some_iff {form : String} :
    map.scopeForms.get? form = some q ↔ map.StandsForForm q ∧ Target.normalize q = form :=
  Dict.get?_ofList_map_eq_some_iff

/-- A text without its last character begins with the proper beginnings of the text. -/
theorem isPrefix_dropLastChar_iff {p s : String} (hne : p ≠ "") :
    p.toList <+: (dropLastChar s).toList ↔ p.toList <+: s.toList ∧ p ≠ s := by
  rw [dropLastChar, String.toList_ofList, Ne, ← String.toList_inj]
  rcases List.eq_nil_or_concat s.toList with hnil | ⟨init, c, hsplit⟩
  · rw [hnil, List.dropLast_nil, List.prefix_nil, String.toList_eq_nil_iff]
    exact iff_of_false hne fun h => hne h.1
  · rw [hsplit, List.concat_eq_append, List.dropLast_concat, List.prefix_concat_iff]
    constructor
    · intro hp
      refine ⟨Or.inr hp, fun heq => ?_⟩
      have hlength := hp.length_le
      rw [heq, List.length_append, List.length_singleton] at hlength
      omega
    · exact fun h => h.1.resolve_left h.2

/-- The scopes around a scope without its slash are those around the scope, except for itself. -/
theorem mem_scopeMatches_dropLastChar {s url : String} {scopes : List String} :
    url ∈ scopeMatches (dropLastChar s) scopes ↔ url ∈ scopeMatches s scopes ∧ url ≠ s := by
  have hempty : Target.endsInSlash url = true → url ≠ "" := by
    rintro hslash rfl
    exact absurd hslash (by decide)
  rw [mem_scopeMatches, mem_scopeMatches]
  constructor
  · rintro ⟨⟨hslash, hpre⟩, hmem⟩
    obtain ⟨hpre, hne⟩ := (isPrefix_dropLastChar_iff (hempty hslash)).1 hpre
    exact ⟨⟨⟨hslash, hpre⟩, hmem⟩, hne⟩
  · rintro ⟨⟨⟨hslash, hpre⟩, hmem⟩, hne⟩
    exact ⟨⟨hslash, (isPrefix_dropLastChar_iff (hempty hslash)).2 ⟨hpre, hne⟩⟩, hmem⟩

/-- The prefixes of the scopes around a scope, as they are asked. -/
def enclosingScopes (map : ImportMap) (scopePrefix : String) : List String :=
  (scopeMatches (dropLastChar (Target.normalize scopePrefix)) map.scopeForms.keys).map fun form =>
    map.scopeForms.getD form ""

theorem enclosing_eq_map (map : ImportMap) (scopePrefix : String) :
    map.enclosing scopePrefix = (map.enclosingScopes scopePrefix).map map.scope := by
  rw [enclosing, enclosingScopes, List.map_map]
  rfl

/-- **The scopes around a scope** are asked from the inside out. -/
theorem around_enclosingScopes (map : ImportMap) (scopePrefix : String) :
    map.Around scopePrefix (map.enclosingScopes scopePrefix) := by
  have hform : ∀ form ∈ map.scopeForms.keys,
      map.StandsForForm (map.scopeForms.getD form "") ∧
        Target.normalize (map.scopeForms.getD form "") = form := by
    intro form hmem
    obtain ⟨p, hp⟩ := Dict.mem_keys_iff.1 hmem
    rw [Dict.getD_of_get? hp]
    exact get?_scopeForms_eq_some_iff.1 hp
  refine ⟨fun outer => ?_, ?_⟩
  · rw [enclosingScopes, List.mem_map]
    constructor
    · rintro ⟨form, hmatch, rfl⟩
      obtain ⟨hmatch, hne⟩ := mem_scopeMatches_dropLastChar.1 hmatch
      obtain ⟨⟨hslash, hpre⟩, hmem⟩ := mem_scopeMatches.1 hmatch
      obtain ⟨hstands, hnormal⟩ := hform form hmem
      exact ⟨hstands, by rwa [hnormal], by rw [hnormal]; exact ⟨hpre, hne⟩⟩
    · rintro ⟨hstands, hslash, hpre, hne⟩
      have hget := get?_scopeForms_eq_some_iff.2 ⟨hstands, rfl⟩
      refine ⟨Target.normalize outer, mem_scopeMatches_dropLastChar.2
        ⟨mem_scopeMatches.2 ⟨⟨hslash, hpre⟩, Dict.mem_keys_of_get? hget⟩, hne⟩,
        Dict.getD_of_get? hget⟩
  · refine List.pairwise_map.2 ((pairwise_scopeMatches _ _).imp_of_mem fun {a b} ha hb hlt => ?_)
    rwa [(hform a (mem_scopeMatches.1 ha).2).2, (hform b (mem_scopeMatches.1 hb).2).2]

/-- No other list has the scopes around a scope in this order. -/
theorem Around.unique (h : map.Around scopePrefix around) (h' : map.Around scopePrefix around') :
    around = around' :=
  have hasymm : Std.Asymm fun p q : String =>
      (Target.normalize q).length < (Target.normalize p).length := ⟨fun _ _ h => h.asymm⟩
  List.Pairwise.eq_of_mem_iff h.longest_first h'.longest_first fun p => by
    rw [h.mem_iff, h'.mem_iff]

/-- If no two prefixes have the same form, every scope stands for its own. -/
theorem standsForForm_iff (hforms : (map.scopes.keys.map Target.normalize).Nodup) :
    map.StandsForForm q ↔ q ∈ map.scopes.keys := by
  constructor
  · rintro ⟨before, after, hkeys, -⟩
    rw [hkeys]
    exact List.mem_append_right before List.mem_cons_self
  · intro hq
    obtain ⟨before, after, hkeys⟩ := List.append_of_mem hq
    refine ⟨before, after, hkeys, fun later hlater heq => ?_⟩
    rw [hkeys, List.map_append, List.map_cons] at hforms
    refine (List.nodup_cons.1 (List.nodup_append.1 hforms).2.1).1 ?_
    rw [← heq]
    exact List.mem_map_of_mem hlater

/-! ### Maps that say the same -/

/-- Maps that say the same, in whatever order: the same targets at the top level, and the same
scopes with the same entries. -/
structure SameEntries (map map' : ImportMap) : Prop where
  get?_imports : ∀ k, map.imports.get? k = map'.imports.get? k
  mem_scopes : ∀ q, q ∈ map.scopes.keys ↔ q ∈ map'.scopes.keys
  get?_scope : ∀ q k, (map.scope q).get? k = (map'.scope q).get? k

/-- Maps whose entries are rearranged say the same. -/
theorem SameEntries.of_perm (himports : map.imports.entries.Perm map'.imports.entries)
    (hscopes : map.scopes.keys.Perm map'.scopes.keys)
    (hentries : ∀ q ∈ map.scopes.keys, (map.scope q).entries.Perm (map'.scope q).entries) :
    map.SameEntries map' := by
  refine ⟨Dict.get?_eq_of_perm himports, fun q => hscopes.mem_iff, fun q k => ?_⟩
  by_cases hq : q ∈ map.scopes.keys
  · exact Dict.get?_eq_of_perm (hentries q hq) k
  · have hnone := Dict.get?_eq_none_iff.2 hq
    have hnone' := Dict.get?_eq_none_iff.2 (mt hscopes.mem_iff.2 hq)
    rw [scope, scope, Dict.getD_eq, Dict.getD_eq, hnone, hnone']

namespace SameEntries

variable (h : map.SameEntries map') (hforms : (map.scopes.keys.map Target.normalize).Nodup)
include h hforms

/-- The same scopes lie around a scope. -/
theorem enclosingScopes_eq (scopePrefix : String) :
    map.enclosingScopes scopePrefix = map'.enclosingScopes scopePrefix := by
  have hperm : map.scopes.keys.Perm map'.scopes.keys :=
    (List.perm_ext_iff_of_nodup map.scopes.nodup_keys map'.scopes.nodup_keys).2 h.mem_scopes
  have hforms' : (map'.scopes.keys.map Target.normalize).Nodup :=
    (hperm.map Target.normalize).nodup_iff.1 hforms
  have haround := map'.around_enclosingScopes scopePrefix
  refine (map.around_enclosingScopes scopePrefix).unique ⟨fun outer => ?_, haround.longest_first⟩
  rw [haround.mem_iff, standsForForm_iff hforms, standsForForm_iff hforms', h.mem_scopes]

/-- The same entry decides once that of a specifier is gone, if the shorter keys around it are the
same. -/
theorem deciding?_eq {entries entries' : Imports}
    (hget : ∀ j, Covers j k → j ≠ k → entries.get? j = entries'.get? j) :
    map.deciding? q entries k = map'.deciding? q entries' k := by
  have herase : ∀ j, Covers j k → (entries.erase k).get? j = (entries'.erase k).get? j := by
    intro j hj
    rw [Dict.get?_erase, Dict.get?_erase]
    split
    · rfl
    · rename_i hne
      exact hget j hj hne
  have houtside : Imports.choice? k (map.enclosing q ++ [map.imports]) =
      Imports.choice? k (map'.enclosing q ++ [map'.imports]) := by
    have himports := @Imports.choice?_congr k _ Prod.fst Prod.snd [(map.imports, map'.imports)]
      fun e he j _ => by rw [List.mem_singleton.1 he]; exact h.get?_imports j
    rw [Imports.choice?_append, Imports.choice?_append, enclosing_eq_map, enclosing_eq_map,
      h.enclosingScopes_eq hforms]
    exact congrArg₂ Option.or (Imports.choice?_congr fun p _ j _ => h.get?_scope p j) himports
  have hm := Imports.match?_congr_get? herase
  rw [deciding?, deciding?, tables, tables]
  cases hkey : Imports.match? (entries'.erase k) k with
  | none =>
      rw [Imports.choice?_cons_of_none (hm.trans hkey), Imports.choice?_cons_of_none hkey, houtside]
  | some key =>
      rw [Imports.choice?_cons_of_match? (hm.trans hkey), Imports.choice?_cons_of_match? hkey,
        Dict.getD_eq, Dict.getD_eq, herase key (Imports.covers_of_match? hkey)]

/-- **Maps that say the same keep the same entries.** By induction on the length of the key: what it
falls back to is decided by shorter keys. -/
theorem get?_kept (q k : String) : (map.kept q).get? k = (map'.kept q).get? k := by
  induction hlength : k.length using Nat.strong_induction_on generalizing k with
  | _ n ih =>
      subst hlength
      cases hv : (map.scope q).get? k with
      | none =>
          rw [kept, kept, get?_cleanScope_of_eq_none hv,
            get?_cleanScope_of_eq_none ((h.get?_scope q k).symm.trans hv)]
      | some v =>
          have hv' : (map'.scope q).get? k = some v := (h.get?_scope q k).symm.trans hv
          have hdeciding : map.deciding? q (map.kept q) k = map'.deciding? q (map'.kept q) k := by
            refine h.deciding?_eq hforms fun j hj hne => ih j.length ?_ j rfl
            exact lt_of_le_of_ne hj.length_le fun heq =>
              hne (hj.eq_of_length_eq (Covers.refl k) heq)
          have hred : map.Redundant q (map.kept q) k v ↔ map'.Redundant q (map'.kept q) k v := by
            rw [redundant_iff_repeats, redundant_iff_repeats, hdeciding]
          by_cases hr : map.Redundant q (map.kept q) k v
          · rw [kept, kept, (get?_cleanScope_eq_none_iff hv).2 hr,
              (get?_cleanScope_eq_none_iff hv').2 (hred.1 hr)]
          · rw [kept, kept, get?_cleanScope_eq_some_iff.2 ⟨hv, hr⟩,
              get?_cleanScope_eq_some_iff.2 ⟨hv', fun hr' => hr (hred.2 hr')⟩]

theorem get?_scopes_clean_eq (q : String) :
    map.clean.scopes.get? q = map'.clean.scopes.get? q := by
  rw [get?_scopes_clean, get?_scopes_clean]
  cases hq : map.scopes.get? q with
  | none =>
      have hq' : map'.scopes.get? q = none := by
        rw [Dict.get?_eq_none_iff, ← h.mem_scopes, ← Dict.get?_eq_none_iff, hq]
      rw [hq', Option.map_none, Option.map_none]
  | some entries =>
      obtain ⟨entries', hq'⟩ :=
        Dict.mem_keys_iff.1 ((h.mem_scopes q).1 (Dict.mem_keys_of_get? hq))
      have hkept := h.get?_kept hforms q
      simp only [kept, scope, Dict.getD_of_get? hq, Dict.getD_of_get? hq'] at hkept
      have hempty :
          (map.cleanScope q entries).isEmpty = (map'.cleanScope q entries').isEmpty := by
        rw [Bool.eq_iff_iff, Dict.isEmpty_iff, Dict.isEmpty_iff]
        simp only [hkept]
      rw [hq', Option.map_some, Option.map_some, Option.bind_some, Option.bind_some, hempty,
        Dict.sorted_eq_of_get?_eq hkept]

/-- Maps that say the same are cleaned to the same map. -/
theorem clean_eq : map.clean = map'.clean := by
  have himports : map.clean.imports = map'.clean.imports := Dict.sorted_eq_of_get?_eq h.get?_imports
  have heq : map.clean.scopes = map'.clean.scopes := by
    rw [← (tidy_clean map).sorted_scopes, ← (tidy_clean map').sorted_scopes]
    exact Dict.sorted_eq_of_get?_eq (h.get?_scopes_clean_eq hforms)
  exact congrArg₂ ImportMap.mk himports heq

end SameEntries

/-! ### What cleaning keeps -/

/-- An entry goes exactly when what is left of its scope, the scopes around it and the top-level
imports repeat it. -/
theorem get?_scope_clean_eq_none_iff (hv : (map.scope q).get? k = some v) :
    (map.clean.scope q).get? k = none ↔
      Target.isRelative k = false ∧ ∃ around found, map.Around q around ∧
        Imports.firstTarget? k
            ((map.clean.scope q).erase k :: (around.map map.scope ++ [map.imports])) = some found ∧
          Target.normalize found = Target.normalize v := by
  have hread : ∀ j, (map.clean.scope q).get? j = (map.kept q).get? j := get?_scope_clean map q
  rw [hread, kept, get?_cleanScope_eq_none_iff hv, ← kept, ← redundant_congr hread, Redundant,
    fallback?, tables, enclosing_eq_map]
  refine and_congr_right fun _ => ⟨?_, ?_⟩
  · rintro ⟨found, hfound, hform⟩
    exact ⟨_, found, map.around_enclosingScopes q, hfound, hform⟩
  · rintro ⟨around, found, haround, hfound, hform⟩
    rw [haround.unique (map.around_enclosingScopes q)] at hfound
    exact ⟨found, hfound, hform⟩

/-- **Cleaning drops exactly the redundant entries, in whatever order they come.** The top-level
imports stay; a scope that stays has entries, all of them its own; all keys are in increasing order;
an entry goes exactly when its specifier is not relative and the first table that has a match for
it, of what is left of its scope without it, the scopes around, innermost first, and the top-level
imports, gives it a target of the same form. If no two scope prefixes have the same form, every map
that says the same is cleaned to the same map. -/
theorem clean_drops_exactly_redundant (map : ImportMap) :
    (∀ k, map.clean.imports.get? k = map.imports.get? k) ∧
    (∀ q k v, (map.clean.scope q).get? k = some v → (map.scope q).get? k = some v) ∧
    (map.clean.imports.keys.Pairwise (· < ·) ∧ map.clean.scopes.keys.Pairwise (· < ·) ∧
      ∀ q entries, map.clean.scopes.get? q = some entries →
        entries.isEmpty = false ∧ entries.keys.Pairwise (· < ·)) ∧
    (∀ q k v, (map.scope q).get? k = some v →
      ((map.clean.scope q).get? k = none ↔
        Target.isRelative k = false ∧ ∃ around found, map.Around q around ∧
          Imports.firstTarget? k
              ((map.clean.scope q).erase k :: (around.map map.scope ++ [map.imports])) =
                some found ∧
            Target.normalize found = Target.normalize v)) ∧
    ((map.scopes.keys.map Target.normalize).Nodup →
      ∀ map' : ImportMap, map.SameEntries map' → map'.clean = map.clean) := by
  refine ⟨get?_imports_clean map, ?_, ⟨?_, ?_, ?_⟩, ?_, ?_⟩
  · intro q k v hv
    rw [get?_scope_clean] at hv
    exact map.sub_cleanScope q (map.scope q) k v hv
  · exact Dict.pairwise_keys_sorted _
  · exact Dict.pairwise_keys_sorted _
  · intro q entries hq
    obtain ⟨hempty, hsorted⟩ := (tidy_clean map).scope_eq q entries hq
    exact ⟨hempty, hsorted ▸ Dict.pairwise_keys_sorted entries⟩
  · exact fun q k v hv => get?_scope_clean_eq_none_iff hv
  · exact fun hforms map' h => (h.clean_eq hforms).symm

/-- A scope that repeats an entry of the scope around it, and has one of its own. -/
def repeatingMap : ImportMap :=
  ⟨Dict.ofList [("a", "./x.js"), ("c", "./z.js")],
    Dict.ofList [("./s/", Dict.ofList [("b", "./y.js")]),
      ("./s/t/", Dict.ofList [("a", "./w.js"), ("b", "./s/../y.js")])]⟩

/-- The same entries the other way round. -/
def rearrangedMap : ImportMap :=
  ⟨Dict.ofList [("c", "./z.js"), ("a", "./x.js")],
    Dict.ofList [("./s/t/", Dict.ofList [("b", "./s/../y.js"), ("a", "./w.js")]),
      ("./s/", Dict.ofList [("b", "./y.js")])]⟩

/-- The entry that repeats another one goes, and both maps are cleaned to the same map. -/
theorem clean_drops_exactly_redundant_repeatingMap :
    (repeatingMap.scope "./s/t/").get? "b" = some "./s/../y.js" ∧
      (repeatingMap.clean.scope "./s/t/").get? "b" = none ∧
      (repeatingMap.scopes.keys.map Target.normalize).Nodup ∧
      repeatingMap.SameEntries rearrangedMap ∧ rearrangedMap.clean = repeatingMap.clean := by
  obtain ⟨-, hsub, -, hgone, horder⟩ := clean_drops_exactly_redundant repeatingMap
  have hget : (repeatingMap.scope "./s/t/").get? "b" = some "./s/../y.js" := by decide +kernel
  have hforms : (repeatingMap.scopes.keys.map Target.normalize).Nodup := by decide +kernel
  have hsame : repeatingMap.SameEntries rearrangedMap :=
    .of_perm (by decide +kernel) (by decide +kernel) (by decide +kernel)
  have haround : repeatingMap.Around "./s/t/" ["./s/"] := by
    have henclosing : repeatingMap.enclosingScopes "./s/t/" = ["./s/"] := by decide +kernel
    exact henclosing ▸ around_enclosingScopes repeatingMap "./s/t/"
  have hkeys : ∀ k ∈ ((repeatingMap.clean.scope "./s/t/").erase "b").keys, k = "a" := by
    intro k hk
    obtain ⟨v, hv⟩ := Dict.mem_keys_iff.1 hk
    rw [Dict.get?_erase, Option.ite_none_left_eq_some] at hv
    have hmem := Dict.mem_keys_of_get? (hsub _ _ _ hv.2)
    have hall : ∀ j ∈ (repeatingMap.scope "./s/t/").keys, j ≠ "b" → j = "a" := by decide +kernel
    exact hall k hmem hv.1
  have hother : Imports.match? (Dict.ofList [("a", "./w.js")]) "b" = none := by decide +kernel
  have hmatch : Imports.match? ((repeatingMap.clean.scope "./s/t/").erase "b") "b" = none :=
    Imports.match?_eq_none_of_subset hother fun k hk => List.mem_singleton.2 (hkeys k hk)
  refine ⟨hget, (hgone _ _ _ hget).2 ⟨by decide +kernel, ["./s/"], "./y.js", haround, ?_, ?_⟩,
    hforms, hsame, horder hforms rearrangedMap hsame⟩
  · rw [Imports.firstTarget?, hmatch]
    decide +kernel
  · decide +kernel

end ImportMap

end ImportAtlas
