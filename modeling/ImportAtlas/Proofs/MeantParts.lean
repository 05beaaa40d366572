import ImportAtlas.Proofs.NamedParts
import ImportAtlas.Proofs.Rearranging

/-!
# What a manifest says and what an import says

The manifest of a package may mean a part of another package by a specifier. The target that the
scope of the package then has for the specifier is looked up among the files that the other package
replaces; an import of the part goes through the entries of the other package. The two lead to one
place exactly when the part is what an import of it reaches: a file in a folder that is replaced as
a whole is not.

## Summary

* `ImportMap.targetIn?`: the target that a map gives to a specifier in the folder of a scope.
* `ImportMap.MeansAlike`: two specifiers have targets of one form there.
* `Project.Undisputed`: only an alias of the package has entries for a specifier.

## Main results

* `ImportMap.exists_targetIn?_clean_iff`: the target for a specifier survives cleaning.
* `Project.means_what_import_means_iff`: when a manifest means by a specifier what an import means.
* `Project.manifest_misses_replaced_folder`: a manifest that means something else.
-/

namespace ImportAtlas

namespace ImportMap

variable {map : ImportMap} {q k v key specifier form : String}

/-! ### Targets in the folder of a scope -/

/-- The target that a map gives to a specifier in the folder of a scope: through the scope itself,
the scopes around it, or the top level. -/
def targetIn? (map : ImportMap) (scopePrefix specifier : String) : Option String :=
  Imports.firstTarget? specifier (map.tables scopePrefix (map.scope scopePrefix))

/-- Two specifiers have targets of one form in the folder of a scope. -/
def MeansAlike (map : ImportMap) (scopePrefix specifier specifier' : String) : Prop :=
  ∃ found found', map.targetIn? scopePrefix specifier = some found ∧
    map.targetIn? scopePrefix specifier' = some found' ∧
      Target.normalize found = Target.normalize found'

theorem enclosing_eq_nil (h : ∀ outer ∈ map.scopes.keys, ¬ Encloses outer q) :
    map.enclosing q = [] := by
  rw [enclosing_eq_map, List.map_eq_nil_iff, List.eq_nil_iff_forall_not_mem]
  intro outer hmem
  obtain ⟨⟨before, after, hkeys, -⟩, henclosed⟩ :=
    ((map.around_enclosingScopes q).mem_iff outer).1 hmem
  refine h outer ?_ henclosed
  rw [hkeys]
  exact List.mem_append_right before List.mem_cons_self

section Outermost

variable (houter : ∀ outer ∈ map.scopes.keys, ¬ Encloses outer q)
include houter

/-- Outside of all other scopes what is kept of the scope decides, or else the top level. -/
theorem targetIn?_clean (specifier : String) : map.clean.targetIn? q specifier =
    if ((map.kept q).match? specifier).isSome then (map.kept q).target? specifier
    else map.imports.target? specifier := by
  have hclean : map.clean.enclosing q = [] :=
    enclosing_eq_nil fun outer hmem => houter outer (mem_keys_scopes_of_clean hmem)
  have hscope : ∀ k, (map.clean.scope q).get? k = (map.kept q).get? k := get?_scope_clean map q
  have himports := get?_imports_clean map
  rw [targetIn?, tables, hclean, List.nil_append, Imports.firstTarget?, Imports.firstTarget?,
    Imports.firstTarget?, Imports.match?_congr_get? fun k _ => hscope k,
    Imports.target?_congr fun k _ => hscope k, Imports.match?_congr_get? fun k _ => himports k,
    Imports.target?_congr fun k _ => himports k]
  cases hm : map.imports.match? specifier with
  | some key => simp
  | none => simp [Imports.target?, hm]

/-- An entry of the scope gives its key a target of the same form, whether it is kept or not. -/
theorem exists_targetIn?_clean_of_get? (hv : (map.scope q).get? k = some v) :
    ∃ found, map.clean.targetIn? q k = some found ∧
      Target.normalize found = Target.normalize v := by
  rw [targetIn?_clean houter]
  by_cases hred : map.Redundant q (map.kept q) k v
  · have hgone : (map.kept q).get? k = none := (get?_cleanScope_eq_none_iff hv).2 hred
    have herase : ∀ j, ((map.kept q).erase k).get? j = (map.kept q).get? j := by
      intro j
      rw [Dict.get?_erase]
      split
      · rename_i hj
        rw [hj, hgone]
      · rfl
    obtain ⟨-, found, hfound, hform⟩ := hred
    refine ⟨found, ?_, hform⟩
    rw [← hfound, fallback?, tables, enclosing_eq_nil houter, List.nil_append,
      Imports.firstTarget?, Imports.firstTarget?, Imports.firstTarget?,
      Imports.match?_congr_get? fun j _ => herase j, Imports.target?_congr fun j _ => herase j]
    cases hm : map.imports.match? k with
    | some key => simp
    | none => simp [Imports.target?, hm]
  · have hkept : (map.kept q).get? k = some v := get?_cleanScope_eq_some_iff.2 ⟨hv, hred⟩
    refine ⟨v, ?_, rfl⟩
    rw [Imports.match?_self (Dict.mem_keys_of_get? hkept), Imports.target?_of_get? hkept]
    rfl

/-- **The target of a specifier keeps its form** if the entry of the scope that decides about it is
kept, or is its own. -/
theorem exists_targetIn?_clean_iff (hmatch : (map.scope q).match? specifier = some key)
    (hkey : key = specifier ∨ key ∈ (map.kept q).keys) :
    (∃ found, map.clean.targetIn? q specifier = some found ∧ Target.normalize found = form) ↔
      ∃ found, (map.scope q).target? specifier = some found ∧ Target.normalize found = form := by
  rcases hkey with rfl | hkey
  · obtain ⟨v, hv⟩ := Dict.mem_keys_iff.1 (Imports.mem_keys_of_match? hmatch)
    obtain ⟨found, hfound, hform⟩ := exists_targetIn?_clean_of_get? houter hv
    simp [hfound, Imports.target?_of_get? hv, hform]
  · obtain ⟨v, hv⟩ := Dict.mem_keys_iff.1 hkey
    have hscope := map.sub_cleanScope q (map.scope q) key v hv
    have hkept : (map.kept q).match? specifier = some key :=
      Imports.match?_of_subset hmatch (fun _ => (map.sub_cleanScope q (map.scope q)).mem_keys) hkey
    have htarget : (map.kept q).target? specifier = (map.scope q).target? specifier := by
      rw [Imports.target?, Imports.target?, hkept, hmatch]
      simp only [Dict.getD_of_get? hv, Dict.getD_of_get? hscope]
    rw [targetIn?_clean houter, hkept, if_pos Option.isSome_some, htarget]

end Outermost

end ImportMap

namespace Project

variable {p : Project} {id dep : PackageId} {node : PackageNode} {part : PackagePart}
  {name key k specifier target : String}

/-! ### What the manifest of a package says -/

/-- **What the scope of a package has for a specifier** by which its manifest means a part of a
package. -/
theorem get?_scopeOf_of_meaning (hentry : (p.manifestOf id).map.get? k = some target)
    (hpart : p.meaning node target = .package part) :
    (p.scopeOf id node).get? k = some (p.partTarget part (p.manifestOf part.id)) := by
  have hmeaning : (Dict.ofList (p.meaningEntries p.manifestOf id node)).get? k =
      some (p.partTarget part (p.manifestOf part.id)) := by
    refine Dict.get?_ofList_of_mem (fun value hvalue => ?_) ?_
    · rw [meaningEntries, List.mem_filterMap] at hvalue
      obtain ⟨⟨specifier, other⟩, hmem, hother⟩ := hvalue
      obtain ⟨_, hvalue, heq⟩ := Option.map_eq_some_iff.1 hother
      obtain ⟨rfl, rfl⟩ := Prod.mk.inj heq
      rw [← Dict.get?_eq_some_iff, hentry] at hmem
      rw [← Option.some.inj hmem, hpart] at hvalue
      exact (Option.some.inj hvalue).symm
    · rw [meaningEntries, List.mem_filterMap]
      refine ⟨(k, target), Dict.get?_eq_some_iff.1 hentry, ?_⟩
      simp only [hpart]
      rfl
  rw [scopeOf, scopeEntries, Dict.get?_ofList_append, hmeaning, Option.some_or]

/-! ### Specifiers that one alias has entries for -/

/-- **Only an alias of a package has entries for a specifier** in the folder of the package. -/
structure Undisputed (p : Project) (id : PackageId) (node : PackageNode) (name specifier : String) :
    Prop where
  /-- No other package writes a scope at its folder. -/
  alone : ∀ other : PackageId × PackageNode, p.Populates other.1 other.2 →
    (p.scopeOf other.1 other.2).isEmpty = false →
      p.packageFolder other.1 = p.packageFolder id → other.1 = id
  /-- No other scope lies around it. -/
  outermost : ∀ outer ∈ p.uncleaned.scopes.keys, ¬ ImportMap.Encloses outer (p.packageFolder id)
  /-- The own name of the package does not touch the specifier. -/
  own : ∀ own ∈ p.ownName? id, ¬ Touches own specifier
  /-- Neither does another alias of the package. -/
  aliases : ∀ named ∈ (p.dependencies node).entries, Touches named.1 specifier → named.1 = name
  /-- Neither does another alias of the project. -/
  roots : ∀ root ∈ (p.mapped p.roots).entries, Touches root.1 specifier → root.1 = name
  /-- The manifest says nothing about the specifier. -/
  meanings : ∀ key ∈ (p.manifestOf id).map.keys, ¬ Covers key specifier
  /-- The specifier is no platform module, unless it is the alias. -/
  builtins : p.settings.includeBuiltins = true → specifier ∈ Builtin.names → specifier = name
  /-- Cleaning keeps the entry of the scope that decides about the specifier, unless it is the
  specifier's own. -/
  kept : ∀ key, (p.scopeOf id node).match? specifier = some key →
    key = specifier ∨ key ∈ (p.kept (id, node)).keys

namespace Undisputed

variable (h : p.Undisputed id node name specifier)
include h

/-- The scope of the package stands in the map before it is cleaned. -/
theorem scope_uncleaned (hfault : p.finalBuild.fault? = none) (hp : p.Populates id node) :
    p.uncleaned.scope (p.packageFolder id) = p.scopeOf id node := by
  have hown : ∀ entries, p.uncleaned.scopes.get? (p.packageFolder id) = some entries →
      entries = p.scopeOf id node ∧ (p.scopeOf id node).isEmpty = false := by
    intro entries hentries
    obtain ⟨⟨other, otherNode⟩, hother, hne, hfolder, rfl⟩ :=
      exists_of_get?_scopes_uncleaned hfault hentries
    obtain rfl : other = id := h.alone (other, otherNode) hother hne hfolder.symm
    obtain rfl := hp.node_unique hother.node_eq
    exact ⟨rfl, hne⟩
  rw [ImportMap.scope, Dict.getD_eq]
  cases hget : p.uncleaned.scopes.get? (p.packageFolder id) with
  | some entries => exact (hown entries hget).1
  | none =>
      cases hempty : (p.scopeOf id node).isEmpty with
      | true => exact Dict.ext (List.isEmpty_iff.1 hempty).symm
      | false =>
          obtain ⟨entries, hentries⟩ := exists_get?_scopes_uncleaned hfault hp hempty
          rw [hget] at hentries
          exact absurd hentries (by simp)

/-- The manifest of the package gives nothing around the specifier a meaning. -/
theorem get?_meaningEntries (hcov : Covers key specifier) :
    (Dict.ofList (p.meaningEntries p.manifestOf id node)).get? key = none := by
  refine Dict.get?_ofList_eq_none fun hkey => ?_
  obtain ⟨⟨_, value⟩, hentry, rfl⟩ := List.mem_map.1 hkey
  rw [meaningEntries, List.mem_filterMap] at hentry
  obtain ⟨⟨other, target⟩, hmem, hvalue⟩ := hentry
  obtain ⟨_, -, heq⟩ := Option.map_eq_some_iff.1 hvalue
  obtain ⟨rfl, rfl⟩ := Prod.mk.inj heq
  exact h.meanings other (List.mem_map_of_mem hmem) hcov

/-- The name of the package has no entries around the specifier. -/
theorem get?_ownEntries (hcov : Covers key specifier) :
    (Dict.ofList (p.ownEntries p.manifestOf id)).get? key = none := by
  refine Dict.get?_ofList_eq_none fun hkey => ?_
  cases hown : p.ownName? id with
  | none =>
      rw [ownName?] at hown
      rw [ownEntries, hown] at hkey
      exact absurd hkey List.not_mem_nil
  | some own =>
      rw [ownEntries_eq hown] at hkey
      exact h.own own hown (touches_of_covers hkey hcov)

variable (hname : (p.dependencies node).get? name = some dep)
include hname

/-- No alias of the package but one has entries around the specifier. -/
theorem eq_of_mem_keys_aliasEntries (hcov : Covers key specifier) {named : String × PackageId}
    (hmem : named ∈ (p.dependencies node).entries)
    (hkey : key ∈ (if p.roots.get? named.1 = some named.2 then []
      else p.packageEntries named.1 named.2 (p.manifestOf named.2)).map Prod.fst) :
    named = (name, dep) := by
  split at hkey
  · exact absurd hkey List.not_mem_nil
  · have heq := h.aliases named hmem (touches_of_covers hkey hcov)
    have hget : (p.dependencies node).get? named.1 = some named.2 := Dict.get?_eq_some_iff.2 hmem
    rw [heq, hname] at hget
    exact Prod.ext heq (Option.some.inj hget).symm

theorem get?_aliasEntries (hcov : Covers key specifier) :
    (Dict.ofList (p.aliasEntries p.manifestOf node)).get? key =
      if p.roots.get? name = some dep then none else (p.entriesAs name dep).get? key := by
  ext value
  rw [aliasEntries, Dict.get?_ofList_flatMap fun a ha b hb hka hkb =>
    (h.eq_of_mem_keys_aliasEntries hname hcov ha hka).trans
      (h.eq_of_mem_keys_aliasEntries hname hcov hb hkb).symm]
  constructor
  · rintro ⟨named, hmem, hvalue⟩
    obtain rfl := h.eq_of_mem_keys_aliasEntries hname hcov hmem
      (Dict.mem_keys_ofList.1 (Dict.mem_keys_of_get? hvalue))
    by_cases hroot : p.roots.get? name = some dep
    · simp [hroot] at hvalue
      exact absurd hvalue (by simp [Dict.get?_ofList])
    · rw [if_neg hroot] at hvalue ⊢
      exact hvalue
  · intro hvalue
    obtain ⟨hroot, hvalue⟩ := Option.ite_none_left_eq_some.1 hvalue
    refine ⟨(name, dep), Dict.get?_eq_some_iff.1 hname, ?_⟩
    rw [if_neg hroot]
    exact hvalue

/-- **What the scope of the package has around the specifier**: the entries of the alias, unless the
project has the alias for the same package. -/
theorem get?_scopeOf (hcov : Covers key specifier) : (p.scopeOf id node).get? key =
    if p.roots.get? name = some dep then none else (p.entriesAs name dep).get? key := by
  rw [scopeOf, scopeEntries, Dict.get?_ofList_append, Dict.get?_ofList_append,
    h.get?_meaningEntries hcov, h.get?_aliasEntries hname hcov, h.get?_ownEntries hcov,
    Option.none_or, Option.or_none]

/-- **What the top level has around the specifier**, if the project has the alias for the same
package. -/
theorem get?_imports (hfault : p.finalBuild.fault? = none) (hroot : p.roots.get? name = some dep)
    (hcov : Covers key specifier) :
    p.uncleaned.imports.get? key = (p.entriesAs name dep).get? key := by
  have hbuiltins : p.isBuiltinsAlias name = false := by
    rw [dependencies, mapped, Dict.get?_filter, Option.filter_eq_some_iff] at hname
    simpa using hname.2
  rw [← get?_mapped_roots hbuiltins] at hroot
  obtain ⟨roots, packages, hcomplete, hdraft⟩ := exists_complete_of_finalBuild hfault
  have hwriter : ∀ root ∈ roots, key ∈ (p.rootEntries root).map Prod.fst → root = (name, dep) := by
    intro root hmem hkey
    have hentry := hcomplete.perm_roots.mem_iff.1 hmem
    have heq := h.roots root hentry (touches_of_covers hkey hcov)
    have hget : (p.mapped p.roots).get? root.1 = some root.2 := Dict.get?_eq_some_iff.2 hentry
    rw [heq, hroot] at hget
    exact Prod.ext heq (Option.some.inj hget).symm
  have hget : p.finalBuild.map.imports.get? key = (p.entriesAs name dep).get? key := by
    ext value
    rw [hdraft, get?_imports_draft fun a ha b hb hka hkb =>
      (hwriter a ha hka).trans (hwriter b hb hkb).symm]
    constructor
    · rintro ⟨root, hmem, hvalue⟩
      obtain rfl := hwriter root hmem (Dict.mem_keys_ofList.1 (Dict.mem_keys_of_get? hvalue))
      exact hvalue
    · intro hvalue
      refine ⟨(name, dep), ?_, hvalue⟩
      rw [hcomplete.perm_roots.mem_iff, ← Dict.get?_eq_some_iff, hroot]
  rw [get?_imports_uncleaned, hget]
  split
  · rename_i hbuiltin
    obtain ⟨hincludes, hmem⟩ := hbuiltin
    have hslash : ∀ module ∈ Builtin.names, Target.endsInSlash module = false := by decide +kernel
    have heq : key = specifier := hcov.resolve_right fun hfolder => by
      rw [hslash key hmem] at hfolder
      exact absurd hfolder.1 Bool.false_ne_true
    rw [heq, h.builtins hincludes (heq ▸ hmem), get?_entriesAs_name, Option.some_or]
  · rw [Option.or_none]

/-- **What an import of the specifier reaches** in the folder of the package: what the entries of
the alias lead to. -/
theorem exists_targetIn?_iff {map : ImportMap} (hb : p.build = .ok map) (hp : p.Populates id node)
    {path? : Option String} (hspecifier : specifier = specifierOf name path?) (form : String) :
    (∃ found, map.targetIn? (p.packageFolder id) specifier = some found ∧
        Target.normalize found = form) ↔
      ∃ found, (p.entriesAs name dep).target? specifier = some found ∧
        Target.normalize found = form := by
  obtain ⟨hfault, rfl⟩ := build_eq_ok_iff_clean.1 hb
  have hstands := h.scope_uncleaned hfault hp
  have hscope : p.uncleaned.kept (p.packageFolder id) = p.kept (id, node) := by
    rw [ImportMap.kept, hstands, Project.kept]
  by_cases hroot : p.roots.get? name = some dep
  · have hnone : (p.kept (id, node)).match? specifier = none := by
      refine Imports.match?_eq_none_iff.2 fun key hkey hcov => ?_
      have hmem := (p.uncleaned.sub_cleanScope _ _).mem_keys hkey
      rw [← Dict.contains_eq_true, Dict.contains_eq_isSome] at hmem
      rw [h.get?_scopeOf hname hcov, if_pos hroot] at hmem
      exact absurd hmem (by simp)
    rw [ImportMap.targetIn?_clean h.outermost, hscope, hnone, if_neg (by simp),
      Imports.target?_congr fun key hcov => h.get?_imports hname hfault hroot hcov]
  · have hget : ∀ key, Covers key specifier →
        (p.scopeOf id node).get? key = (p.entriesAs name dep).get? key := fun key hcov => by
      rw [h.get?_scopeOf hname hcov, if_neg hroot]
    rw [← Imports.target?_congr hget]
    cases hm : (p.scopeOf id node).match? specifier with
    | none =>
        rw [Imports.match?_congr_get? hget, hspecifier] at hm
        exact absurd hm (match?_specifierOf_ne_none p name dep path?)
    | some key =>
        have hmatch : (p.uncleaned.scope (p.packageFolder id)).match? specifier = some key := by
          rw [hstands, hm]
        have hkey : key = specifier ∨ key ∈ (p.uncleaned.kept (p.packageFolder id)).keys := by
          rw [hscope]
          exact h.kept key hm
        rw [ImportMap.exists_targetIn?_clean_iff h.outermost hmatch hkey, hstands]

end Undisputed

/-! ### What a manifest means -/

/-- **When a manifest means what an import means.** By a specifier for which the manifest of a
package gives a part of another package the scope of the package has the target of the part, until
it is cleaned. If only one alias of the package has entries for the part, then the built map gives
the specifier and the part itself targets of one form exactly when the part is what an import of it
reaches; and that the main file is, a file or folder that is replaced as a whole, and a path around
which nothing is replaced. -/
theorem means_what_import_means_iff {map : ImportMap} (hb : p.build = .ok map)
    (hid : p.Reachable id) (hnode : p.installation.graph.node id = .ok node)
    (hentry : (p.manifestOf id).map.get? k = some target)
    (hpart : p.meaning node target = .package part) :
    (p.scopeOf id node).get? k = some (p.partTarget part (p.manifestOf part.id)) ∧
    (∀ name, (p.dependencies node).get? name = some part.id →
      target = specifierOf name part.path? → p.Undisputed id node name target →
        (map.MeansAlike (p.packageFolder id) k target ↔ p.Renders part)) ∧
    (p.Ordinary part.id part.path? → p.Renders part) := by
  have hscope := get?_scopeOf_of_meaning hentry hpart
  refine ⟨hscope, fun name hname htarget h => ?_, renders_of_ordinary⟩
  obtain ⟨hfault, -⟩ := build_eq_ok_iff_clean.1 hb
  have hp := populates_of_reachable hfault hid hnode
  have himport := fun form => h.exists_targetIn?_iff hname hb hp htarget form
  obtain ⟨-, rfl⟩ := build_eq_ok_iff_clean.1 hb
  rw [← h.scope_uncleaned hfault hp] at hscope
  obtain ⟨found, hfound, hform⟩ := ImportMap.exists_targetIn?_clean_of_get? h.outermost hscope
  rw [← renders_iff p name, ← htarget, ← himport, ImportMap.MeansAlike]
  constructor
  · rintro ⟨_, found', hk, htarget', heq⟩
    obtain rfl := Option.some.inj (hfound.symm.trans hk)
    exact ⟨found', htarget', heq.symm.trans hform⟩
  · rintro ⟨found', htarget', heq⟩
    exact ⟨found, found', hfound, htarget', hform.trans heq.symm⟩

/-- No package writes at the folder of another one where all packages are installed and have folders
of their own. -/
theorem eq_of_packageFolder_eq
    (hroots : ∀ root ∈ (p.mapped p.roots).entries, root.2 ∈ p.installation.graph.packages.keys)
    (hdeps : ∀ package ∈ p.installation.graph.packages.entries,
      ∀ dep ∈ (p.dependencies package.2).values, dep ∈ p.installation.graph.packages.keys)
    (hfolders : ∀ other ∈ p.installation.graph.packages.keys,
      p.packageFolder other = p.packageFolder id → other = id)
    {other : PackageId × PackageNode} (hother : p.Populates other.1 other.2)
    (hfolder : p.packageFolder other.1 = p.packageFolder id) : other.1 = id :=
  hfolders other.1 (Reaches.mem_of_closed hroots hdeps hother.reaches) hfolder

/-- A package that means the file `lib/x.js` of another one by `dep-file`. -/
def meaningPackage : PackageNode :=
  described "a" [("dep", ⟨"npm", "dep", "1.0.0"⟩)] [("dep-file", .string "dep/lib/x.js")]

/-- A project with the package, where the other one replaces something. -/
def meaningProject (replacements : List (String × Value)) : Project :=
  installed [("a", ⟨"npm", "a", "1.0.0"⟩)]
    [(⟨"npm", "a", "1.0.0"⟩, meaningPackage),
    (⟨"npm", "dep", "1.0.0"⟩, described "dep" [] replacements)]

/-- The file is replaced by another one. -/
def replacedFile : Project := meaningProject [("./lib/x.js", .string "./dist/x.js")]

theorem undisputed_replacedFile :
    replacedFile.Undisputed ⟨"npm", "a", "1.0.0"⟩ meaningPackage "dep" "dep/lib/x.js" where
  alone _ hother _ hfolder := eq_of_packageFolder_eq (by decide +kernel) (by decide +kernel)
    (by decide +kernel) hother hfolder
  outermost := by decide +kernel
  own := by decide +kernel
  aliases := by decide +kernel
  roots := by decide +kernel
  meanings := by decide +kernel
  builtins h := absurd h (by decide)
  kept key hkey := by
    have hown : (replacedFile.scopeOf ⟨"npm", "a", "1.0.0"⟩ meaningPackage).match? "dep/lib/x.js" =
        some "dep/lib/x.js" := by decide +kernel
    exact Or.inl (Option.some.inj (hkey.symm.trans hown))

/-- A manifest that means a file which is replaced as a whole means what an import of it means. -/
theorem means_what_import_means_replacedFile :
    ∃ map, replacedFile.build = .ok map ∧
      map.MeansAlike (replacedFile.packageFolder ⟨"npm", "a", "1.0.0"⟩) "dep-file"
        "dep/lib/x.js" := by
  have hfault : replacedFile.finalBuild.fault? = none :=
    Option.isNone_iff_eq_none.1 (by decide +kernel)
  have hb := build_eq_ok_iff_clean.2 ⟨hfault, rfl⟩
  have hid : replacedFile.Reachable ⟨"npm", "a", "1.0.0"⟩ :=
    @Reachable.root replacedFile "a" _ (by decide +kernel)
  have hentry : (replacedFile.manifestOf ⟨"npm", "a", "1.0.0"⟩).map.get? "dep-file" =
      some "dep/lib/x.js" := by decide +kernel
  have hpart : replacedFile.meaning meaningPackage "dep/lib/x.js" =
      .package ⟨⟨"npm", "dep", "1.0.0"⟩, some "lib/x.js"⟩ := by decide +kernel
  obtain ⟨-, hiff, hordinary⟩ := means_what_import_means_iff hb hid rfl hentry hpart
  exact ⟨_, hb, (hiff "dep" (by decide +kernel) rfl undisputed_replacedFile).2
    (hordinary (.replaced (by decide) (by decide +kernel)))⟩

/-- The folder of the file is replaced by another one. -/
def replacedFolder : Project := meaningProject [("./lib/", .string "./dist/")]

theorem undisputed_replacedFolder :
    replacedFolder.Undisputed ⟨"npm", "a", "1.0.0"⟩ meaningPackage "dep" "dep/lib/x.js" where
  alone _ hother _ hfolder := eq_of_packageFolder_eq (by decide +kernel) (by decide +kernel)
    (by decide +kernel) hother hfolder
  outermost := by decide +kernel
  own := by decide +kernel
  aliases := by decide +kernel
  roots := by decide +kernel
  meanings := by decide +kernel
  builtins h := absurd h (by decide)
  kept key hkey := by
    have hfolder : (replacedFolder.scopeOf ⟨"npm", "a", "1.0.0"⟩ meaningPackage).match?
        "dep/lib/x.js" = some "dep/lib/" := by decide +kernel
    obtain rfl := Option.some.inj (hkey.symm.trans hfolder)
    right
    rw [kept, ImportMap.cleanScope, ImportMap.keysByLength_of_pairwise (by decide +kernel)]
    decide +kernel

/-- **A manifest may mean something else than an import**: a file in a folder that is replaced is
looked up by its own name, and the folder is not seen. -/
theorem manifest_misses_replaced_folder :
    ∃ map found found', replacedFolder.build = .ok map ∧
      replacedFolder.Reachable ⟨"npm", "a", "1.0.0"⟩ ∧
      replacedFolder.installation.graph.node ⟨"npm", "a", "1.0.0"⟩ = .ok meaningPackage ∧
      (replacedFolder.manifestOf ⟨"npm", "a", "1.0.0"⟩).map.entries =
        [("dep-file", "dep/lib/x.js")] ∧
      meaningPackage.resolve.entries = [("dep", ⟨"npm", "dep", "1.0.0"⟩)] ∧
      replacedFolder.isBuiltinsAlias "dep" = false ∧
      replacedFolder.ownName? ⟨"npm", "a", "1.0.0"⟩ = some "a" ∧
      replacedFolder.roots.entries = [("a", ⟨"npm", "a", "1.0.0"⟩)] ∧
      map.targetIn? (replacedFolder.packageFolder ⟨"npm", "a", "1.0.0"⟩) "dep-file" = some found ∧
      Target.normalize found = "jspm_packages/npm/dep@1.0.0/lib/x.js" ∧
      map.targetIn? (replacedFolder.packageFolder ⟨"npm", "a", "1.0.0"⟩) "dep/lib/x.js" =
        some found' ∧
      Target.normalize found' = "jspm_packages/npm/dep@1.0.0/dist/x.js" ∧
      ¬ map.MeansAlike (replacedFolder.packageFolder ⟨"npm", "a", "1.0.0"⟩) "dep-file"
        "dep/lib/x.js" := by
  have hfault : replacedFolder.finalBuild.fault? = none :=
    Option.isNone_iff_eq_none.1 (by decide +kernel)
  have hb := build_eq_ok_iff_clean.2 ⟨hfault, rfl⟩
  have hid : replacedFolder.Reachable ⟨"npm", "a", "1.0.0"⟩ :=
    @Reachable.root replacedFolder "a" _ (by decide +kernel)
  have hp : replacedFolder.Populates ⟨"npm", "a", "1.0.0"⟩ meaningPackage :=
    populates_of_reachable hfault hid rfl
  have hscope : (replacedFolder.uncleaned.scope
      (replacedFolder.packageFolder ⟨"npm", "a", "1.0.0"⟩)).get? "dep-file" =
        some "./jspm_packages/npm/dep@1.0.0/lib/x.js" := by decide +kernel
  obtain ⟨found, hfound, hform⟩ :=
    ImportMap.exists_targetIn?_clean_of_get? undisputed_replacedFolder.outermost hscope
  have hspecifier : "dep/lib/x.js" = specifierOf "dep" (some "lib/x.js") := by decide
  have hdep : (replacedFolder.dependencies meaningPackage).get? "dep" =
      some ⟨"npm", "dep", "1.0.0"⟩ := by decide +kernel
  obtain ⟨found', hfound', hform'⟩ := (undisputed_replacedFolder.exists_targetIn?_iff hdep hb hp
    hspecifier "jspm_packages/npm/dep@1.0.0/dist/x.js").2
    ⟨"./jspm_packages/npm/dep@1.0.0/dist/x.js", by decide +kernel, by decide +kernel⟩
  have hfile : Target.normalize "./jspm_packages/npm/dep@1.0.0/lib/x.js" =
      "jspm_packages/npm/dep@1.0.0/lib/x.js" := by decide +kernel
  refine ⟨_, found, found', hb, hid, rfl, by decide +kernel, by decide +kernel, by decide +kernel,
    by decide +kernel, by decide +kernel, hfound, hform.trans hfile, hfound', hform', ?_⟩
  rintro ⟨other, other', hother, hother', heq⟩
  rw [Option.some.inj (hother.symm.trans hfound), Option.some.inj (hother'.symm.trans hfound'),
    hform, hform', hfile] at heq
  exact absurd heq (by decide)

end Project

end ImportAtlas
