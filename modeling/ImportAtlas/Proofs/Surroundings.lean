import ImportAtlas.Proofs.Cleaning
import ImportAtlas.Proofs.Simulation

/-!
# Which entry decides in a package

The map of a build has the scopes of packages, without what cleaning drops, and the top level. So
the entry that decides about a specifier in a module is one that is kept of the scope of a package
around the module, or else one of the top level.

## Summary

* `Project.Reachable`: the packages that the aliases of the project lead to.
* `Project.uncleaned`: the map of a build before it is cleaned.
* `Project.Surrounds`: a package whose scope is around a module.
* `Project.Decides`: the entry that decides about a specifier in a module.

## Main results

* `Project.populates_of_reachable`: a build writes the scopes of all reachable packages.
* `Project.choice?_chain_eq_some_iff`: the first entry that a resolver finds is the one that
  decides.
-/

namespace ImportAtlas

/-! ### Choosing among tables of falling length -/

namespace Imports

variable {specifier key target : String}

theorem choice?_singleton_eq_some_iff {imports : Imports} :
    choice? specifier [imports] = some (key, target) ↔
      imports.match? specifier = some key ∧ imports.get? key = some target := by
  constructor
  · intro h
    obtain ⟨imports', hmem, hget, hmatch⟩ := exists_of_choice? h
    rw [List.mem_singleton.1 hmem] at hget hmatch
    exact ⟨hmatch, hget⟩
  · rintro ⟨hmatch, hget⟩
    rw [choice?_cons_of_match? hmatch, Dict.getD_of_get? hget]

/-- Among the tables of several URLs that of the longest URL with a key decides. -/
theorem choice?_map_eq_some_iff {f : String → Imports} {urls : List String}
    (hurls : urls.Pairwise fun u v => v.length < u.length) :
    choice? specifier (urls.map f) = some (key, target) ↔
      ∃ url ∈ urls, ((f url).match? specifier = some key ∧ (f url).get? key = some target) ∧
        ∀ inner ∈ urls, url.length < inner.length → (f inner).match? specifier = none := by
  induction urls with
  | nil => simp [choice?]
  | cons u urls ih =>
      obtain ⟨hlt, htail⟩ := List.pairwise_cons.1 hurls
      rw [List.map_cons, ← List.singleton_append, choice?_append, Option.or_eq_some_iff, ih htail,
        choice?_singleton_eq_some_iff, choice?_eq_none_iff, List.forall_mem_singleton]
      constructor
      · rintro (hu | ⟨hnone, url, hurl, hentry, hinner⟩)
        · refine ⟨u, List.mem_cons_self, hu, fun inner hmem hlonger => ?_⟩
          rcases List.mem_cons.1 hmem with rfl | hmem
          · omega
          · have := hlt inner hmem
            omega
        · refine ⟨url, List.mem_cons_of_mem _ hurl, hentry, fun inner hmem hlonger => ?_⟩
          rcases List.mem_cons.1 hmem with rfl | hmem
          · exact hnone
          · exact hinner inner hmem hlonger
      · rintro ⟨url, hurl, hentry, hinner⟩
        rcases List.mem_cons.1 hurl with rfl | hurl
        · exact Or.inl hentry
        · have hnone := hinner u List.mem_cons_self (hlt url hurl)
          refine Or.inr ⟨hnone, url, hurl, hentry, fun inner hmem => ?_⟩
          exact hinner inner (List.mem_cons_of_mem _ hmem)

end Imports

namespace Project

variable {p : Project}

/-! ### Packages that are reachable -/

/-- The packages that the mapped aliases of the project lead to, through the mapped aliases of
packages. -/
inductive Reachable (p : Project) : PackageId → Prop
  | root {name : String} {id : PackageId} (hroot : (name, id) ∈ (p.mapped p.roots).entries) :
      Reachable p id
  | dependency {id dep : PackageId} {node : PackageNode} (hid : Reachable p id)
      (hnode : p.installation.graph.node id = .ok node)
      (hdep : dep ∈ (p.dependencies node).values) : Reachable p dep

/-- When all writers have written, every package that is reachable has been reached. -/
theorem Complete.reaches {roots : List (String × PackageId)}
    {packages : List (PackageId × PackageNode)} (hc : p.Complete roots packages) {id : PackageId}
    (hid : p.Reachable id) : p.Reaches id := by
  induction hid with
  | root hroot => exact .root hroot (hc.readable _ (hc.perm_roots.mem_iff.2 hroot))
  | @dependency id dep node _ hnode hdep ih =>
      obtain ⟨node', hnode'⟩ := hc.exists_populates id ih
      obtain rfl := hnode'.node_unique hnode
      exact .dependency ih hnode hnode'.readable hdep

/-- **A build writes the scope of every package that is reachable.** -/
theorem populates_of_reachable (hfault : p.finalBuild.fault? = none) {id : PackageId}
    {node : PackageNode} (hid : p.Reachable id) (hnode : p.installation.graph.node id = .ok node) :
    p.Populates id node := by
  obtain ⟨roots, packages, hc, -⟩ := exists_complete_of_finalBuild hfault
  obtain ⟨node', hnode'⟩ := hc.exists_populates id (hc.reaches hid)
  obtain rfl := hnode'.node_unique hnode
  exact hnode'

/-! ### The map before it is cleaned -/

/-- The map of a build with platform modules, before it is cleaned. -/
def uncleaned (p : Project) : ImportMap :=
  if p.settings.includeBuiltins then Build.addBuiltins p p.finalBuild.map else p.finalBuild.map

/-- The import map of a project is the cleaned map of its build. -/
theorem build_eq_ok_iff_clean {map : ImportMap} :
    p.build = .ok map ↔ p.finalBuild.fault? = none ∧ map = p.uncleaned.clean :=
  build_eq_ok_iff

theorem scopes_uncleaned (p : Project) : p.uncleaned.scopes = p.finalBuild.map.scopes := by
  rw [uncleaned]
  split
  · exact scopes_addBuiltins p p.finalBuild.map
  · rfl

/-- A top-level entry is an entry of an alias, or one for a platform module where there is no
alias. -/
theorem get?_imports_uncleaned (p : Project) (k : String) :
    p.uncleaned.imports.get? k = (p.finalBuild.map.imports.get? k).or
      (if p.settings.includeBuiltins = true ∧ k ∈ Builtin.names then some (p.shimPath k)
        else none) := by
  rw [uncleaned]
  split
  · rename_i h
    rw [get?_imports_addBuiltins]
    simp only [h, true_and]
  · rename_i h
    simp only [h, false_and, if_false, Option.or_none, Bool.false_eq_true]

/-- Every scope of a build is the scope of a package that is reached. -/
theorem exists_of_get?_scopes_uncleaned (hfault : p.finalBuild.fault? = none) {folder : String}
    {entries : Imports} (h : p.uncleaned.scopes.get? folder = some entries) :
    ∃ package : PackageId × PackageNode, p.Populates package.1 package.2 ∧
      (p.scopeOf package.1 package.2).isEmpty = false ∧ folder = p.packageFolder package.1 ∧
        entries = p.scopeOf package.1 package.2 := by
  obtain ⟨roots, packages, hc, hmap⟩ := exists_complete_of_finalBuild hfault
  rw [scopes_uncleaned, hmap, draft] at h
  obtain ⟨package, hpackage, hadded⟩ := List.mem_flatMap.1 (Dict.mem_of_get?_ofList h)
  exact ⟨package, (hc.mem_packages_iff package).1 hpackage, mem_addedScope.1 hadded⟩

/-- The scope of a package stands in the map of a build, or that of another package at its
folder. -/
theorem exists_get?_scopes_uncleaned (hfault : p.finalBuild.fault? = none) {id : PackageId}
    {node : PackageNode} (hp : p.Populates id node) (hne : (p.scopeOf id node).isEmpty = false) :
    ∃ entries, p.uncleaned.scopes.get? (p.packageFolder id) = some entries := by
  obtain ⟨roots, packages, hc, hmap⟩ := exists_complete_of_finalBuild hfault
  rw [scopes_uncleaned, hmap, draft, ← Dict.mem_keys_iff, Dict.mem_keys_ofList]
  have hadded : (p.packageFolder id, p.scopeOf id node) ∈ packages.flatMap p.addedScope :=
    List.mem_flatMap.2 ⟨(id, node), (hc.mem_packages_iff (id, node)).2 hp,
      mem_addedScope.2 ⟨hne, rfl, rfl⟩⟩
  exact List.mem_map.2 ⟨(p.packageFolder id, p.scopeOf id node), hadded, rfl⟩

/-! ### Packages around a module -/

/-- What cleaning keeps of the scope of a package. -/
def kept (p : Project) (package : PackageId × PackageNode) : Imports :=
  p.uncleaned.cleanScope (p.packageFolder package.1) (p.scopeOf package.1 package.2)

/-- A scope of which an entry is kept has entries. -/
theorem isEmpty_scopeOf_of_kept {package : PackageId × PackageNode} {key target : String}
    (h : (p.kept package).get? key = some target) :
    (p.scopeOf package.1 package.2).isEmpty = false := by
  have hget := p.uncleaned.sub_cleanScope _ _ key target h
  cases hempty : (p.scopeOf package.1 package.2).isEmpty with
  | false => rfl
  | true =>
      rw [Dict.isEmpty_iff.1 hempty key] at hget
      exact absurd hget (by simp)

/-- A package whose scope stands at a URL around a module. -/
structure Surrounds (p : Project) (r : Resolver) (parent url : String)
    (package : PackageId × PackageNode) : Prop where
  /-- The build has written the scope of the package. -/
  populates : p.Populates package.1 package.2
  /-- No other package has written over it. -/
  scope_eq : p.uncleaned.scopes.get? (p.packageFolder package.1) =
    some (p.scopeOf package.1 package.2)
  /-- The folder of the package is what counts at the URL. -/
  url_eq : r.scopes.get? url = some (p.packageFolder package.1)
  /-- The module is below the URL. -/
  around : Target.endsInSlash url = true ∧ url.toList <+: parent.toList

/-- The entry that decides about a specifier in a module. -/
inductive Decides (p : Project) (r : Resolver) (parent specifier key target : String) : Prop
  /-- Of the entries that are kept of the innermost package with any for the specifier, the one
  with the longest key. -/
  | scope {url : String} {package : PackageId × PackageNode}
      (surrounds : p.Surrounds r parent url package)
      (match_eq : (p.kept package).match? specifier = some key)
      (get_eq : (p.kept package).get? key = some target)
      (inner : ∀ url' package', p.Surrounds r parent url' package' → url.length < url'.length →
        (p.kept package').match? specifier = none)
  /-- The one of the top level with the longest key, if no package around the module has any. -/
  | top (outside : ∀ url package, p.Surrounds r parent url package →
        (p.kept package).match? specifier = none)
      (match_eq : p.uncleaned.imports.match? specifier = some key)
      (get_eq : p.uncleaned.imports.get? key = some target)

section Resolving

variable {map : ImportMap} {base : String} {relativeFallback : Bool} {r : Resolver}
  {parent url : String}

theorem Surrounds.mem_scopeMatches {package : PackageId × PackageNode}
    (h : p.Surrounds r parent url package) : url ∈ scopeMatches parent r.scopes.keys :=
  ImportAtlas.mem_scopeMatches.2 ⟨h.around, Dict.mem_keys_of_get? h.url_eq⟩

variable (hb : p.build = .ok map) (hr : Resolver.make map base relativeFallback = .ok r)
include hb hr

/-- Every scope around a module is that of a package. -/
theorem exists_surrounds (hurl : url ∈ scopeMatches parent r.scopes.keys) :
    ∃ package, p.Surrounds r parent url package := by
  obtain ⟨hfault, hmap⟩ := build_eq_ok_iff_clean.1 hb
  obtain ⟨haround, hmem⟩ := mem_scopeMatches.1 hurl
  obtain ⟨folder, hfolder⟩ := Dict.mem_keys_iff.1 hmem
  have hclean := (Resolver.of_get?_scopes hr hfolder).1
  rw [hmap] at hclean
  obtain ⟨entries, hentries⟩ := Dict.mem_keys_iff.1 (ImportMap.mem_keys_scopes_of_clean hclean)
  obtain ⟨package, hp, -, rfl, rfl⟩ := exists_of_get?_scopes_uncleaned hfault hentries
  exact ⟨package, hp, hentries, hfolder, haround⟩

/-- The scope at the URL of a package has the entries of the package that are kept. -/
theorem get?_scopeAt_of_surrounds {package : PackageId × PackageNode}
    (h : p.Surrounds r parent url package) (k : String) :
    (r.scopeAt url).get? k = (p.kept package).get? k := by
  obtain ⟨-, hmap⟩ := build_eq_ok_iff_clean.1 hb
  rw [Resolver.scopeAt, h.url_eq, Option.elim_some, Resolver.map_of_make hr, hmap,
    ImportMap.get?_scope_clean, ImportMap.scope, Dict.getD_of_get? h.scope_eq, kept]

theorem match?_scopeAt_of_surrounds {package : PackageId × PackageNode}
    (h : p.Surrounds r parent url package) (specifier : String) :
    (r.scopeAt url).match? specifier = (p.kept package).match? specifier :=
  Imports.match?_congr_get? fun k _ => get?_scopeAt_of_surrounds hb hr h k

/-- **The first entry that a resolver finds is the one that decides.** -/
theorem choice?_chain_eq_some_iff {specifier key target : String} :
    Imports.choice? specifier (r.chain parent) = some (key, target) ↔
      p.Decides r parent specifier key target := by
  obtain ⟨-, hmap⟩ := build_eq_ok_iff_clean.1 hb
  have htop : ∀ k, r.map.imports.get? k = p.uncleaned.imports.get? k := by
    intro k
    rw [Resolver.map_of_make hr, hmap, ImportMap.get?_imports_clean]
  have hmatch : r.map.imports.match? specifier = p.uncleaned.imports.match? specifier :=
    Imports.match?_congr_get? fun k _ => htop k
  have hnone : Imports.choice? specifier ((scopeMatches parent r.scopes.keys).map r.scopeAt) =
      none ↔ ∀ url package, p.Surrounds r parent url package →
        (p.kept package).match? specifier = none := by
    rw [Imports.choice?_eq_none_iff, List.forall_mem_map]
    constructor
    · intro h url package hs
      rw [← match?_scopeAt_of_surrounds hb hr hs]
      exact h url hs.mem_scopeMatches
    · intro h url hurl
      obtain ⟨package, hs⟩ := exists_surrounds hb hr hurl
      rw [match?_scopeAt_of_surrounds hb hr hs, h url package hs]
  -- The chain is the scopes around the module, the longest first, and then the top level.
  rw [Resolver.chain, Imports.choice?_append, Option.or_eq_some_iff, hnone,
    Imports.choice?_map_eq_some_iff (pairwise_scopeMatches parent _),
    Imports.choice?_singleton_eq_some_iff, hmatch, htop]
  constructor
  · rintro (⟨url, hurl, ⟨hkey, htarget⟩, hinner⟩ | ⟨houtside, hkey, htarget⟩)
    · obtain ⟨package, hs⟩ := exists_surrounds hb hr hurl
      rw [match?_scopeAt_of_surrounds hb hr hs] at hkey
      rw [get?_scopeAt_of_surrounds hb hr hs] at htarget
      refine .scope hs hkey htarget fun url' package' hs' hlt => ?_
      rw [← match?_scopeAt_of_surrounds hb hr hs']
      exact hinner url' hs'.mem_scopeMatches hlt
    · exact .top houtside hkey htarget
  · rintro (⟨hs, hkey, htarget, hinner⟩ | ⟨houtside, hkey, htarget⟩)
    · left
      rw [← match?_scopeAt_of_surrounds hb hr hs] at hkey
      rw [← get?_scopeAt_of_surrounds hb hr hs] at htarget
      refine ⟨_, hs.mem_scopeMatches, ⟨hkey, htarget⟩, fun url' hurl' hlt => ?_⟩
      obtain ⟨package', hs'⟩ := exists_surrounds hb hr hurl'
      rw [match?_scopeAt_of_surrounds hb hr hs', hinner url' package' hs' hlt]
    · exact Or.inr ⟨houtside, hkey, htarget⟩

end Resolving

end Project

end ImportAtlas
