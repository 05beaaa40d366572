import ImportAtlas.Proofs.FolderUrls
import ImportAtlas.Proofs.Surroundings
import ImportAtlas.Proofs.Writers

/-!
# When packages see their dependencies

The scope of a package leaves out the aliases that the project has for the same packages, since
the top level serves them. But what else stands in the scope comes before the top level: a package
that gives itself the name of an alias which it shares with the project finds itself under it.

## Summary

* `Project.Sees`: an alias leads to the main file of a package.
* `Project.Clear`: nothing but the scope of the package and the top level decides about an alias.
* `Project.Unhidden`: the alias is not the name of the package, or need not be.

## Main results

* `Project.Clear.sees_iff`: an alias that is clear is seen exactly when it is not hidden.
* `Project.sees_dependency_iff`: when a package sees a dependency.
* `Project.package_finds_itself`: a package that does not see a dependency.
-/

namespace ImportAtlas

namespace Project

variable {p : Project}

/-! ### Seeing a package -/

/-- The target for the main file of a package. -/
def mainOf (p : Project) (id : PackageId) : String := p.mainFile id (p.manifestOf id)

/-- **An alias in a module leads to the main file of a package.** -/
def Sees (p : Project) (r : Resolver) (name parent : String) (dep : PackageId) : Prop :=
  ∃ resolution, r.resolve name parent false = .ok resolution ∧
    mapUrl r.base (p.mainOf dep) = .ok resolution.url

/-- An entry for a specifier leads to the main file of a package. -/
def LeadsToMain (p : Project) (base specifier : String) (entry : String × String)
    (dep : PackageId) : Prop :=
  ∃ url, Imports.landing base specifier (some entry) = .ok (some url) ∧
    mapUrl base (p.mainOf dep) = .ok url

/-- **A package is seen exactly when the entry that decides leads to its main file.** -/
theorem sees_iff_decides {map : ImportMap} {base : String} {relativeFallback : Bool} {r : Resolver}
    (hb : p.build = .ok map) (hr : Resolver.make map base relativeFallback = .ok r)
    {name parent : String} (hbare : isBareSpecifier name = true) {dep : PackageId} :
    p.Sees r name parent dep ↔
      ∃ key target, p.Decides r parent name key target ∧
        p.LeadsToMain base name (key, target) dep := by
  have hurl : p.Sees r name parent dep ↔ ∃ url, r.url? name parent false = .ok (some url) ∧
      mapUrl base (p.mainOf dep) = .ok url := by
    rw [Sees, Resolver.base_of_make hr]
    simp only [Resolver.url?_eq_some_iff]
    constructor
    · rintro ⟨resolution, hres, hmain⟩
      exact ⟨_, ⟨resolution, hres, rfl⟩, hmain⟩
    · rintro ⟨url, ⟨resolution, hres, rfl⟩, hmain⟩
      exact ⟨resolution, hres, hmain⟩
  rw [hurl, Resolver.url?_of_bare hbare, Bool.false_and, Bool.and_false, if_neg (by decide),
    Resolver.base_of_make hr]
  simp only [← choice?_chain_eq_some_iff hb hr]
  cases Imports.choice? name (r.chain parent) with
  | none => simp [Imports.landing]
  | some entry =>
      constructor
      · rintro ⟨url, hland, hmain⟩
        exact ⟨entry.1, entry.2, rfl, url, hland, hmain⟩
      · rintro ⟨key, target, hentry, url, hland, hmain⟩
        exact ⟨url, by rw [hentry, hland], hmain⟩

/-! ### Entries for one name -/

/-- Among the entries under which a package is reached by a name, only the first is one for an
alias that no other of them covers. -/
theorem eq_of_mem_packageEntries {prefixName name target : String} {id : PackageId}
    {manifest : Manifest} (hslash : Target.endsInSlash name = false)
    (hplain : ∀ key ∈ (p.packageEntries prefixName id manifest).map Prod.fst, Covers key name →
      key = name)
    (hmem : (name, target) ∈ p.packageEntries prefixName id manifest) :
    prefixName = name ∧ target = p.mainFile id manifest := by
  have hfolder : Target.endsInSlash (prefixName ++ "/") = true := by
    rw [Target.endsInSlash, String.toList_append, show "/".toList = ['/'] from rfl,
      List.getLast?_concat]
    rfl
  have hne : prefixName ++ "/" ≠ name := by
    rintro rfl
    exact absurd hfolder (by rw [hslash]; decide)
  have hnot : ∀ rest, name ≠ prefixName ++ "/" ++ rest := by
    rintro rest rfl
    refine hne (hplain (prefixName ++ "/") ?_ (Or.inr ⟨hfolder, ?_⟩))
    · rw [packageEntries, List.map_cons, List.map_cons]
      exact List.mem_cons_of_mem _ List.mem_cons_self
    · simp only [String.toList_append]
      exact List.prefix_append _ _
  rw [packageEntries, List.mem_cons, List.mem_cons, List.mem_map] at hmem
  rcases hmem with hmain | hbelow | ⟨⟨path, file⟩, -, hpath⟩
  · rw [Prod.mk.injEq] at hmain
    exact ⟨hmain.1.symm, hmain.2⟩
  · rw [Prod.mk.injEq] at hbelow
    exact absurd hbelow.1.symm hne
  · rw [Prod.mk.injEq] at hpath
    exact absurd hpath.1.symm (hnot path)

/-- A name without a slash is covered by itself only. -/
theorem eq_of_covers_of_not_mem {key name : String} (hname : '/' ∉ name.toList)
    (h : Covers key name) : key = name := by
  rcases h with heq | ⟨hslash, hstart⟩
  · exact heq
  · rw [Target.endsInSlash, beq_iff_eq] at hslash
    exact absurd (hstart.subset (List.mem_of_getLast? hslash)) hname

/-! ### Aliases of the project -/

/-- The keys that an alias of the project writes are keys of the top level. -/
theorem mem_keys_imports_uncleaned (hfault : p.finalBuild.fault? = none)
    {root : String × PackageId} (hroot : root ∈ (p.mapped p.roots).entries) {key : String}
    (hkey : key ∈ (p.rootEntries root).map Prod.fst) : key ∈ p.uncleaned.imports.keys := by
  obtain ⟨roots, packages, hcomplete, hdraft⟩ := exists_complete_of_finalBuild hfault
  have hdraftKey : key ∈ p.finalBuild.map.imports.keys := by
    obtain ⟨entry, hentry, rfl⟩ := List.mem_map.1 hkey
    rw [hdraft, draft, Dict.mem_keys_ofList]
    exact List.mem_map_of_mem
      (List.mem_flatMap.2 ⟨root, hcomplete.perm_roots.mem_iff.2 hroot, hentry⟩)
  obtain ⟨target, htarget⟩ := Dict.mem_keys_iff.1 hdraftKey
  rw [Dict.mem_keys_iff, get?_imports_uncleaned, htarget]
  exact ⟨target, Option.some_or⟩

/-- **What the top level has for an alias of the project** that no other one writes anything else
for. -/
theorem get?_imports_of_sole (hfault : p.finalBuild.fault? = none) {name : String}
    {id : PackageId} (hroot : (p.mapped p.roots).get? name = some id)
    (hsole : ∀ root ∈ (p.mapped p.roots).entries, ∀ target,
      (name, target) ∈ p.rootEntries root → target = p.mainOf id) :
    p.uncleaned.imports.get? name = some (p.mainOf id) := by
  obtain ⟨roots, packages, hcomplete, hdraft⟩ := exists_complete_of_finalBuild hfault
  have hmem : (name, id) ∈ roots := by
    rw [hcomplete.perm_roots.mem_iff, ← Dict.get?_eq_some_iff, hroot]
  have huniq : ∀ target, (name, target) ∈ roots.flatMap p.rootEntries → target = p.mainOf id := by
    intro target htarget
    obtain ⟨root, hroot, hentry⟩ := List.mem_flatMap.1 htarget
    exact hsole root (hcomplete.perm_roots.mem_iff.1 hroot) target hentry
  have hget : p.finalBuild.map.imports.get? name = some (p.mainOf id) := by
    rw [hdraft, draft]
    exact Dict.get?_ofList_of_mem huniq
      (List.mem_flatMap.2 ⟨(name, id), hmem, List.mem_cons_self⟩)
  rw [get?_imports_uncleaned, hget, Option.some_or]

/-! ### Aliases that are clear -/

/-- **Nothing but the scope of a package and the top level decides about an alias in a module**,
and these only by an entry for the alias itself. -/
structure Clear (p : Project) (base parent : String) (id : PackageId) (node : PackageNode)
    (name : String) : Prop where
  /-- No other package has a scope around the module. -/
  alone : ∀ other : PackageId × PackageNode, p.Populates other.1 other.2 →
    (p.scopeOf other.1 other.2).isEmpty = false →
      ∀ url, mapUrl base (p.packageFolder other.1) = .ok url → url.toList <+: parent.toList →
        other.1 = id
  /-- Cleaning finds no scope around that of the package. -/
  outermost : ∀ other : PackageId × PackageNode, p.Populates other.1 other.2 →
    (p.scopeOf other.1 other.2).isEmpty = false →
      ¬ (Target.normalize (p.packageFolder other.1)).toList <+:
        (ImportMap.dropLastChar (Target.normalize (p.packageFolder id))).toList
  /-- The alias is not one of a folder. -/
  not_folder : Target.endsInSlash name = false
  /-- No folder among the keys holds the alias. -/
  plain : ∀ key, key ∈ (p.scopeOf id node).keys ∨ key ∈ p.uncleaned.imports.keys →
    Covers key name → key = name

/-- The name that a package gives itself. -/
def ownName? (p : Project) (id : PackageId) : Option String :=
  Manifest.nonempty? ((p.manifestOf id).name?.getD "")

/-- **A dependency is not hidden from a package**, if its alias is clear. -/
structure Unhidden (p : Project) (base : String) (id : PackageId) (name : String)
    (dep : PackageId) : Prop where
  /-- The main file of the dependency is somewhere. -/
  exists_url : ∃ url, mapUrl base (p.mainOf dep) = .ok url
  /-- An alias that the project has for the dependency, too, is not the name of the package; or
  else the main files of the two are at one place. -/
  own : p.roots.get? name = some dep → p.ownName? id = some name →
    Target.normalize (p.mainOf dep) = Target.normalize (p.mainOf id) ∨
      mapUrl base (p.mainOf id) = mapUrl base (p.mainOf dep)
  /-- What the top level has for the alias is at the place of the main file, if it looks alike. -/
  top : ∀ target, p.uncleaned.imports.get? name = some target →
    Target.normalize target = Target.normalize (p.mainOf dep) →
      mapUrl base target = mapUrl base (p.mainOf dep)

/-- The entries for the name that a package gives itself. -/
theorem ownEntries_eq {id : PackageId} {own : String} (h : p.ownName? id = some own) :
    p.ownEntries p.manifestOf id = p.packageEntries own id (p.manifestOf id) := by
  rw [ownName?] at h
  rw [ownEntries, h]

/-- The entries for the aliases of a package are those of the aliases that the project does not
have for the same packages. -/
theorem mem_aliasEntries {manifestOf : PackageId → Manifest} {node : PackageNode}
    {entry : String × String} :
    entry ∈ p.aliasEntries manifestOf node ↔ ∃ named ∈ (p.dependencies node).entries,
      p.roots.get? named.1 ≠ some named.2 ∧
        entry ∈ p.packageEntries named.1 named.2 (manifestOf named.2) := by
  rw [aliasEntries, List.mem_flatMap]
  refine exists_congr fun named => and_congr_right fun _ => ?_
  by_cases hroot : p.roots.get? named.1 = some named.2
  · simp [hroot]
  · simp [hroot]

section Clear

variable {base parent name : String} {id dep : PackageId} {node : PackageNode}

/-- The keys that writers of a clear alias write lie next to it. -/
theorem Clear.plain_of_sublist (hc : p.Clear base parent id node name) {prefixName : String}
    {other : PackageId} {manifest : Manifest}
    (hsub : ∀ entry ∈ p.packageEntries prefixName other manifest,
      entry ∈ p.ownEntries p.manifestOf id ++ p.aliasEntries p.manifestOf node ++
        p.meaningEntries p.manifestOf id node) :
    ∀ key ∈ (p.packageEntries prefixName other manifest).map Prod.fst, Covers key name →
      key = name := by
  intro key hkey
  obtain ⟨entry, hentry, rfl⟩ := List.mem_map.1 hkey
  refine hc.plain entry.1 (Or.inl ?_)
  rw [scopeOf, scopeEntries, Dict.mem_keys_ofList]
  exact List.mem_map_of_mem (hsub entry hentry)

theorem get?_dependencies (hbuiltins : p.isBuiltinsAlias name = false) :
    (p.dependencies node).get? name = node.resolve.get? name := by
  rw [dependencies, mapped, Dict.get?_filter, hbuiltins]
  cases node.resolve.get? name <;> rfl

theorem get?_mapped_roots (hbuiltins : p.isBuiltinsAlias name = false) :
    (p.mapped p.roots).get? name = p.roots.get? name := by
  rw [mapped, Dict.get?_filter, hbuiltins]
  cases p.roots.get? name <;> rfl

/-- An entry for a clear alias among those for the aliases of the package is its own. -/
theorem Clear.eq_of_mem_aliasEntries (hc : p.Clear base parent id node name)
    (hdep : (p.dependencies node).get? name = some dep) {target : String}
    (hmem : (name, target) ∈ p.aliasEntries p.manifestOf node) :
    p.roots.get? name ≠ some dep ∧ target = p.mainOf dep := by
  obtain ⟨⟨other, otherId⟩, hother, hroot, hentry⟩ := mem_aliasEntries.1 hmem
  have hsub : ∀ entry ∈ p.packageEntries other otherId (p.manifestOf otherId),
      entry ∈ p.ownEntries p.manifestOf id ++ p.aliasEntries p.manifestOf node ++
        p.meaningEntries p.manifestOf id node := by
    intro entry hmem
    refine List.mem_append_left _ (List.mem_append_right _ ?_)
    exact mem_aliasEntries.2 ⟨(other, otherId), hother, hroot, hmem⟩
  obtain ⟨rfl, rfl⟩ := eq_of_mem_packageEntries hc.not_folder (hc.plain_of_sublist hsub) hentry
  have hid : otherId = dep := by
    rw [← Dict.get?_eq_some_iff, hdep] at hother
    exact (Option.some.inj hother).symm
  subst hid
  exact ⟨hroot, rfl⟩

/-- An entry for a clear alias among those for the own name is that of the main file. -/
theorem Clear.eq_of_mem_ownEntries (hc : p.Clear base parent id node name) {target : String}
    (hmem : (name, target) ∈ p.ownEntries p.manifestOf id) :
    p.ownName? id = some name ∧ target = p.mainOf id := by
  cases hown : p.ownName? id with
  | none =>
      rw [ownName?] at hown
      rw [ownEntries, hown] at hmem
      exact absurd hmem List.not_mem_nil
  | some own =>
      rw [ownEntries_eq hown] at hmem
      have hsub : ∀ entry ∈ p.packageEntries own id (p.manifestOf id),
          entry ∈ p.ownEntries p.manifestOf id ++ p.aliasEntries p.manifestOf node ++
            p.meaningEntries p.manifestOf id node := by
        intro entry hentry
        rw [ownEntries_eq hown]
        exact List.mem_append_left _ (List.mem_append_left _ hentry)
      obtain ⟨rfl, rfl⟩ := eq_of_mem_packageEntries hc.not_folder (hc.plain_of_sublist hsub) hmem
      exact ⟨rfl, rfl⟩

/-- A list of entries that has no entry for an alias, or only one. -/
theorem get?_ofList_of_unique {entries : List (String × String)} {holds : Prop} [Decidable holds]
    {v : String} (hmem : holds → (name, v) ∈ entries)
    (huniq : ∀ target, (name, target) ∈ entries → holds ∧ target = v) :
    (Dict.ofList entries).get? name = if holds then some v else none := by
  split
  · rename_i h
    exact Dict.get?_ofList_of_mem (fun target ht => (huniq target ht).2) (hmem h)
  · rename_i h
    refine Dict.get?_ofList_eq_none fun hkey => ?_
    obtain ⟨⟨key, target⟩, ht, rfl⟩ := List.mem_map.1 hkey
    exact h (huniq target ht).1

/-- **What the scope of a package has for a clear alias**: the dependency, unless the project has
the alias for it too, and then the package itself, if that is its name. -/
theorem Clear.get?_scopeOf (hc : p.Clear base parent id node name)
    (hdep : (p.dependencies node).get? name = some dep)
    (hmap : name ∉ (p.manifestOf id).map.keys) :
    (p.scopeOf id node).get? name =
      if p.roots.get? name ≠ some dep then some (p.mainOf dep)
      else if p.ownName? id = some name then some (p.mainOf id) else none := by
  have hmeaning : (Dict.ofList (p.meaningEntries p.manifestOf id node)).get? name = none := by
    refine Dict.get?_ofList_eq_none fun hkey => hmap ?_
    obtain ⟨⟨key, value⟩, hentry, rfl⟩ := List.mem_map.1 hkey
    rw [meaningEntries, List.mem_filterMap] at hentry
    obtain ⟨⟨specifier, target⟩, hmem, hvalue⟩ := hentry
    obtain ⟨_, -, heq⟩ := Option.map_eq_some_iff.1 hvalue
    obtain rfl : specifier = key := congrArg Prod.fst heq
    exact List.mem_map.2 ⟨(specifier, target), hmem, rfl⟩
  have halias := get?_ofList_of_unique (v := p.mainOf dep)
    (fun hroot : p.roots.get? name ≠ some dep => mem_aliasEntries.2 ⟨(name, dep),
      Dict.get?_eq_some_iff.1 hdep, hroot, List.mem_cons_self⟩)
    (fun target ht => hc.eq_of_mem_aliasEntries hdep ht)
  have hown := get?_ofList_of_unique (v := p.mainOf id)
    (fun hname : p.ownName? id = some name => by rw [ownEntries_eq hname]; exact List.mem_cons_self)
    (fun target ht => hc.eq_of_mem_ownEntries ht)
  rw [scopeOf, scopeEntries, Dict.get?_ofList_append, Dict.get?_ofList_append, hmeaning, halias,
    hown, Option.none_or]
  split <;> rfl

/-- **What the top level has for a clear alias of the project.** -/
theorem Clear.get?_imports (hfault : p.finalBuild.fault? = none)
    (hc : p.Clear base parent id node name) (hbuiltins : p.isBuiltinsAlias name = false)
    (hroot : p.roots.get? name = some dep) :
    p.uncleaned.imports.get? name = some (p.mainOf dep) := by
  rw [← get?_mapped_roots hbuiltins] at hroot
  refine get?_imports_of_sole hfault hroot fun root hmem target hentry => ?_
  have hplain : ∀ key ∈ (p.rootEntries root).map Prod.fst, Covers key name → key = name :=
    fun key hkey => hc.plain key (Or.inr (mem_keys_imports_uncleaned hfault hmem hkey))
  obtain ⟨hname, rfl⟩ := eq_of_mem_packageEntries hc.not_folder hplain hentry
  have hother : (p.mapped p.roots).get? name = some root.2 := by
    rw [Dict.get?_eq_some_iff, ← hname]
    exact hmem
  rw [hroot] at hother
  rw [← Option.some.inj hother, mainOf]

/-- A table in which only the alias itself covers it has no key for it, or the alias. -/
theorem match?_eq_of_plain {imports : Imports}
    (h : ∀ key ∈ imports.keys, Covers key name → key = name) :
    imports.match? name = if (imports.get? name).isSome then some name else none := by
  cases hget : imports.get? name with
  | some target => exact Imports.match?_self (Dict.mem_keys_of_get? hget)
  | none =>
      refine Imports.match?_eq_none_iff.2 fun key hkey hcov => ?_
      rw [h key hkey hcov] at hkey
      exact Dict.get?_eq_none_iff.1 hget hkey

/-- Cleaning finds no scope around that of the package of a clear alias. -/
theorem Clear.enclosing_eq (hfault : p.finalBuild.fault? = none)
    (hc : p.Clear base parent id node name) : p.uncleaned.enclosing (p.packageFolder id) = [] := by
  rw [ImportMap.enclosing, List.map_eq_nil_iff, List.eq_nil_iff_forall_not_mem]
  intro form hform
  obtain ⟨⟨-, hstart⟩, hmem⟩ := mem_scopeMatches.1 hform
  rw [ImportMap.scopeForms, Dict.mem_keys_ofList] at hmem
  obtain ⟨note, hnote, hnoteForm⟩ := List.mem_map.1 hmem
  obtain ⟨folder, hfolder, rfl⟩ := List.mem_map.1 hnote
  obtain ⟨entries, hentries⟩ := Dict.mem_keys_iff.1 hfolder
  obtain ⟨other, hother, hne, hname, -⟩ := exists_of_get?_scopes_uncleaned hfault hentries
  simp only [hname] at hnoteForm
  rw [← hnoteForm] at hstart
  exact hc.outermost other hother hne hstart

/-- Without its entry in the scope, a clear alias has what the top level has. -/
theorem Clear.fallback?_eq (hfault : p.finalBuild.fault? = none)
    (hc : p.Clear base parent id node name) {entries : Imports}
    (hsub : Imports.Sub entries (p.scopeOf id node)) :
    p.uncleaned.fallback? (p.packageFolder id) entries name = p.uncleaned.imports.get? name := by
  have hscope : Imports.match? (entries.erase name) name = none := by
    refine Imports.match?_eq_none_iff.2 fun key hkey hcov => ?_
    obtain ⟨target, htarget⟩ := Dict.mem_keys_iff.1 hkey
    rw [Dict.get?_erase] at htarget
    split at htarget
    · exact absurd htarget (by simp)
    · rename_i hne
      exact hne (hc.plain key (Or.inl (hsub.mem_keys (Dict.mem_keys_of_get? htarget))) hcov)
  have htop := match?_eq_of_plain fun key hkey => hc.plain key (Or.inr hkey)
  rw [ImportMap.fallback?, ImportMap.tables, hc.enclosing_eq hfault, List.nil_append,
    Imports.firstTarget?, hscope, Imports.firstTarget?, Imports.firstTarget?, htop]
  cases hget : p.uncleaned.imports.get? name with
  | none => rfl
  | some target => simp [Imports.target?_of_get? hget]

/-- **What is kept of the scope for a clear alias**: what the scope has, if the top level has
nothing of the same form. -/
theorem Clear.get?_kept (hfault : p.finalBuild.fault? = none)
    (hc : p.Clear base parent id node name) (hbare : isBareSpecifier name = true)
    {target : String} :
    (p.kept (id, node)).get? name = some target ↔ (p.scopeOf id node).get? name = some target ∧
      ∀ found, p.uncleaned.imports.get? name = some found →
        Target.normalize found ≠ Target.normalize target := by
  have hrel : Target.isRelative name = false := by
    rw [isBareSpecifier, isPathSpecifier, Bool.and_eq_true, Bool.not_eq_true', Bool.or_eq_false_iff]
      at hbare
    exact hbare.1.1
  rw [kept, ImportMap.get?_cleanScope_eq_some_iff, ImportMap.Redundant,
    hc.fallback?_eq hfault (p.uncleaned.sub_cleanScope _ _)]
  simp [hrel]

/-! ### What decides about a clear alias -/

/-- A module is inside the folder of a package: its URL goes on where that of the folder ends. -/
def Inside (p : Project) (base parent : String) (id : PackageId) : Prop :=
  ∃ url, mapUrl base (p.packageFolder id) = .ok url ∧ url.toList <+: parent.toList

section Deciding

variable {map : ImportMap} {relativeFallback : Bool} {r : Resolver}
  (hb : p.build = .ok map) (hr : Resolver.make map base relativeFallback = .ok r)
  (hc : p.Clear base parent id node name)
include hb hr hc

omit hb in
/-- A package around the module with an entry for the alias is the one that the alias is clear
in. -/
theorem Clear.eq_of_surrounds (hp : p.Populates id node) {url : String}
    {package : PackageId × PackageNode} (hs : p.Surrounds r parent url package) {key : String}
    (hkey : (p.kept package).match? name = some key) : package = (id, node) := by
  obtain ⟨target, htarget⟩ := Dict.mem_keys_iff.1 (Imports.mem_keys_of_match? hkey)
  obtain ⟨-, hurl⟩ := Resolver.of_get?_scopes hr hs.url_eq
  have hid := hc.alone package hs.populates (isEmpty_scopeOf_of_kept htarget) url hurl hs.around.2
  have hnode := hs.populates.node_eq
  rw [hid] at hnode
  exact Prod.ext hid (hp.node_unique hnode).symm

/-- A package with an entry for the alias stands around the modules inside its folder. -/
theorem Clear.exists_surrounds (hp : p.Populates id node) (hin : p.Inside base parent id)
    {target : String} (hkept : (p.kept (id, node)).get? name = some target) :
    ∃ url, p.Surrounds r parent url (id, node) := by
  obtain ⟨hfault, hmap⟩ := build_eq_ok_iff_clean.1 hb
  obtain ⟨url, hurl, hstart⟩ := hin
  have hown : ∀ folder entries, p.uncleaned.scopes.get? folder = some entries →
      mapUrl base folder = .ok url → folder = p.packageFolder id ∧ entries = p.scopeOf id node := by
    intro folder entries hentries hfolder
    obtain ⟨other, hother, hotherNe, rfl, rfl⟩ := exists_of_get?_scopes_uncleaned hfault hentries
    have hid := hc.alone other hother hotherNe url hfolder hstart
    have hnode := hother.node_eq
    rw [hid] at hnode
    rw [hid, hp.node_unique hnode]
    exact ⟨rfl, rfl⟩
  have hne := isEmpty_scopeOf_of_kept hkept
  obtain ⟨entries, hentries⟩ := exists_get?_scopes_uncleaned hfault hp hne
  obtain ⟨-, rfl⟩ := hown _ entries hentries hurl
  have hclean : p.packageFolder id ∈ map.scopes.keys := by
    rw [hmap]
    refine ImportMap.mem_keys_scopes_clean (k := name) (v := target) ?_
    rw [ImportMap.scope, Dict.getD_of_get? hentries]
    exact hkept
  obtain ⟨folder, hfolder⟩ := Dict.mem_keys_iff.1
    ((Resolver.mem_keys_scopes_iff hr).2 ⟨_, hclean, hurl⟩)
  obtain ⟨hmem, hfolderUrl⟩ := Resolver.of_get?_scopes hr hfolder
  rw [hmap] at hmem
  obtain ⟨entries, hstands⟩ := Dict.mem_keys_iff.1 (ImportMap.mem_keys_scopes_of_clean hmem)
  obtain ⟨rfl, -⟩ := hown folder entries hstands hfolderUrl
  exact ⟨url, hp, hentries, hfolder, endsInSlash_of_mapUrl_packageFolder hurl, hstart⟩

/-- **What decides about a clear alias** is what is kept of the scope for it, or else what the top
level has for it. -/
theorem Clear.decides_iff (hp : p.Populates id node) (hin : p.Inside base parent id)
    {key target : String} :
    p.Decides r parent name key target ↔ key = name ∧
      ((p.kept (id, node)).get? name).or (p.uncleaned.imports.get? name) = some target := by
  have hkept := @match?_eq_of_plain name (p.kept (id, node)) fun key hkey =>
    hc.plain key (Or.inl ((p.uncleaned.sub_cleanScope _ _).mem_keys hkey))
  have htop := match?_eq_of_plain fun key hkey => hc.plain key (Or.inr hkey)
  constructor
  · rintro (⟨hs, hkey, htarget, -⟩ | ⟨houtside, hkey, htarget⟩)
    · obtain rfl := hc.eq_of_surrounds hr hp hs hkey
      rw [hkept] at hkey
      obtain ⟨-, hname⟩ := Option.ite_none_right_eq_some.1 hkey
      obtain rfl : name = key := Option.some.inj hname
      exact ⟨rfl, by rw [htarget, Option.some_or]⟩
    · have hnone : (p.kept (id, node)).get? name = none := by
        by_contra hsome
        obtain ⟨target', htarget'⟩ := Option.ne_none_iff_exists'.1 hsome
        obtain ⟨url, hs⟩ := hc.exists_surrounds hb hr hp hin htarget'
        have hno := houtside url _ hs
        rw [hkept, htarget'] at hno
        exact absurd hno (by simp)
      rw [htop] at hkey
      obtain ⟨-, hname⟩ := Option.ite_none_right_eq_some.1 hkey
      obtain rfl : name = key := Option.some.inj hname
      exact ⟨rfl, by rw [hnone, Option.none_or, htarget]⟩
  · rintro ⟨rfl, htarget⟩
    rcases Option.or_eq_some_iff.1 htarget with hget | ⟨hnone, hget⟩
    · obtain ⟨url, hs⟩ := hc.exists_surrounds hb hr hp hin hget
      refine .scope hs (by rw [hkept, hget]; rfl) hget fun url' package' hs' hlt => ?_
      by_contra hsome
      obtain ⟨key', hkey'⟩ := Option.ne_none_iff_exists'.1 hsome
      obtain rfl := hc.eq_of_surrounds hr hp hs' hkey'
      have hurl := (Resolver.of_get?_scopes hr hs.url_eq).2
      rw [(Resolver.of_get?_scopes hr hs'.url_eq).2] at hurl
      rw [Except.ok.inj hurl] at hlt
      omega
    · refine .top (fun url package hs => ?_) (by rw [htop, hget]; rfl) hget
      by_contra hsome
      obtain ⟨key', hkey'⟩ := Option.ne_none_iff_exists'.1 hsome
      obtain rfl := hc.eq_of_surrounds hr hp hs hkey'
      rw [hkept, hnone] at hkey'
      exact absurd hkey' (by simp)

/-- A clear alias is seen exactly when what is found for it is at the place of the main file. -/
theorem Clear.sees_iff_of_found (hp : p.Populates id node) (hin : p.Inside base parent id)
    (hbare : isBareSpecifier name = true) {found : String}
    (hfound : ((p.kept (id, node)).get? name).or (p.uncleaned.imports.get? name) = some found) :
    p.Sees r name parent dep ↔ (∃ url, mapUrl base (p.mainOf dep) = .ok url) ∧
      mapUrl base found = mapUrl base (p.mainOf dep) := by
  rw [sees_iff_decides hb hr hbare]
  constructor
  · rintro ⟨key, target, hdecides, url, hland, hmain⟩
    obtain ⟨rfl, htarget⟩ := (hc.decides_iff hb hr hp hin).1 hdecides
    rw [hfound] at htarget
    obtain rfl : found = target := Option.some.inj htarget
    rw [Imports.landing_self] at hland
    refine ⟨⟨url, hmain⟩, ?_⟩
    cases htarget : mapUrl base found with
    | error e => exact absurd hland (by simp [htarget, Except.map])
    | ok url' =>
        obtain rfl : url' = url := by simpa [htarget, Except.map] using hland
        exact hmain.symm
  · rintro ⟨⟨url, hmain⟩, heq⟩
    refine ⟨name, found, (hc.decides_iff hb hr hp hin).2 ⟨rfl, hfound⟩, url, ?_, hmain⟩
    rw [Imports.landing_self, heq, hmain]
    rfl

end Deciding

/-- Nothing is kept for an alias that the scope does not have, or for which the top level has a
target of the same form. -/
theorem Clear.get?_kept_eq_none (hfault : p.finalBuild.fault? = none)
    (hc : p.Clear base parent id node name) (hbare : isBareSpecifier name = true)
    (h : ∀ target, (p.scopeOf id node).get? name = some target →
      ∃ found, p.uncleaned.imports.get? name = some found ∧
        Target.normalize found = Target.normalize target) :
    (p.kept (id, node)).get? name = none := by
  refine Option.eq_none_iff_forall_ne_some.2 fun target hget => ?_
  obtain ⟨hscope, hno⟩ := (hc.get?_kept hfault hbare).1 hget
  obtain ⟨found, hfound, hform⟩ := h target hscope
  exact hno found hfound hform

section Seeing

variable {map : ImportMap} {relativeFallback : Bool} {r : Resolver}
  (hb : p.build = .ok map) (hr : Resolver.make map base relativeFallback = .ok r)
  (hc : p.Clear base parent id node name) (hp : p.Populates id node)
  (hin : p.Inside base parent id) (hname : node.resolve.get? name = some dep)
  (hbuiltins : p.isBuiltinsAlias name = false) (hbare : isBareSpecifier name = true)
  (hmap : name ∉ (p.manifestOf id).map.keys)
include hb hr hc hp hin hname hbuiltins hbare hmap

/-- An alias that the project has for the dependency, too: the package's own name may hide it. -/
theorem Clear.sees_iff_of_shared (hroot : p.roots.get? name = some dep) :
    p.Sees r name parent dep ↔ p.Unhidden base id name dep := by
  obtain ⟨hfault, -⟩ := build_eq_ok_iff_clean.1 hb
  have hscope := hc.get?_scopeOf ((get?_dependencies hbuiltins).trans hname) hmap
  rw [if_neg (not_not.2 hroot)] at hscope
  have htop := hc.get?_imports hfault hbuiltins hroot
  have htopUrl : ∀ target, p.uncleaned.imports.get? name = some target →
      Target.normalize target = Target.normalize (p.mainOf dep) →
        mapUrl base target = mapUrl base (p.mainOf dep) := by
    intro target htarget _
    rw [htop] at htarget
    rw [Option.some.inj htarget]
  -- The own name of the package has an entry of its own only if the targets look different.
  by_cases hown : p.ownName? id = some name ∧
      Target.normalize (p.mainOf dep) ≠ Target.normalize (p.mainOf id)
  · obtain ⟨hown, hform⟩ := hown
    rw [if_pos hown] at hscope
    have hkept : (p.kept (id, node)).get? name = some (p.mainOf id) := by
      refine (hc.get?_kept hfault hbare).2 ⟨hscope, fun found hfound => ?_⟩
      rw [htop] at hfound
      rwa [← Option.some.inj hfound]
    rw [hc.sees_iff_of_found hb hr hp hin hbare (by rw [hkept, Option.some_or])]
    constructor
    · rintro ⟨hurl, heq⟩
      exact ⟨hurl, fun _ _ => Or.inr heq, htopUrl⟩
    · rintro ⟨hurl, hsame, -⟩
      exact ⟨hurl, (hsame hroot hown).resolve_left hform⟩
  · have hkept : (p.kept (id, node)).get? name = none := by
      refine hc.get?_kept_eq_none hfault hbare fun target htarget => ⟨_, htop, ?_⟩
      rw [hscope] at htarget
      obtain ⟨hname, heq⟩ := Option.ite_none_right_eq_some.1 htarget
      rw [← Option.some.inj heq]
      by_contra hform
      exact hown ⟨hname, hform⟩
    rw [hc.sees_iff_of_found hb hr hp hin hbare (by rw [hkept, Option.none_or, htop])]
    constructor
    · rintro ⟨hurl, -⟩
      refine ⟨hurl, fun _ hname => Or.inl ?_, htopUrl⟩
      by_contra hform
      exact hown ⟨hname, hform⟩
    · rintro ⟨hurl, -, -⟩
      exact ⟨hurl, rfl⟩

/-- An alias that the project has not for the dependency: the scope has it, unless it looks like
what the top level has. -/
theorem Clear.sees_iff_of_not_shared (hroot : p.roots.get? name ≠ some dep) :
    p.Sees r name parent dep ↔ p.Unhidden base id name dep := by
  obtain ⟨hfault, -⟩ := build_eq_ok_iff_clean.1 hb
  have hscope := hc.get?_scopeOf ((get?_dependencies hbuiltins).trans hname) hmap
  rw [if_pos hroot] at hscope
  by_cases htop : ∃ found, p.uncleaned.imports.get? name = some found ∧
      Target.normalize found = Target.normalize (p.mainOf dep)
  · have hkept : (p.kept (id, node)).get? name = none := by
      refine hc.get?_kept_eq_none hfault hbare fun target htarget => ?_
      rw [hscope] at htarget
      rwa [← Option.some.inj htarget]
    obtain ⟨found, hfound, hform⟩ := htop
    rw [hc.sees_iff_of_found hb hr hp hin hbare (by rw [hkept, Option.none_or, hfound])]
    constructor
    · rintro ⟨hurl, heq⟩
      refine ⟨hurl, fun h => absurd h hroot, fun target htarget _ => ?_⟩
      rw [hfound] at htarget
      rw [← Option.some.inj htarget, heq]
    · rintro ⟨hurl, -, hsame⟩
      exact ⟨hurl, hsame found hfound hform⟩
  · have hkept : (p.kept (id, node)).get? name = some (p.mainOf dep) :=
      (hc.get?_kept hfault hbare).2 ⟨hscope, fun found hfound hform => htop ⟨found, hfound, hform⟩⟩
    rw [hc.sees_iff_of_found hb hr hp hin hbare (by rw [hkept, Option.some_or])]
    constructor
    · rintro ⟨hurl, -⟩
      refine ⟨hurl, fun h => absurd h hroot, fun target htarget hform => ?_⟩
      exact absurd ⟨target, htarget, hform⟩ htop
    · rintro ⟨hurl, -, -⟩
      exact ⟨hurl, rfl⟩

/-- **A dependency whose alias is clear is seen exactly when it is not hidden.** -/
theorem Clear.sees_iff : p.Sees r name parent dep ↔ p.Unhidden base id name dep := by
  by_cases hroot : p.roots.get? name = some dep
  · exact hc.sees_iff_of_shared hb hr hp hin hname hbuiltins hbare hmap hroot
  · exact hc.sees_iff_of_not_shared hb hr hp hin hname hbuiltins hbare hmap hroot

end Seeing

end Clear

/-! ### Packages and their dependencies -/

/-- **When a package sees a dependency.** From a module inside its folder an alias leads to the main
file of what it stands for exactly when the entry that decides does. If nothing but the package's
scope and the top level can decide, that is when the dependency is not hidden: when the package
does not itself have the name of an alias that it shares with the project. -/
theorem sees_dependency_iff {map : ImportMap} {base : String} {relativeFallback : Bool}
    {r : Resolver} (hb : p.build = .ok map)
    (hr : Resolver.make map base relativeFallback = .ok r) {id dep : PackageId} {node : PackageNode}
    {name parent : String} (hid : p.Reachable id) (hnode : p.installation.graph.node id = .ok node)
    (hname : node.resolve.get? name = some dep) (hbuiltins : p.isBuiltinsAlias name = false)
    (hbare : isBareSpecifier name = true) (hmap : name ∉ (p.manifestOf id).map.keys)
    (hin : p.Inside base parent id) :
    (p.Sees r name parent dep ↔ ∃ key target, p.Decides r parent name key target ∧
      p.LeadsToMain base name (key, target) dep) ∧
      (p.Clear base parent id node name →
        (p.Sees r name parent dep ↔ p.Unhidden base id name dep)) := by
  refine ⟨sees_iff_decides hb hr hbare, fun hc => ?_⟩
  have hp := populates_of_reachable (build_eq_ok_iff_clean.1 hb).1 hid hnode
  exact hc.sees_iff hb hr hp hin hname hbuiltins hbare hmap

/-- An alias without a slash is clear where no folder of a package holds another or the module. -/
theorem clear_of_ids {base parent : String} {id : PackageId} {node : PackageNode} {name : String}
    {ids : List PackageId} (hids : ∀ {other}, p.Reaches other → other ∈ ids)
    (halone : ∀ other ∈ ids, other = id ∨
      ∀ url ∈ (mapUrl base (p.packageFolder other)).toOption, ¬ url.toList <+: parent.toList)
    (houter : ∀ other ∈ ids, ¬ (Target.normalize (p.packageFolder other)).toList <+:
      (ImportMap.dropLastChar (Target.normalize (p.packageFolder id))).toList)
    (hname : '/' ∉ name.toList) : p.Clear base parent id node name where
  alone other hother _ url hurl hstart := by
    rcases halone other.1 (hids hother.reaches) with heq | hno
    · exact heq
    · exact absurd hstart (hno url (by rw [hurl]; rfl))
  outermost other hother _ := houter other.1 (hids hother.reaches)
  not_folder := by
    cases hslash : Target.endsInSlash name with
    | false => rfl
    | true =>
        rw [Target.endsInSlash, beq_iff_eq] at hslash
        exact absurd (List.mem_of_getLast? hslash) hname
  plain _ _ hcov := eq_of_covers_of_not_mem hname hcov

/-- A build without a fault can be resolved through where all folders denote a URL. -/
theorem exists_resolver {base : String} (hfault : p.finalBuild.fault? = none)
    (hurls : ∀ folder ∈ p.finalBuild.map.scopes.keys,
      (mapUrl base folder).toOption.isSome = true) :
    ∃ map r, p.build = .ok map ∧ Resolver.make map base false = .ok r := by
  have hmake : ∃ r, Resolver.make p.uncleaned.clean base false = .ok r := by
    refine Resolver.exists_make_iff.2 fun folder hfolder => ?_
    have hmem := ImportMap.mem_keys_scopes_of_clean hfolder
    rw [scopes_uncleaned] at hmem
    obtain ⟨url, hurl⟩ := Option.isSome_iff_exists.1 (hurls folder hmem)
    exact ⟨url, Resolver.eq_ok_of_toOption hurl⟩
  obtain ⟨r, hr⟩ := hmake
  exact ⟨_, r, build_eq_ok_iff_clean.2 ⟨hfault, rfl⟩, hr⟩

/-- The package of `twoPackages` that has an alias for the other one. -/
def dependent : PackageNode :=
  described "x" [("z", ⟨"npm", "y", "1.0.0"⟩)] [("./y", .string "./lib/y.js")]

/-- **A package sees a dependency** that the project has under another alias. -/
theorem sees_dependency_flatAliases :
    ∃ map r, flatAliases.build = .ok map ∧ Resolver.make map "file:///p/" false = .ok r ∧
      flatAliases.Sees r "z" "file:///p/jspm_packages/npm/x@1.0.0/lib/y.js"
        ⟨"npm", "y", "1.0.0"⟩ := by
  have hfault : flatAliases.finalBuild.fault? = none :=
    Option.isNone_iff_eq_none.1 (by decide +kernel)
  obtain ⟨map, r, hb, hr⟩ := @exists_resolver flatAliases "file:///p/" hfault (by decide +kernel)
  have hid : flatAliases.Reachable ⟨"npm", "x", "1.0.0"⟩ :=
    @Reachable.root flatAliases "x" _ (by decide +kernel)
  have hnode : flatAliases.installation.graph.node ⟨"npm", "x", "1.0.0"⟩ = .ok dependent := rfl
  have hname : dependent.resolve.get? "z" = some ⟨"npm", "y", "1.0.0"⟩ := by decide +kernel
  have hin : flatAliases.Inside "file:///p/" "file:///p/jspm_packages/npm/x@1.0.0/lib/y.js"
      ⟨"npm", "x", "1.0.0"⟩ :=
    ⟨"file:///p/jspm_packages/npm/x@1.0.0/", Resolver.eq_ok_of_toOption (by decide +kernel),
      by decide +kernel⟩
  have hids : ∀ {id}, flatAliases.Reaches id → id ∈ flatAliases.installation.graph.packages.keys :=
    Reaches.mem_of_closed (by decide +kernel) (by decide +kernel)
  have hclear : flatAliases.Clear "file:///p/" "file:///p/jspm_packages/npm/x@1.0.0/lib/y.js"
      ⟨"npm", "x", "1.0.0"⟩ dependent "z" :=
    clear_of_ids hids (by decide +kernel) (by decide +kernel) (by decide)
  have hunhidden : flatAliases.Unhidden "file:///p/" ⟨"npm", "x", "1.0.0"⟩ "z"
      ⟨"npm", "y", "1.0.0"⟩ := by
    have htop : flatAliases.uncleaned.imports.get? "z" = none := by decide +kernel
    refine ⟨⟨"file:///p/jspm_packages/npm/y@1.0.0/index.js", ?_⟩, fun h => ?_, fun target h => ?_⟩
    · exact Resolver.eq_ok_of_toOption (by decide +kernel)
    · exact absurd h (by decide +kernel)
    · rw [htop] at h
      exact absurd h (by simp)
  have hsees := sees_dependency_iff hb hr hid hnode hname (by decide +kernel) (by decide +kernel)
    (by decide +kernel) hin
  exact ⟨map, r, hb, hr, (hsees.2 hclear).2 hunhidden⟩

/-- A package of an older version that depends on the newer one of the same name. -/
def older : PackageNode := described "foo" [("foo", ⟨"npm", "foo", "2.0.0"⟩)] []

/-- A project with two versions of a package, the older of which uses the newer one. -/
def twoVersions : Project :=
  installed [("foo", ⟨"npm", "foo", "2.0.0"⟩), ("bar", ⟨"npm", "foo", "1.0.0"⟩)]
    [(⟨"npm", "foo", "1.0.0"⟩, older), (⟨"npm", "foo", "2.0.0"⟩, described "foo" [] [])]

/-- **A package may find itself under the alias of a dependency**: it has the name of an alias that
it shares with the project. -/
theorem package_finds_itself :
    ∃ map r, twoVersions.build = .ok map ∧ Resolver.make map "file:///p/" false = .ok r ∧
      twoVersions.Reachable ⟨"npm", "foo", "1.0.0"⟩ ∧
      twoVersions.installation.graph.node ⟨"npm", "foo", "1.0.0"⟩ = .ok older ∧
      older.resolve.get? "foo" = some ⟨"npm", "foo", "2.0.0"⟩ ∧
      twoVersions.isBuiltinsAlias "foo" = false ∧ isBareSpecifier "foo" = true ∧
      "foo" ∉ (twoVersions.manifestOf ⟨"npm", "foo", "1.0.0"⟩).map.keys ∧
      twoVersions.Inside "file:///p/" "file:///p/jspm_packages/npm/foo@1.0.0/a.js"
        ⟨"npm", "foo", "1.0.0"⟩ ∧
      twoVersions.Sees r "foo" "file:///p/jspm_packages/npm/foo@1.0.0/a.js"
        ⟨"npm", "foo", "1.0.0"⟩ ∧
      ¬ twoVersions.Sees r "foo" "file:///p/jspm_packages/npm/foo@1.0.0/a.js"
        ⟨"npm", "foo", "2.0.0"⟩ := by
  have hfault : twoVersions.finalBuild.fault? = none :=
    Option.isNone_iff_eq_none.1 (by decide +kernel)
  obtain ⟨map, r, hb, hr⟩ := @exists_resolver twoVersions "file:///p/" hfault (by decide +kernel)
  have hid : twoVersions.Reachable ⟨"npm", "foo", "1.0.0"⟩ :=
    @Reachable.root twoVersions "bar" _ (by decide +kernel)
  have hnode : twoVersions.installation.graph.node ⟨"npm", "foo", "1.0.0"⟩ = .ok older := rfl
  have hin : twoVersions.Inside "file:///p/" "file:///p/jspm_packages/npm/foo@1.0.0/a.js"
      ⟨"npm", "foo", "1.0.0"⟩ :=
    ⟨"file:///p/jspm_packages/npm/foo@1.0.0/", Resolver.eq_ok_of_toOption (by decide +kernel),
      by decide +kernel⟩
  have hids : ∀ {id}, twoVersions.Reaches id → id ∈ twoVersions.installation.graph.packages.keys :=
    Reaches.mem_of_closed (by decide +kernel) (by decide +kernel)
  have hclear : twoVersions.Clear "file:///p/" "file:///p/jspm_packages/npm/foo@1.0.0/a.js"
      ⟨"npm", "foo", "1.0.0"⟩ older "foo" :=
    clear_of_ids hids (by decide +kernel) (by decide +kernel) (by decide)
  have hp := populates_of_reachable hfault hid hnode
  have htop : twoVersions.uncleaned.imports.get? "foo" =
      some "./jspm_packages/npm/foo@2.0.0/index.js" := by decide +kernel
  have hkept : (twoVersions.kept (⟨"npm", "foo", "1.0.0"⟩, older)).get? "foo" =
      some "./jspm_packages/npm/foo@1.0.0/index.js" := by
    refine (hclear.get?_kept hfault (by decide +kernel)).2 ⟨by decide +kernel, fun found h => ?_⟩
    rw [htop] at h
    rw [← Option.some.inj h]
    decide +kernel
  have hown : mapUrl "file:///p/" "./jspm_packages/npm/foo@1.0.0/index.js" =
      .ok "file:///p/jspm_packages/npm/foo@1.0.0/index.js" :=
    Resolver.eq_ok_of_toOption (by decide +kernel)
  have hother : mapUrl "file:///p/" "./jspm_packages/npm/foo@2.0.0/index.js" =
      .ok "file:///p/jspm_packages/npm/foo@2.0.0/index.js" :=
    Resolver.eq_ok_of_toOption (by decide +kernel)
  have hmain : twoVersions.mainOf ⟨"npm", "foo", "1.0.0"⟩ =
      "./jspm_packages/npm/foo@1.0.0/index.js" := by decide +kernel
  have hmainOther : twoVersions.mainOf ⟨"npm", "foo", "2.0.0"⟩ =
      "./jspm_packages/npm/foo@2.0.0/index.js" := by decide +kernel
  have hsees : ∀ dep, twoVersions.Sees r "foo" "file:///p/jspm_packages/npm/foo@1.0.0/a.js" dep ↔
      (∃ url, mapUrl "file:///p/" (twoVersions.mainOf dep) = .ok url) ∧
        mapUrl "file:///p/" "./jspm_packages/npm/foo@1.0.0/index.js" =
          mapUrl "file:///p/" (twoVersions.mainOf dep) := fun dep =>
    hclear.sees_iff_of_found hb hr hp hin (by decide +kernel) (by rw [hkept, Option.some_or])
  refine ⟨map, r, hb, hr, hid, hnode, by decide +kernel, by decide +kernel, by decide +kernel,
    by decide +kernel, hin, ?_, fun h => ?_⟩
  · rw [hsees, hmain]
    exact ⟨⟨_, hown⟩, rfl⟩
  · obtain ⟨-, heq⟩ := (hsees _).1 h
    rw [hmainOther, hown, hother] at heq
    exact absurd (Except.ok.inj heq) (by decide)

end Project

end ImportAtlas
