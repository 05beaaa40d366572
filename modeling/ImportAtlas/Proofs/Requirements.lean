import ImportAtlas.Proofs.Reordering
import ImportAtlas.Proofs.Surroundings
import Mathlib.Data.Finset.Dedup

/-!
# What a build requires

A build reads the manifests of the packages that are reachable, and of the packages that their
manifests mean by a specifier. A specifier goes through the longest alias that it begins with; if
that is not the one of the package of platform modules, the package that is meant is reachable
itself. So what a build requires beyond the reachable packages are those that manifests mean
through that one alias.

## Main results

* `goesThrough_of_matchAlias?`, `GoesThrough.matchAlias?_eq`: the alias through which a specifier
  names a part of a package.
* `Project.required_of_meaning`: every package that a reachable package means is required.
* `Project.Required.mem_candidates`: what is required is among finitely many packages.
-/

namespace ImportAtlas

/-! ### The alias that a specifier goes through -/

/-- A specifier is an alias, or begins with it before a slash. -/
def StartsWith (specifier name : String) : Prop :=
  specifier = name ∨ (name ++ "/").toList <+: specifier.toList

/-- The alias that a specifier goes through: the longest one that it starts with. -/
structure GoesThrough (aliases : Dict String PackageId) (specifier name : String) : Prop where
  /-- It is an alias. -/
  mem_keys : name ∈ aliases.keys
  /-- The specifier starts with it. -/
  starts : StartsWith specifier name
  /-- No alias that the specifier starts with is longer. -/
  longest : ∀ other ∈ aliases.keys, StartsWith specifier other → other.length ≤ name.length

section Aliases

variable {aliases : Dict String PackageId} {specifier name name' : String}

theorem StartsWith.isPrefix (h : StartsWith specifier name) : name.toList <+: specifier.toList := by
  rcases h with rfl | h
  · exact List.prefix_rfl
  · rw [String.toList_append] at h
    exact (List.prefix_append _ _).trans h

theorem StartsWith.length_le (h : StartsWith specifier name) : name.length ≤ specifier.length := by
  rw [← String.length_toList, ← String.length_toList]
  exact h.isPrefix.length_le

theorem mem_aliasesOf :
    name ∈ aliasesOf specifier aliases ↔
      name ∈ aliases.keys ∧ (name ++ "/").toList <+: specifier.toList := by
  rw [aliasesOf, List.mem_filter, List.isPrefixOf_iff_prefix]

/-- A specifier goes through one alias at most. -/
theorem GoesThrough.unique (h : GoesThrough aliases specifier name)
    (h' : GoesThrough aliases specifier name') : name = name' := by
  have hlen : name.length = name'.length :=
    le_antisymm (h'.longest _ h.mem_keys h.starts) (h.longest _ h'.mem_keys h'.starts)
  rw [← String.length_toList, ← String.length_toList] at hlen
  have hpre := List.prefix_of_prefix_length_le h.starts.isPrefix h'.starts.isPrefix hlen.le
  exact String.toList_injective (hpre.eq_of_length hlen)

/-- The path behind an alias and a slash; none if the specifier is the alias. -/
def pathBelow? (name specifier : String) : Option String :=
  if specifier = name then none
  else some (String.ofList (specifier.toList.drop (name.length + 1)))

/-- **The part of a package that a specifier names** belongs to the package of the alias that the
specifier goes through, and its path is what follows the alias. -/
theorem goesThrough_of_matchAlias? {part : PackagePart}
    (h : matchAlias? specifier aliases = some part) :
    ∃ name, GoesThrough aliases specifier name ∧ aliases.get? name = some part.id ∧
      part.path? = pathBelow? name specifier := by
  rw [matchAlias?] at h
  cases hget : aliases.get? specifier with
  | some id =>
      rw [hget] at h
      obtain rfl := Option.some.inj h
      refine ⟨specifier, ⟨Dict.mem_keys_of_get? hget, Or.inl rfl, fun _ _ hs => hs.length_le⟩,
        hget, ?_⟩
      rw [pathBelow?, if_pos rfl]
  | none =>
      simp only [hget] at h
      cases hal : aliasesOf specifier aliases with
      | nil => exact absurd h (by simp [hal])
      | cons first more =>
          simp only [hal, Option.map_eq_some_iff] at h
          obtain ⟨id, hid, rfl⟩ := h
          obtain ⟨hmem, hlen⟩ := foldl_longer_spec first more
          rw [← hal] at hmem hlen
          obtain ⟨hkey, hpre⟩ := mem_aliasesOf.1 hmem
          refine ⟨_, ⟨hkey, Or.inr hpre, fun other hother hs => ?_⟩, hid, ?_⟩
          · rcases hs with rfl | hs
            · exact absurd hother (Dict.get?_eq_none_iff.1 hget)
            · exact hlen other (mem_aliasesOf.2 ⟨hother, hs⟩)
          · rw [pathBelow?, if_neg]
            rintro rfl
            exact absurd hkey (Dict.get?_eq_none_iff.1 hget)

theorem exists_of_matchAlias? {part : PackagePart} (h : matchAlias? specifier aliases = some part) :
    ∃ name, GoesThrough aliases specifier name ∧ aliases.get? name = some part.id := by
  obtain ⟨name, hname, hget, -⟩ := goesThrough_of_matchAlias? h
  exact ⟨name, hname, hget⟩

/-- A specifier that starts with an alias names a part of a package. -/
theorem isSome_matchAlias? (hname : name ∈ aliases.keys) (hs : StartsWith specifier name) :
    (matchAlias? specifier aliases).isSome = true := by
  rw [matchAlias?]
  cases hget : aliases.get? specifier with
  | some id => rfl
  | none =>
      cases hal : aliasesOf specifier aliases with
      | nil =>
          rcases hs with rfl | hs
          · exact absurd hname (Dict.get?_eq_none_iff.1 hget)
          · have hmem := mem_aliasesOf.2 ⟨hname, hs⟩
            rw [hal] at hmem
            exact absurd hmem List.not_mem_nil
      | cons first more =>
          obtain ⟨hmem, -⟩ := foldl_longer_spec first more
          rw [← hal] at hmem
          obtain ⟨id, hid⟩ := Dict.mem_keys_iff.1 (mem_aliasesOf.1 hmem).1
          simp only [hid, Option.map_some, Option.isSome_some]

/-- A specifier that starts with an alias goes through one. -/
theorem exists_goesThrough (hname : name ∈ aliases.keys) (hs : StartsWith specifier name) :
    ∃ longest, GoesThrough aliases specifier longest := by
  obtain ⟨part, hpart⟩ := Option.isSome_iff_exists.1 (isSome_matchAlias? hname hs)
  obtain ⟨longest, hlongest, -⟩ := goesThrough_of_matchAlias? hpart
  exact ⟨longest, hlongest⟩

/-- The package of the alias that a specifier goes through is the one that it names, and the path
is what follows the alias. -/
theorem GoesThrough.matchAlias?_eq (h : GoesThrough aliases specifier name) {id : PackageId}
    (hid : aliases.get? name = some id) :
    matchAlias? specifier aliases = some ⟨id, pathBelow? name specifier⟩ := by
  obtain ⟨part, hpart⟩ := Option.isSome_iff_exists.1 (isSome_matchAlias? h.mem_keys h.starts)
  obtain ⟨name', hname', hget, hpath⟩ := goesThrough_of_matchAlias? hpart
  obtain rfl := h.unique hname'
  obtain rfl := Option.some.inj (hid.symm.trans hget)
  rw [hpart, ← hpath]

theorem GoesThrough.exists_matchAlias? (h : GoesThrough aliases specifier name) {id : PackageId}
    (hid : aliases.get? name = some id) :
    ∃ part, matchAlias? specifier aliases = some part ∧ part.id = id :=
  ⟨_, h.matchAlias?_eq hid, rfl⟩

end Aliases

namespace Project

variable {p : Project} {id dep : PackageId} {node : PackageNode} {specifier target : String}

/-! ### Packages that are meant -/

/-- Whether a target in a manifest is a specifier: neither the empty module nor a file of the
package, a URL or a rooted path. -/
def isSpecifier (target : String) : Bool :=
  target != Builtin.emptyModule &&
    !("./".toList.isPrefixOf target.toList || "../".toList.isPrefixOf target.toList) &&
    !Target.isUrlOrRooted target

theorem meaning_of_isSpecifier (h : isSpecifier target = true) :
    p.meaning node target =
      match (matchAlias? target node.resolve).or (matchAlias? target p.roots) with
      | some part => .package part
      | none => if Builtin.isBuiltin target then .builtin target else .unknown := by
  simp only [isSpecifier, Bool.and_eq_true, bne_iff_ne, ne_eq, Bool.not_eq_true'] at h
  obtain ⟨⟨hempty, hown⟩, hplace⟩ := h
  have hno : ¬ (target == Builtin.emptyModule) = true := by simpa using hempty
  exact (if_neg hno).trans ((if_neg (by rw [hown]; simp)).trans (if_neg (by rw [hplace]; simp)))

/-- A target that means a part of a package is a specifier that names it through an alias of the
package, or else through one of the project. -/
theorem of_meaning_eq_package {part : PackagePart} (h : p.meaning node target = .package part) :
    isSpecifier target = true ∧ (matchAlias? target node.resolve = some part ∨
      matchAlias? target node.resolve = none ∧ matchAlias? target p.roots = some part) := by
  have hspecifier : isSpecifier target = true := by
    rw [meaning] at h
    split at h
    · exact absurd h (by simp)
    rename_i hempty
    split at h
    · exact absurd h (by simp)
    rename_i hown
    split at h
    · exact absurd h (by simp)
    rename_i hplace
    simp only [isSpecifier, Bool.and_eq_true, bne_iff_ne, ne_eq, Bool.not_eq_true']
    exact ⟨⟨by simpa using hempty, Bool.eq_false_iff.2 hown⟩, Bool.eq_false_iff.2 hplace⟩
  refine ⟨hspecifier, ?_⟩
  rw [meaning_of_isSpecifier hspecifier] at h
  cases hown : matchAlias? target node.resolve with
  | some part' =>
      simp only [hown, Option.some_or, Meaning.package.injEq] at h
      exact Or.inl (congrArg some h)
  | none =>
      simp only [hown, Option.none_or] at h
      cases hroot : matchAlias? target p.roots with
      | some part' =>
          simp only [hroot, Meaning.package.injEq] at h
          exact Or.inr ⟨rfl, congrArg some h⟩
      | none =>
          simp only [hroot] at h
          split at h <;> exact absurd h (by simp)

/-- A target names a package through the alias of the package of platform modules: it goes through
that alias of its package, or it goes through none of its package and through that one of the
project. -/
inductive NamesByBuiltins (p : Project) (node : PackageNode) (target : String) : PackageId → Prop
  | own {dep : PackageId} (hs : isSpecifier target = true)
      (hthrough : GoesThrough node.resolve target p.settings.builtinsAlias)
      (hdep : node.resolve.get? p.settings.builtinsAlias = some dep) :
      NamesByBuiltins p node target dep
  | project {dep : PackageId} (hs : isSpecifier target = true)
      (hnone : ∀ name, ¬ GoesThrough node.resolve target name)
      (hthrough : GoesThrough p.roots target p.settings.builtinsAlias)
      (hdep : p.roots.get? p.settings.builtinsAlias = some dep) : NamesByBuiltins p node target dep

theorem NamesByBuiltins.exists_meaning (h : p.NamesByBuiltins node target dep) :
    ∃ part, p.meaning node target = .package part ∧ part.id = dep := by
  cases h with
  | own hs hthrough hdep =>
      obtain ⟨part, hpart, hid⟩ := hthrough.exists_matchAlias? hdep
      exact ⟨part, by rw [meaning_of_isSpecifier hs, hpart, Option.some_or], hid⟩
  | project hs hnone hthrough hdep =>
      obtain ⟨part, hpart, hid⟩ := hthrough.exists_matchAlias? hdep
      have hown : matchAlias? target node.resolve = none := by
        rw [Option.eq_none_iff_forall_ne_some]
        intro part' hpart'
        obtain ⟨name, hname, -⟩ := exists_of_matchAlias? hpart'
        exact hnone name hname
      exact ⟨part, by rw [meaning_of_isSpecifier hs, hown, hpart, Option.none_or], hid⟩

/-! ### Required packages -/

/-- The packages that a build requires: those that are reachable, and those that a manifest of a
reachable package names through the alias of the package of platform modules. -/
inductive Required (p : Project) : PackageId → Prop
  | reachable {id : PackageId} (hid : p.Reachable id) : Required p id
  | meant {id dep : PackageId} {node : PackageNode} {specifier target : String}
      (hid : p.Reachable id) (hnode : p.installation.graph.node id = .ok node)
      (hentry : (specifier, target) ∈ (p.manifestOf id).map.entries)
      (hnames : p.NamesByBuiltins node target dep) : Required p dep

/-- An alias of a reachable package that gets entries leads to a reachable package. -/
theorem Reachable.of_get?_resolve {name : String} (hid : p.Reachable id)
    (hnode : p.installation.graph.node id = .ok node) (hget : node.resolve.get? name = some dep)
    (hname : name ≠ p.settings.builtinsAlias) : p.Reachable dep := by
  refine .dependency hid hnode (List.mem_map.2 ⟨(name, dep), ?_, rfl⟩)
  refine Dict.mem_entries_filter.2 ⟨Dict.get?_eq_some_iff.1 hget, ?_⟩
  simpa [isBuiltinsAlias] using hname

/-- An alias of the project that gets entries leads to a reachable package. -/
theorem Reachable.of_get?_roots {name : String} (hget : p.roots.get? name = some dep)
    (hname : name ≠ p.settings.builtinsAlias) : p.Reachable dep := by
  have hroot : (name, dep) ∈ (p.mapped p.roots).entries := by
    refine Dict.mem_entries_filter.2 ⟨Dict.get?_eq_some_iff.1 hget, ?_⟩
    simpa [isBuiltinsAlias] using hname
  exact .root hroot

/-- **Every package that a reachable package means is required.** -/
theorem required_of_meaning {part : PackagePart} (hid : p.Reachable id)
    (hnode : p.installation.graph.node id = .ok node)
    (hentry : (specifier, target) ∈ (p.manifestOf id).map.entries)
    (hmeans : p.meaning node target = .package part) : p.Required part.id := by
  obtain ⟨hs, hpart | ⟨hnone, hpart⟩⟩ := of_meaning_eq_package hmeans
  · obtain ⟨name, hname, hget⟩ := exists_of_matchAlias? hpart
    by_cases heq : name = p.settings.builtinsAlias
    · subst heq
      exact .meant hid hnode hentry (.own hs hname hget)
    · exact .reachable (hid.of_get?_resolve hnode hget heq)
  · obtain ⟨name, hname, hget⟩ := exists_of_matchAlias? hpart
    by_cases heq : name = p.settings.builtinsAlias
    · subst heq
      refine .meant hid hnode hentry (.project hs (fun other hother => ?_) hname hget)
      have hsome := isSome_matchAlias? hother.mem_keys hother.starts
      rw [hnone] at hsome
      exact absurd hsome (by simp)
    · exact .reachable (Reachable.of_get?_roots hget heq)

/-- The packages that the scope of a reachable package needs are required. -/
theorem required_of_mem_needs (hid : p.Reachable id)
    (hnode : p.installation.graph.node id = .ok node) (hdep : dep ∈ p.needs p.manifestOf id node) :
    p.Required dep := by
  rcases List.mem_cons.1 hdep with rfl | hdep
  · exact .reachable hid
  rcases List.mem_append.1 hdep with hdep | hdep
  · exact .reachable (.dependency hid hnode hdep)
  · rw [meantPackages, List.mem_filterMap] at hdep
    obtain ⟨⟨specifier, target⟩, hentry, hpart⟩ := hdep
    cases hmeans : p.meaning node target with
    | package part =>
        simp only [hmeans, Option.some.injEq] at hpart
        rw [← hpart]
        exact required_of_meaning hid hnode hentry hmeans
    | emptyModule | ownFile _ | place _ | builtin _ | unknown => simp [hmeans] at hpart

/-! ### Finitely many packages -/

/-- The packages that aliases of the project or of an installed package stand for. -/
def candidates (p : Project) : Finset PackageId :=
  (p.roots.values ++
    p.installation.graph.packages.entries.flatMap fun e => e.2.resolve.values).toFinset

theorem mem_candidates_of_roots {name : String} (h : (name, id) ∈ p.roots.entries) :
    id ∈ p.candidates := by
  rw [candidates, List.mem_toFinset, List.mem_append]
  exact Or.inl (List.mem_map.2 ⟨(name, id), h, rfl⟩)

theorem mem_candidates_of_resolve {name : String} (hnode : p.installation.graph.node id = .ok node)
    (h : (name, dep) ∈ node.resolve.entries) : dep ∈ p.candidates := by
  rw [candidates, List.mem_toFinset, List.mem_append]
  refine Or.inr (List.mem_flatMap.2 ⟨(id, node), ?_, List.mem_map.2 ⟨(name, dep), h, rfl⟩⟩)
  rw [DependencyGraph.node] at hnode
  split at hnode
  · rename_i hget
    rw [Except.ok.inj hnode] at hget
    exact Dict.get?_eq_some_iff.1 hget
  · exact absurd hnode (by simp)

theorem Reachable.mem_candidates (h : p.Reachable id) : id ∈ p.candidates := by
  cases h with
  | root hroot => exact mem_candidates_of_roots (Dict.mem_entries_filter.1 hroot).1
  | dependency _ hnode hdep =>
      obtain ⟨⟨name, dep⟩, hmem, rfl⟩ := List.mem_map.1 hdep
      exact mem_candidates_of_resolve hnode (Dict.mem_entries_filter.1 hmem).1

/-- **What is required is among finitely many packages.** -/
theorem Required.mem_candidates (h : p.Required id) : id ∈ p.candidates := by
  cases h with
  | reachable hid => exact hid.mem_candidates
  | meant _ hnode _ hnames =>
      cases hnames with
      | own _ _ hdep => exact mem_candidates_of_resolve hnode (Dict.get?_eq_some_iff.1 hdep)
      | project _ _ _ hdep => exact mem_candidates_of_roots (Dict.get?_eq_some_iff.1 hdep)

end Project

end ImportAtlas
