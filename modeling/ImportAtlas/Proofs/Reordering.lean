import ImportAtlas.Proofs.Redundancy
import ImportAtlas.Proofs.Schedule

/-!
# What does not depend on order

Aliases and entries stand in an order, but what is read through them does not depend on it: the
alias that a specifier goes through, what a manifest means, and the entries that a clean map keeps.

## Main results

* `ImportMap.clean_eq_of_get?_eq`: maps with the same readings become equal when they are cleaned,
  if no two of their scopes have one normal form.
* `matchAlias?_congr`: the alias for a specifier does not depend on the order of aliases.
* `Project.Complete.of_withRoots`: what the writers of a project write does not depend on the order
  of its aliases.
-/

namespace ImportAtlas

namespace ImportMap

variable {map map' : ImportMap}

/-! ### Clean maps -/

theorem firstTarget?_append_congr {imports imports' : Imports}
    (h : ∀ k, imports.get? k = imports'.get? k) (specifier : String) (tables : List Imports) :
    Imports.firstTarget? specifier (tables ++ [imports]) =
      Imports.firstTarget? specifier (tables ++ [imports']) := by
  induction tables with
  | nil =>
      simp only [List.nil_append, Imports.firstTarget?, Imports.match?_congr_get? fun k _ => h k,
        Imports.target?_congr fun k _ => h k]
  | cons table tables ih =>
      simp only [List.cons_append, Imports.firstTarget?, ih]

/-- A scope is found by its normal form when no other has the same. -/
theorem get?_scopeForms (hforms : ∀ q ∈ map.scopes.keys, ∀ q' ∈ map.scopes.keys,
      Target.normalize q = Target.normalize q' → q = q') {form q : String} :
    map.scopeForms.get? form = some q ↔ q ∈ map.scopes.keys ∧ Target.normalize q = form := by
  constructor
  · intro h
    obtain ⟨q', hq', heq⟩ := List.mem_map.1 (Dict.mem_of_get?_ofList h)
    obtain ⟨rfl, rfl⟩ := Prod.mk.inj heq
    exact ⟨hq', rfl⟩
  · rintro ⟨hq, rfl⟩
    refine Dict.get?_ofList_of_mem (fun w hw => ?_) (List.mem_map.2 ⟨q, hq, rfl⟩)
    obtain ⟨q', hq', heq⟩ := List.mem_map.1 hw
    obtain ⟨hform, rfl⟩ := Prod.mk.inj heq
    exact hforms q' hq' q hq hform

section Readings

variable (himports : ∀ k, map.imports.get? k = map'.imports.get? k)
  (hscopes : ∀ q, map.scopes.get? q = map'.scopes.get? q)
  (hforms : ∀ q ∈ map.scopes.keys, ∀ q' ∈ map.scopes.keys,
    Target.normalize q = Target.normalize q' → q = q')
include hscopes hforms

theorem enclosing_eq_of_get?_eq (scopePrefix : String) :
    map.enclosing scopePrefix = map'.enclosing scopePrefix := by
  have hkeys : ∀ q, q ∈ map.scopes.keys ↔ q ∈ map'.scopes.keys := by
    intro q
    rw [Dict.mem_keys_iff, Dict.mem_keys_iff, hscopes]
  have hforms' : ∀ q ∈ map'.scopes.keys, ∀ q' ∈ map'.scopes.keys,
      Target.normalize q = Target.normalize q' → q = q' := fun q hq q' hq' =>
    hforms q ((hkeys q).2 hq) q' ((hkeys q').2 hq')
  have hget : ∀ form, map.scopeForms.get? form = map'.scopeForms.get? form := by
    intro form
    ext q
    rw [get?_scopeForms hforms, get?_scopeForms hforms', hkeys]
  have hcontains : map.scopeForms.keys.contains = map'.scopeForms.keys.contains := by
    funext form
    have hmem : form ∈ map.scopeForms.keys ↔ form ∈ map'.scopeForms.keys := by
      rw [Dict.mem_keys_iff, Dict.mem_keys_iff, hget]
    rw [Bool.eq_iff_iff, List.contains_iff_mem, List.contains_iff_mem, hmem]
  rw [enclosing, enclosing, scopeMatches, scopeMatches, hcontains]
  refine List.map_congr_left fun form _ => ?_
  rw [Dict.getD_eq, Dict.getD_eq, hget, scope, scope, Dict.getD_eq, Dict.getD_eq, hscopes]

include himports

theorem cleanScope_eq_of_get?_eq (scopePrefix : String) (entries : Imports) :
    map.cleanScope scopePrefix entries = map'.cleanScope scopePrefix entries := by
  have hredundant : ∀ kept specifier, map.isRedundant scopePrefix kept specifier =
      map'.isRedundant scopePrefix kept specifier := by
    intro kept specifier
    have hfallback : map.fallback? scopePrefix kept specifier =
        map'.fallback? scopePrefix kept specifier := by
      rw [fallback?, fallback?, tables, tables, enclosing_eq_of_get?_eq hscopes hforms scopePrefix,
        ← List.cons_append, ← List.cons_append, firstTarget?_append_congr himports]
    rw [isRedundant, isRedundant, hfallback]
  rw [cleanScope, cleanScope]
  simp only [hredundant]

/-- **Cleaning forgets the order of insertion**: maps with the same readings become equal, if no
two scopes have one normal form. -/
theorem clean_eq_of_get?_eq : map.clean = map'.clean := by
  have hread : ∀ q, (((map.scopes.map map.cleanScope).filter fun _ entries =>
      !entries.isEmpty).map fun _ entries => entries.sorted).get? q =
      (((map'.scopes.map map'.cleanScope).filter fun _ entries =>
        !entries.isEmpty).map fun _ entries => entries.sorted).get? q := by
    intro q
    rw [Dict.get?_map, Dict.get?_map, Dict.get?_filter, Dict.get?_filter, Dict.get?_map,
      Dict.get?_map, hscopes, funext (cleanScope_eq_of_get?_eq himports hscopes hforms q)]
  rw [clean, clean, sorted, sorted, ImportMap.mk.injEq]
  exact ⟨Dict.sorted_eq_of_get?_eq himports, Dict.sorted_eq_of_get?_eq hread⟩

end Readings

end ImportMap

/-! ### Aliases -/

theorem foldl_longer_spec (first : String) (more : List String) :
    more.foldl longer first ∈ first :: more ∧
      ∀ name ∈ first :: more, name.length ≤ (more.foldl longer first).length := by
  induction more generalizing first with
  | nil =>
      refine ⟨List.mem_cons_self, fun name hname => ?_⟩
      rw [List.mem_singleton.1 hname]
      exact Nat.le_refl _
  | cons next more ih =>
      obtain ⟨hmem, hlen⟩ := ih (longer first next)
      have hlonger : (longer first next = first ∨ longer first next = next) ∧
          first.length ≤ (longer first next).length ∧ next.length ≤ (longer first next).length := by
        rw [longer]
        split
        · exact ⟨Or.inr rfl, by omega, by omega⟩
        · exact ⟨Or.inl rfl, by omega, by omega⟩
      obtain ⟨hcases, hfirst, hnext⟩ := hlonger
      have hbest := hlen _ List.mem_cons_self
      refine ⟨?_, fun name hname => ?_⟩
      · rcases List.mem_cons.1 hmem with hmem | hmem
        · rw [List.foldl_cons, hmem]
          rcases hcases with h | h
          · rw [h]
            exact List.mem_cons_self
          · rw [h]
            exact List.mem_cons_of_mem _ List.mem_cons_self
        · exact List.mem_cons_of_mem _ (List.mem_cons_of_mem _ hmem)
      · rw [List.foldl_cons]
        rcases List.mem_cons.1 hname with rfl | hname
        · exact hfirst.trans hbest
        · rcases List.mem_cons.1 hname with rfl | hname
          · exact hnext.trans hbest
          · exact hlen name (List.mem_cons_of_mem _ hname)

/-- Names before a slash in one specifier are the same when they are equally long. -/
theorem eq_of_mem_aliasesOf {specifier name name' : String}
    {aliases aliases' : Dict String PackageId}
    (h : name ∈ aliasesOf specifier aliases) (h' : name' ∈ aliasesOf specifier aliases')
    (hlen : name.length = name'.length) : name = name' := by
  have hstart : ∀ n, (n ++ "/").toList.isPrefixOf specifier.toList = true →
      n.toList <+: specifier.toList := by
    intro n hn
    rw [String.toList_append] at hn
    exact (List.prefix_append _ _).trans (List.isPrefixOf_iff_prefix.1 hn)
  have hp := hstart name (List.mem_filter.1 h).2
  have hp' := hstart name' (List.mem_filter.1 h').2
  rw [← String.length_toList, ← String.length_toList] at hlen
  exact String.toList_injective ((List.prefix_of_prefix_length_le hp hp' hlen.le).eq_of_length hlen)

/-- **The alias for a specifier does not depend on the order of aliases.** -/
theorem matchAlias?_congr {aliases aliases' : Dict String PackageId}
    (h : ∀ name, aliases.get? name = aliases'.get? name) (specifier : String) :
    matchAlias? specifier aliases = matchAlias? specifier aliases' := by
  have hmem : ∀ name, name ∈ aliasesOf specifier aliases ↔ name ∈ aliasesOf specifier aliases' := by
    intro name
    rw [aliasesOf, aliasesOf, List.mem_filter, List.mem_filter, Dict.mem_keys_iff,
      Dict.mem_keys_iff, h]
  rw [matchAlias?, matchAlias?, h]
  cases aliases'.get? specifier with
  | some id => rfl
  | none =>
      cases hal : aliasesOf specifier aliases with
      | nil =>
          have hnil : aliasesOf specifier aliases' = [] := by
            refine List.eq_nil_iff_forall_not_mem.2 fun name hname => ?_
            have hin := (hmem name).2 hname
            rw [hal] at hin
            exact absurd hin List.not_mem_nil
          rw [hnil]
      | cons first more =>
          cases hal' : aliasesOf specifier aliases' with
          | nil =>
              have hin := (hmem first).1 (by rw [hal]; exact List.mem_cons_self)
              rw [hal'] at hin
              exact absurd hin List.not_mem_nil
          | cons first' more' =>
              obtain ⟨hin, hlen⟩ := foldl_longer_spec first more
              obtain ⟨hin', hlen'⟩ := foldl_longer_spec first' more'
              rw [← hal] at hin hlen
              rw [← hal'] at hin' hlen'
              have heq : more.foldl longer first = more'.foldl longer first' :=
                eq_of_mem_aliasesOf hin hin'
                  (le_antisymm (hlen' _ ((hmem _).1 hin)) (hlen _ ((hmem _).2 hin')))
              simp only [heq, h]

/-! ### Projects -/

namespace Project

/-- A project with its aliases replaced. -/
def withRoots (p : Project) (roots : Dict String PackageId) : Project := { p with roots }

variable {p : Project} {roots : Dict String PackageId}

theorem meaning_withRoots (h : roots.entries.Perm p.roots.entries) (node : PackageNode)
    (target : String) : (p.withRoots roots).meaning node target = p.meaning node target := by
  have halias : matchAlias? target (p.withRoots roots).roots = matchAlias? target p.roots :=
    matchAlias?_congr (Dict.get?_eq_of_perm h) target
  rw [meaning, meaning, halias]

theorem needs_withRoots (h : roots.entries.Perm p.roots.entries)
    (manifestOf : PackageId → Manifest) (id : PackageId) (node : PackageNode) :
    (p.withRoots roots).needs manifestOf id node = p.needs manifestOf id node := by
  have hmeant : (p.withRoots roots).meantPackages (manifestOf id) node =
      p.meantPackages (manifestOf id) node := by
    rw [meantPackages, meantPackages]
    simp only [meaning_withRoots h]
  rw [needs, needs, hmeant]
  rfl

theorem scopeEntries_withRoots (h : roots.entries.Perm p.roots.entries)
    (manifestOf : PackageId → Manifest) (id : PackageId) (node : PackageNode) :
    (p.withRoots roots).scopeEntries manifestOf id node = p.scopeEntries manifestOf id node := by
  have hroots : ∀ name, (p.withRoots roots).roots.get? name = p.roots.get? name :=
    Dict.get?_eq_of_perm h
  have halias : (p.withRoots roots).aliasEntries manifestOf node =
      p.aliasEntries manifestOf node := by
    rw [aliasEntries, aliasEntries]
    simp only [hroots]
    rfl
  have hmeaning : (p.withRoots roots).meaningEntries manifestOf id node =
      p.meaningEntries manifestOf id node := by
    rw [meaningEntries, meaningEntries]
    simp only [meaning_withRoots h]
    rfl
  rw [scopeEntries, scopeEntries, halias, hmeaning]
  rfl

theorem perm_mapped_withRoots (h : roots.entries.Perm p.roots.entries) :
    ((p.withRoots roots).mapped (p.withRoots roots).roots).entries.Perm
      (p.mapped p.roots).entries :=
  h.filter _

/-- The packages that a build comes to do not depend on the order of aliases. -/
theorem Reaches.of_withRoots (h : roots.entries.Perm p.roots.entries) {id : PackageId}
    (hid : (p.withRoots roots).Reaches id) : p.Reaches id := by
  induction hid with
  | root hroot hread => exact .root ((perm_mapped_withRoots h).mem_iff.1 hroot) hread
  | dependency _ hnode hread hdep ih =>
      rw [needs_withRoots h] at hread
      exact .dependency ih hnode hread hdep

theorem reaches_withRoots (h : roots.entries.Perm p.roots.entries) {id : PackageId} :
    (p.withRoots roots).Reaches id ↔ p.Reaches id :=
  ⟨.of_withRoots h, fun hid => @Reaches.of_withRoots (p.withRoots roots) p.roots h.symm id hid⟩

theorem populates_withRoots (h : roots.entries.Perm p.roots.entries) {id : PackageId}
    {node : PackageNode} : (p.withRoots roots).Populates id node ↔ p.Populates id node := by
  constructor
  · rintro ⟨hid, hnode, hread⟩
    rw [needs_withRoots h] at hread
    exact ⟨hid.of_withRoots h, hnode, hread⟩
  · rintro ⟨hid, hnode, hread⟩
    rw [← needs_withRoots h] at hread
    exact ⟨(reaches_withRoots h).2 hid, hnode, hread⟩

/-- **What the writers of a project write does not depend on the order of its aliases.** -/
theorem Complete.of_withRoots (h : roots.entries.Perm p.roots.entries)
    {writers : List (String × PackageId)} {packages : List (PackageId × PackageNode)}
    (hc : (p.withRoots roots).Complete writers packages) : p.Complete writers packages where
  perm_roots := hc.perm_roots.trans (perm_mapped_withRoots h)
  readable := hc.readable
  mem_packages_iff package := (hc.mem_packages_iff package).trans (populates_withRoots h)
  exists_populates id hid := by
    obtain ⟨node, hnode⟩ := hc.exists_populates id ((reaches_withRoots h).2 hid)
    exact ⟨node, (populates_withRoots h).1 hnode⟩

theorem draft_withRoots (h : roots.entries.Perm p.roots.entries)
    (writers : List (String × PackageId)) (packages : List (PackageId × PackageNode)) :
    (p.withRoots roots).draft writers packages = p.draft writers packages := by
  have hscope : ∀ package, (p.withRoots roots).addedScope package = p.addedScope package := by
    intro package
    have hentries : (p.withRoots roots).scopeOf package.1 package.2 =
        p.scopeOf package.1 package.2 :=
      scopeEntries_withRoots h p.manifestOf package.1 package.2
    rw [addedScope, addedScope, hentries]
    rfl
  rw [draft, draft, funext hscope]
  rfl

/-- An outcome for another order of aliases is a completed draft of the same writers. -/
theorem exists_complete_of_outcome_withRoots (h : roots.entries.Perm p.roots.entries)
    {map : ImportMap} (ho : (p.withRoots roots).Outcome map) :
    ∃ writers packages, p.Complete writers packages ∧
      map = p.completed (p.draft writers packages) := by
  obtain ⟨writers, packages, hc, rfl⟩ := exists_complete_of_outcome ho
  exact ⟨writers, packages, hc.of_withRoots h, by rw [draft_withRoots h]; rfl⟩

end Project

end ImportAtlas
