import ImportAtlas.Proofs.Bases
import ImportAtlas.Proofs.Mirroring
import ImportAtlas.Proofs.Writers

/-!
# Maps made elsewhere and maps that move

The map of a project may be made for another directory, or made in the directory of the project and
moved to the other one. Both are the same map exactly when cleaning judges the entries of scopes
alike before they move; it does when no key of a scope climbs and no name with a colon leads to the
project.

## Main results

* `ImportMap.sorted_eq_iff`: when two maps differ in their order only.
* `ImportMap.sorted_moved_eq_iff`: when two maps that were cleaned and moved are the same.
* `Project.Tidy.exists_moved`: when the map made elsewhere and the map that moves there agree.
* `Project.mapFor_agrees_iff`: the same for projects as they are prepared, with their failures.
* `Project.mapFor_disagrees`: a project whose maps do not agree.
-/

namespace ImportAtlas

open Path (up parts segments)

/-! ### Maps with the same readings -/

namespace ImportMap

variable {map map' : ImportMap}

/-- A map without scopes that have no entries. -/
def Compact (map : ImportMap) : Prop :=
  ∀ q entries, map.scopes.get? q = some entries → entries.isEmpty = false

theorem compact_clean (map : ImportMap) : map.clean.Compact := fun q entries hq =>
  ((tidy_clean map).scope_eq q entries hq).1

/-- Without such scopes a scope can be told from its entries. -/
theorem Compact.get?_scopes (h : map.Compact) (q : String) :
    map.scopes.get? q = if (map.scope q).isEmpty then none else some (map.scope q) := by
  rw [scope, Dict.getD_eq]
  cases hq : map.scopes.get? q with
  | none => rfl
  | some entries => rw [Option.getD_some, h q entries hq, if_neg Bool.false_ne_true]

theorem Respelled.compact {f : String → String} (h : Respelled f map map') (hmap : map.Compact) :
    map'.Compact := by
  intro q entries hq
  rw [Dict.get?_eq_some_iff, h.entries_scopes] at hq
  obtain ⟨e, he, heq⟩ := List.mem_map.1 hq
  obtain ⟨-, rfl⟩ := Prod.mk.inj heq
  rw [Imports.isEmpty_respell]
  exact hmap e.1 e.2 (Dict.get?_eq_some_iff.2 he)

theorem get?_imports_sorted (map : ImportMap) (k : String) :
    map.sorted.imports.get? k = map.imports.get? k :=
  Dict.get?_sorted map.imports k

theorem get?_scope_sorted (map : ImportMap) (q k : String) :
    (map.sorted.scope q).get? k = (map.scope q).get? k := by
  rw [scope, scope, sorted, Dict.getD_eq, Dict.getD_eq, Dict.get?_sorted, Dict.get?_map]
  cases map.scopes.get? q with
  | none => rfl
  | some entries => exact Dict.get?_sorted entries k

/-- **Maps differ in their order only** exactly when they have the same readings, if neither has
scopes without entries. -/
theorem sorted_eq_iff (hmap : map.Compact) (hmap' : map'.Compact) :
    map'.sorted = map.sorted ↔ (∀ k, map'.imports.get? k = map.imports.get? k) ∧
      ∀ q k, (map'.scope q).get? k = (map.scope q).get? k := by
  constructor
  · intro heq
    refine ⟨fun k => ?_, fun q k => ?_⟩
    · rw [← get?_imports_sorted, heq, get?_imports_sorted]
    · rw [← get?_scope_sorted, heq, get?_scope_sorted]
  · rintro ⟨himports, hscope⟩
    have hscopes : ∀ q, (map'.scopes.map fun _ entries => entries.sorted).get? q =
        (map.scopes.map fun _ entries => entries.sorted).get? q := by
      intro q
      have hempty : (map'.scope q).isEmpty = (map.scope q).isEmpty := by
        rw [Bool.eq_iff_iff, Dict.isEmpty_iff, Dict.isEmpty_iff]
        simp only [hscope]
      rw [Dict.get?_map, Dict.get?_map, hmap.get?_scopes, hmap'.get?_scopes, hempty]
      split
      · rfl
      · exact congrArg some (Dict.sorted_eq_of_get?_eq (hscope q))
    rw [sorted, sorted, Dict.sorted_eq_of_get?_eq himports, Dict.sorted_eq_of_get?_eq hscopes]

/-! ### Maps that move after they were cleaned -/

section Moved

variable {f g h : String → String} {lead : String} {moved moved' : ImportMap}
  (hrespelled : Respelled f map map') (hleads : map.Leads f lead)
  (hmoved : Respelled g map.clean moved) (hmoved' : Respelled h map'.clean moved')
  (hvalues : ∀ value ∈ map.values, h (f value) = g value)
  (hinj : ∀ q ∈ map.scopes.keys, ∀ q' ∈ map.scopes.keys, g q = g q' → q = q')
include hrespelled hmoved hmoved' hvalues

theorem get?_imports_moved (k : String) : moved'.imports.get? k = moved.imports.get? k := by
  rw [hmoved'.imports_eq, hmoved.imports_eq, Imports.get?_respell, Imports.get?_respell,
    get?_imports_clean, get?_imports_clean, hrespelled.imports_eq, Imports.get?_respell]
  cases hv : map.imports.get? k with
  | none => rfl
  | some v => exact congrArg some (hvalues v (mem_values_of_get?_imports hv))

include hinj

omit hmoved hmoved' in
/-- No two prefixes become one where the map that was written anew moves. -/
theorem eq_of_moved_eq {q q' : String} (hq : q ∈ map.scopes.keys)
    (hq' : q' ∈ map'.clean.scopes.keys) (heq : h q' = h (f q)) : q' = f q := by
  have hmem := mem_keys_scopes_of_clean hq'
  rw [hrespelled.keys_scopes] at hmem
  obtain ⟨q'', hq'', rfl⟩ := List.mem_map.1 hmem
  rw [hvalues _ (mem_values_of_mem_keys hq''), hvalues _ (mem_values_of_mem_keys hq)] at heq
  rw [hinj q'' hq'' q hq heq]

/-- An entry of a scope is the same after both maps have moved exactly when cleaning kept it, or
not, in both. -/
theorem get?_scope_moved_iff {q : String} (hq : q ∈ map.scopes.keys) (k : String) :
    (moved'.scope (g q)).get? k = (moved.scope (g q)).get? k ↔
      (map'.kept (f q)).get? k = ((map.kept q).get? k).map f := by
  have hread : (moved.scope (g q)).get? k = ((map.kept q).get? k).map g := by
    rw [hmoved.get?_scope (fun q' hq' => hinj q' (mem_keys_scopes_of_clean hq') q hq),
      get?_scope_clean, kept]
  have hread' : (moved'.scope (g q)).get? k = ((map'.kept (f q)).get? k).map h := by
    rw [← hvalues q (mem_values_of_mem_keys hq), hmoved'.get?_scope fun q' hq' =>
      eq_of_moved_eq hrespelled hvalues hinj hq hq', get?_scope_clean, kept]
  rw [hread, hread']
  cases hw : (map.kept q).get? k with
  | none => cases (map'.kept (f q)).get? k <;> simp
  | some w =>
      cases hw' : (map'.kept (f q)).get? k with
      | none => simp
      | some w' =>
          have hscope := map.sub_cleanScope q _ k w hw
          have hscope' := map'.sub_cleanScope (f q) _ k w' hw'
          rw [hrespelled.scope_eq hq, Imports.get?_respell, hscope] at hscope'
          obtain rfl := Option.some.inj hscope'
          simp [hvalues w (mem_values_of_get?_scope hscope)]

include hleads

/-- **When two maps that were cleaned and moved agree.** Let a map be written anew, so that both
move to the same values and no two prefixes become one. Then both are the same map after they were
cleaned and moved exactly when their entries were judged alike. -/
theorem sorted_moved_eq_iff : moved'.sorted = moved.sorted ↔ map.JudgedAlike f := by
  have hscope := fun {q} hq =>
    get?_scope_moved_iff hrespelled hmoved hmoved' hvalues hinj (q := q) hq
  rw [sorted_eq_iff (hmoved.compact (compact_clean map)) (hmoved'.compact (compact_clean map')),
    ← hrespelled.kept_iff hleads]
  constructor
  · rintro ⟨-, hall⟩ q hq k
    exact (hscope hq k).1 (hall (g q) k)
  · intro hkept
    refine ⟨get?_imports_moved hrespelled hmoved hmoved' hvalues, fun s k => ?_⟩
    by_cases hs : s ∈ map.scopes.keys.map g
    · obtain ⟨q, hq, rfl⟩ := List.mem_map.1 hs
      exact (hscope hq k).2 (hkept q hq k)
    · have hnot : s ∉ moved.scopes.keys := by
        rw [hmoved.keys_scopes]
        rintro hmem
        obtain ⟨q, hq, rfl⟩ := List.mem_map.1 hmem
        exact hs (List.mem_map_of_mem (mem_keys_scopes_of_clean hq))
      have hnot' : s ∉ moved'.scopes.keys := by
        rw [hmoved'.keys_scopes]
        rintro hmem
        obtain ⟨q', hq', rfl⟩ := List.mem_map.1 hmem
        have hmem' := mem_keys_scopes_of_clean hq'
        rw [hrespelled.keys_scopes] at hmem'
        obtain ⟨q, hq, rfl⟩ := List.mem_map.1 hmem'
        rw [hvalues q (mem_values_of_mem_keys hq)] at hs
        exact hs (List.mem_map_of_mem hq)
      rw [scope_of_not_mem_keys hnot, scope_of_not_mem_keys hnot']

end Moved

end ImportMap

/-! ### The map made elsewhere and the map that moves -/

namespace Project

variable {p : Project} {directory mapBase : String}

theorem build_of_fault {error : Error} (h : p.finalBuild.fault? = some error) :
    p.build = .error error := by
  simp only [build, h]

/-- The project in a directory makes its map for the directory `mapBase`. -/
def mapFor (graph : DependencyGraph) (files : FileTree) (directory : String) (settings : Settings)
    (env : Environment) (roots? : Option (Dict String PackageId)) (mapBase : String) :
    Except Error ImportMap := do
  let p ← make graph files directory settings env mapBase roots?
  p.build

/-- The map of a project can be moved if the prefixes of its scopes keep apart. -/
theorem exists_rebase_build {source target : String} (hfault : p.finalBuild.fault? = none)
    (hnodup : (p.uncleaned.scopes.keys.map
      (movedValue (forwardSlashes source) (forwardSlashes target))).Nodup) :
    ∃ moved, p.build.bind (·.rebase .relative source target) = .ok moved ∧
      ImportMap.Respelled (movedValue (forwardSlashes source) (forwardSlashes target))
        p.uncleaned.clean moved := by
  have hclean : (p.uncleaned.clean.scopes.keys.map
      (movedValue (forwardSlashes source) (forwardSlashes target))).Nodup :=
    List.Nodup.map_on (fun q hq q' hq' => List.inj_on_of_nodup_map hnodup
      (ImportMap.mem_keys_scopes_of_clean hq) (ImportMap.mem_keys_scopes_of_clean hq'))
      p.uncleaned.clean.scopes.nodup_keys
  obtain ⟨moved, hok, hmoved⟩ := ImportMap.exists_rebase_of_nodup hclean
  refine ⟨moved, ?_, hmoved⟩
  rw [build_eq_ok_iff_clean.2 ⟨hfault, rfl⟩]
  exact hok

/-- **When the map of a tidy project for a directory elsewhere is the map that moves there.** -/
theorem Tidy.exists_moved (hp : p.Tidy) (hhere : p.base = ".")
    (hfault : p.finalBuild.fault? = none) (hdirectory : directory.toList.head? = some '/')
    (hmapBase : mapBase.toList.head? = some '/')
    (hslashes : Path.relative (forwardSlashes directory) (forwardSlashes mapBase) =
      Path.relative directory mapBase) :
    ∃ there here, (p.atBase (Path.relative directory mapBase)).build.bind
        (·.rebase .relative mapBase mapBase) = .ok there ∧
      p.build.bind (·.rebase .relative directory mapBase) = .ok here ∧
      (there.sorted = here.sorted ↔
        p.uncleaned.JudgedAlike (seenFrom (Path.relative directory mapBase))) := by
  have hbase := Path.head?_relative directory mapBase
  obtain ⟨hsame, hrespelled⟩ := hp.uncleaned_atBase hhere hbase
  have hvalues : ∀ value ∈ p.uncleaned.values,
      movedValue (forwardSlashes mapBase) (forwardSlashes mapBase)
          (seenFrom (Path.relative directory mapBase) value) =
        movedValue (forwardSlashes directory) (forwardSlashes mapBase) value := by
    intro value hvalue
    rw [← hslashes]
    exact movedValue_seenFrom (head?_forwardSlashes hdirectory) (head?_forwardSlashes hmapBase)
      (hp.urlOrDownward_uncleaned hfault hhere value hvalue)
  -- Every prefix is the folder of a package, which can be told from where it has moved.
  have hinj : ∀ q ∈ p.uncleaned.scopes.keys, ∀ q' ∈ p.uncleaned.scopes.keys,
      movedValue (forwardSlashes directory) (forwardSlashes mapBase) q =
        movedValue (forwardSlashes directory) (forwardSlashes mapBase) q' → q = q' := by
    intro q hq q' hq' heq
    obtain ⟨id, hid, rfl⟩ := hp.exists_folder hfault hq
    obtain ⟨id', hid', rfl⟩ := hp.exists_folder hfault hq'
    exact hp.packageFolder_eq_of_movedValue hhere (head?_forwardSlashes hdirectory) hid hid' heq
  have hnodup : (p.uncleaned.scopes.keys.map
      (movedValue (forwardSlashes directory) (forwardSlashes mapBase))).Nodup :=
    List.Nodup.map_on hinj p.uncleaned.scopes.nodup_keys
  have hnodup' : ((p.atBase (Path.relative directory mapBase)).uncleaned.scopes.keys.map
      (movedValue (forwardSlashes mapBase) (forwardSlashes mapBase))).Nodup := by
    have hkeys : p.uncleaned.scopes.keys.map
          (movedValue (forwardSlashes mapBase) (forwardSlashes mapBase) ∘
            seenFrom (Path.relative directory mapBase)) =
        p.uncleaned.scopes.keys.map
          (movedValue (forwardSlashes directory) (forwardSlashes mapBase)) :=
      List.map_congr_left fun q hq => hvalues q (ImportMap.mem_values_of_mem_keys hq)
    rw [hrespelled.keys_scopes, List.map_map, hkeys]
    exact hnodup
  obtain ⟨here, hhere', hmoved⟩ := exists_rebase_build hfault hnodup
  obtain ⟨there, hthere, hmoved'⟩ := exists_rebase_build (hsame.trans hfault) hnodup'
  exact ⟨there, here, hthere, hhere', ImportMap.sorted_moved_eq_iff hrespelled
    (hp.leads hhere hbase fun q hq => hp.exists_folder hfault hq) hmoved hmoved' hvalues hinj⟩

section Make

variable {graph : DependencyGraph} {files : FileTree} {settings : Settings} {env : Environment}
  {roots? : Option (Dict String PackageId)}
  (hmake : make graph files directory settings env directory roots? = .ok p)
include hmake

theorem mapFor_self_of_make :
    mapFor graph files directory settings env roots? directory = p.build := by
  rw [mapFor, hmake]
  rfl

theorem mapFor_eq_of_make (hnul : '\x00' ∉ mapBase.toList) :
    mapFor graph files directory settings env roots? mapBase =
      (p.atBase (Path.relative directory mapBase)).build := by
  rw [mapFor, make_eq_map hnul, hmake]
  rfl

end Make

/-- **The map made for a directory and the map that moves there.** Let the project and the map be in
rooted directories between which the path stays the same when backslashes become slashes, and let
the paths of the project be tidy. Then its map cannot be made for either directory, for the same
reason; or the map made for the directory `mapBase` and the map of the project, moved there, are
the same map exactly when the entries of scopes are judged alike. They are if no key of a scope
climbs and no name with a colon is the first one on the way to the project. -/
theorem mapFor_agrees_iff {graph : DependencyGraph} {files : FileTree} {settings : Settings}
    {env : Environment} {roots? : Option (Dict String PackageId)}
    (hdirectory : directory.toList.head? = some '/') (hmapBase : mapBase.toList.head? = some '/')
    (hnul : '\x00' ∉ mapBase.toList)
    (hslashes : Path.relative (forwardSlashes directory) (forwardSlashes mapBase) =
      Path.relative directory mapBase)
    (htidy : ∀ p, make graph files directory settings env directory roots? = .ok p → p.Tidy) :
    (∃ error, mapFor graph files directory settings env roots? mapBase = .error error ∧
      mapFor graph files directory settings env roots? directory = .error error) ∨
    ∃ p there here, make graph files directory settings env directory roots? = .ok p ∧
      (mapFor graph files directory settings env roots? mapBase).bind
        (·.rebase .relative mapBase mapBase) = .ok there ∧
      (mapFor graph files directory settings env roots? directory).bind
        (·.rebase .relative directory mapBase) = .ok here ∧
      (there.sorted = here.sorted ↔
        p.uncleaned.JudgedAlike (seenFrom (Path.relative directory mapBase))) ∧
      ((∀ entries ∈ p.uncleaned.scopes.values, ∀ k ∈ entries.keys, up ∉ segments k.toList) →
        (∀ first ∈ (parts (Path.relative directory mapBase)).head?, ':' ∉ first) →
          there.sorted = here.sorted) := by
  cases hmake : make graph files directory settings env directory roots? with
  | error error =>
      refine Or.inl ⟨error, ?_, ?_⟩
      · rw [mapFor, make_eq_map hnul, hmake]
        rfl
      · rw [mapFor, hmake]
        rfl
  | ok p =>
      have hp := htidy p hmake
      rw [mapFor_eq_of_make hmake hnul, mapFor_self_of_make hmake]
      have hhere := (inPlace_of_make hmake).1.base_eq
      have hbase := Path.head?_relative directory mapBase
      cases hfault : p.finalBuild.fault? with
      | some error =>
          have hfault' := (hp.uncleaned_atBase hhere hbase).1.trans hfault
          exact Or.inl ⟨error, build_of_fault hfault', build_of_fault hfault⟩
      | none =>
          obtain ⟨there, here, hthere, hmoved, hiff⟩ :=
            hp.exists_moved hhere hfault hdirectory hmapBase hslashes
          refine Or.inr ⟨p, there, here, rfl, hthere, hmoved, hiff, fun hkeys hcolon => ?_⟩
          rw [hiff]
          refine ImportMap.judgedAlike_seenFrom hbase (hp.urlOrDownward_uncleaned hfault hhere)
            hkeys ?_
          rwa [Path.reduce_parts_relative]

theorem tidy_flatAliases : flatAliases.Tidy :=
  tidy_of_packages (by decide +kernel) (by decide +kernel) (by decide +kernel) (by decide +kernel)

/-- The map of a project without keys that climb is the same, made for a directory beside the
project or moved there. -/
theorem mapFor_agrees_flatAliases :
    ("/p".toList.head? = some '/' ∧ "/q/r".toList.head? = some '/' ∧ '\x00' ∉ "/q/r".toList ∧
      Path.relative (forwardSlashes "/p") (forwardSlashes "/q/r") = Path.relative "/p" "/q/r" ∧
      ∀ p, make flatAliases.installation.graph flatAliases.installation.files "/p"
        flatAliases.settings .standard "/p" (some flatAliases.roots) = .ok p → p.Tidy) ∧
    ∃ there here, (mapFor flatAliases.installation.graph flatAliases.installation.files "/p"
        flatAliases.settings .standard (some flatAliases.roots) "/q/r").bind
          (·.rebase .relative "/q/r" "/q/r") = .ok there ∧
      (mapFor flatAliases.installation.graph flatAliases.installation.files "/p"
        flatAliases.settings .standard (some flatAliases.roots) "/p").bind
          (·.rebase .relative "/p" "/q/r") = .ok here ∧ there.sorted = here.sorted := by
  have hmake : make flatAliases.installation.graph flatAliases.installation.files "/p"
      flatAliases.settings .standard "/p" (some flatAliases.roots) = .ok flatAliases := rfl
  have htidy : ∀ p, make flatAliases.installation.graph flatAliases.installation.files "/p"
      flatAliases.settings .standard "/p" (some flatAliases.roots) = .ok p → p.Tidy := by
    intro p hp
    rw [← Except.ok.inj (hmake.symm.trans hp)]
    exact tidy_flatAliases
  have hslashes : Path.relative (forwardSlashes "/p") (forwardSlashes "/q/r") =
      Path.relative "/p" "/q/r" := by decide +kernel
  have hfault : flatAliases.finalBuild.fault? = none :=
    Option.isNone_iff_eq_none.1 (by decide +kernel)
  refine ⟨⟨by decide, by decide, by decide, hslashes, htidy⟩, ?_⟩
  rcases mapFor_agrees_iff (by decide) (by decide) (by decide) hslashes htidy with
    ⟨error, -, herror⟩ | ⟨p, there, here, hp, hthere, hhere, -, hagree⟩
  · rw [mapFor_self_of_make hmake, build_eq_ok_iff_clean.2 ⟨hfault, rfl⟩] at herror
    exact absurd herror (by simp)
  · rw [← Except.ok.inj (hmake.symm.trans hp)] at hagree
    exact ⟨there, here, hthere, hhere, hagree (by decide +kernel) (by decide +kernel)⟩

/-! ### Maps that do not agree -/

/-- A project with a package whose map has a key that climbs out of the project and comes back. -/
def returningAlias : Project :=
  installed [("y", ⟨"npm", "x", "1.0.0"⟩)]
    [(⟨"npm", "x", "1.0.0"⟩, described "x" []
      [("./../../../../p/jspm_packages/npm/x@1.0.0/lib.js", .string "./lib.js")])]

/-- The scope of its package. -/
def returningScope : Imports :=
  Dict.ofList [("x", "./jspm_packages/npm/x@1.0.0/index.js"),
    ("x/", "./jspm_packages/npm/x@1.0.0/"),
    ("x/../../../../p/jspm_packages/npm/x@1.0.0/lib.js", "./jspm_packages/npm/x@1.0.0/lib.js")]

theorem kept_returningAlias :
    returningAlias.uncleaned.kept "./jspm_packages/npm/x@1.0.0/" = returningScope := by
  have hscope : returningAlias.uncleaned.scope "./jspm_packages/npm/x@1.0.0/" =
      returningScope := by decide +kernel
  rw [ImportMap.kept, hscope, ImportMap.cleanScope,
    ImportMap.keysByLength_of_pairwise (by decide)]
  decide +kernel

/-- From the directory above the project, the folder of the package followed by the rest of the key
is the file of the key; from the project, it is not. -/
theorem not_judgedAlike_returningAlias :
    ¬ returningAlias.uncleaned.JudgedAlike (seenFrom (Path.relative "/p" "/")) := by
  intro halike
  have hiff := halike "./jspm_packages/npm/x@1.0.0/" (by decide +kernel)
    "x/../../../../p/jspm_packages/npm/x@1.0.0/lib.js" "./jspm_packages/npm/x@1.0.0/lib.js"
    ("x/", "./jspm_packages/npm/x@1.0.0/") (by decide +kernel) (by decide)
    (by rw [kept_returningAlias]; decide +kernel)
  exact absurd (hiff.2 (by decide +kernel)) (by decide +kernel)

/-- The project in a directory that has a backslash in its name. -/
def backslashed : Project :=
  { returningAlias with
    installation := { returningAlias.installation with project := "/a\\b" } }

/-- **The map of a tidy project may be another one when it moves**: cleaning drops an entry whose
key returns to the project by its own name if the map is above the project; and a backslash in the
name of a directory is taken for a slash when the map moves. -/
theorem mapFor_disagrees :
    (make returningAlias.installation.graph returningAlias.installation.files "/p"
        returningAlias.settings .standard "/p" (some returningAlias.roots) = .ok returningAlias ∧
      returningAlias.Tidy ∧
      ∃ there here, (mapFor returningAlias.installation.graph returningAlias.installation.files "/p"
          returningAlias.settings .standard (some returningAlias.roots) "/").bind
            (·.rebase .relative "/" "/") = .ok there ∧
        (mapFor returningAlias.installation.graph returningAlias.installation.files "/p"
          returningAlias.settings .standard (some returningAlias.roots) "/p").bind
            (·.rebase .relative "/p" "/") = .ok here ∧ there.sorted ≠ here.sorted) ∧
    (make returningAlias.installation.graph returningAlias.installation.files "/a\\b"
        returningAlias.settings .standard "/a\\b" (some returningAlias.roots) = .ok backslashed ∧
      backslashed.Tidy ∧
      ∃ there here,
        (mapFor returningAlias.installation.graph returningAlias.installation.files "/a\\b"
          returningAlias.settings .standard (some returningAlias.roots) "/").bind
            (·.rebase .relative "/" "/") = .ok there ∧
        (mapFor returningAlias.installation.graph returningAlias.installation.files "/a\\b"
          returningAlias.settings .standard (some returningAlias.roots) "/a\\b").bind
            (·.rebase .relative "/a\\b" "/") = .ok here ∧ there.sorted ≠ here.sorted) := by
  have hnul : '\x00' ∉ "/".toList := by decide
  have hmake : make returningAlias.installation.graph returningAlias.installation.files "/p"
      returningAlias.settings .standard "/p" (some returningAlias.roots) = .ok returningAlias := rfl
  have hmake' : make returningAlias.installation.graph returningAlias.installation.files "/a\\b"
      returningAlias.settings .standard "/a\\b" (some returningAlias.roots) = .ok backslashed := rfl
  refine ⟨⟨hmake, ?_⟩, hmake', ?_⟩
  · have htidy : returningAlias.Tidy := tidy_of_packages (by decide +kernel) (by decide +kernel)
      (by decide +kernel) (by decide +kernel)
    have hfault : returningAlias.finalBuild.fault? = none :=
      Option.isNone_iff_eq_none.1 (by decide +kernel)
    have hslashes : Path.relative (forwardSlashes "/p") (forwardSlashes "/") =
        Path.relative "/p" "/" := by decide +kernel
    obtain ⟨there, here, hthere, hhere, hiff⟩ :=
      htidy.exists_moved rfl hfault (by decide) (by decide) hslashes
    rw [mapFor_eq_of_make hmake hnul, mapFor_self_of_make hmake]
    exact ⟨htidy, there, here, hthere, hhere,
      fun heq => not_judgedAlike_returningAlias (hiff.1 heq)⟩
  · have htidy : backslashed.Tidy := tidy_of_packages (by decide +kernel) (by decide +kernel)
      (by decide +kernel) (by decide +kernel)
    obtain ⟨here, hhere, hmoved⟩ := @exists_rebase_build backslashed "/a\\b" "/"
      (Option.isNone_iff_eq_none.1 (by decide +kernel)) (by decide +kernel)
    obtain ⟨there, hthere, hmoved'⟩ := @exists_rebase_build
      (backslashed.atBase (Path.relative "/a\\b" "/")) "/" "/"
      (Option.isNone_iff_eq_none.1 (by decide +kernel)) (by decide +kernel)
    rw [mapFor_eq_of_make hmake' hnul, mapFor_self_of_make hmake']
    refine ⟨htidy, there, here, hthere, hhere, fun heq => ?_⟩
    have hread : there.imports.get? "y" = here.imports.get? "y" := by
      rw [← ImportMap.get?_imports_sorted, heq, ImportMap.get?_imports_sorted]
    rw [hmoved.imports_eq, hmoved'.imports_eq, Imports.get?_respell, Imports.get?_respell,
      ImportMap.get?_imports_clean, ImportMap.get?_imports_clean] at hread
    exact absurd hread (by decide +kernel)

end Project

end ImportAtlas
