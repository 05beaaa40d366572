import ImportAtlas.Proofs.Schedule

/-!
# The build that runs is a schedule

The build does its tasks one after another. Every task is some steps of a schedule, so that the
map that it ends with is the outcome of a schedule, and the tasks that it may do are enough.

## Main results

* `Build.steps_reach`, `Build.steps_perform`, `Build.steps_run`: what the build does are steps.
* `Build.agenda_run_eq_nil`: with enough tasks, a build without fault does all of them.
* `Project.outcome_of_build`: the import map of a project is an outcome of its build.
-/

namespace ImportAtlas

open Relation

namespace Stage

variable {p : Project}

/-! ### Waiting for manifests -/

/-- Waiting for several manifests is asking for each and then completing each. -/
theorem steps_getAll (s : Stage) (ids : List PackageId) :
    ReflTransGen (Step p) s { s with reader := s.reader.getAll p.installation ids } := by
  have hrequest : ∀ (l : List PackageId) (s : Stage), ReflTransGen (Step p) s
      { s with reader := l.foldl (ManifestReader.request p.installation) s.reader } := by
    intro l
    induction l with
    | nil => exact fun s => .refl
    | cons id l ih => exact fun s => .head (.request s id) (ih _)
  have hfinish : ∀ (l : List PackageId) (s : Stage), ReflTransGen (Step p) s
      { s with reader := l.foldl (ManifestReader.finish p.installation) s.reader } := by
    intro l
    induction l with
    | nil => exact fun s => .refl
    | cons id l ih => exact fun s => .head (.finish s id) (ih _)
  exact (hrequest ids s).trans (hfinish ids _)

/-- The reader when the manifests for the scope of a package have been read. -/
def waited (p : Project) (reader : ManifestReader) (id : PackageId) (node : PackageNode) :
    ManifestReader :=
  (reader.getAll p.installation (id :: (p.dependencies node).values)).getAll p.installation
    (p.meantPackages ((reader.getAll p.installation
      (id :: (p.dependencies node).values)).manifestOf id) node)

/-- The writer of a package waits and then goes on. -/
theorem steps_scope {s : Stage} {id : PackageId} {node : PackageNode}
    {others : Multiset (PackageId × PackageNode)} (hpackages : s.packages = (id, node) ::ₘ others)
    (hread : (waited p s.reader id node).HasRead
      (p.needs (waited p s.reader id node).manifestOf id node)) :
    ReflTransGen (Step p) s { s with
      map := p.withScope s.map id (p.scopeEntries (waited p s.reader id node).manifestOf id node)
      reader := waited p s.reader id node
      reached := s.reached + ((p.dependencies node).values : Multiset PackageId)
      packages := others } := by
  have hfirst := @steps_getAll p s (id :: (p.dependencies node).values)
  have hsecond := @steps_getAll p
    { s with reader := s.reader.getAll p.installation (id :: (p.dependencies node).values) }
    (p.meantPackages ((s.reader.getAll p.installation
      (id :: (p.dependencies node).values)).manifestOf id) node)
  have hgo := @Step.scope p { s with reader := waited p s.reader id node } id node others hpackages
    hread
  exact (hfirst.trans hsecond).tail hgo

end Stage

/-- The alias of the project that a task is about. -/
def Project.Task.root? : Project.Task → Option (String × PackageId)
  | .root name id => some (name, id)
  | .scope _ _ => none

/-- The package whose scope a task adds. -/
def Project.Task.package? : Project.Task → Option (PackageId × PackageNode)
  | .root _ _ => none
  | .scope id node => some (id, node)

namespace Build

variable {p : Project} {build : Build} {id : PackageId} {node : PackageNode}

/-- The stage that a build is at when it has still to look at `reached`. -/
def stage (build : Build) (reached : Multiset PackageId) : Stage where
  map := build.map
  reader := build.reader
  seen := build.seen
  roots := build.agenda.filterMap Project.Task.root?
  reached := reached
  packages := build.agenda.filterMap Project.Task.package?

/-! ### Faults -/

/-- Without a fault, everything that was waited for has been read. -/
theorem hasRead_of_faultOf {ids : List PackageId} (h : (build.await p ids).faultOf ids = none) :
    (build.await p ids).reader.HasRead ids := by
  intro id hid
  obtain ⟨result, hr⟩ :=
    ManifestReader.exists_result?_getAll p.installation build.reader hid
  have hnone := List.findSome?_eq_none_iff.1 h id hid
  have hresult : (build.await p ids).reader.result? id = some result := hr
  cases result with
  | error error =>
      rw [hresult] at hnone
      exact absurd hnone (by simp)
  | ok manifest => exact ⟨manifest, hresult⟩

/-- **The scope of a package is added when everything that it needs has been read.** -/
theorem of_fault?_populate (h : (build.populate p id node).fault? = none) :
    (Stage.waited p build.reader id node).HasRead
        (p.needs (Stage.waited p build.reader id node).manifestOf id node) ∧
      build.populate p id node = { build with
        map := p.withScope build.map id
          (p.scopeEntries (Stage.waited p build.reader id node).manifestOf id node)
        reader := Stage.waited p build.reader id node
        skipped := build.skipped ++
          p.skippedTargets ((Stage.waited p build.reader id node).manifestOf id) id node } := by
  have heq := h
  rw [populate] at heq
  simp only at heq
  split at heq
  · exact absurd heq (by simp)
  rename_i hknown
  split at heq
  · exact absurd heq (by simp)
  rename_i hmeant
  have hfirst := hasRead_of_faultOf hknown
  have hsecond := hasRead_of_faultOf hmeant
  -- A manifest that has been read stays read while the others are asked for.
  have hstay : (Stage.waited p build.reader id node).HasRead
      (id :: (p.dependencies node).values) := by
    intro other hother
    obtain ⟨manifest, hm⟩ := hfirst other hother
    exact ⟨manifest, ManifestReader.result?_getAll_of_some hm⟩
  have hown : (Stage.waited p build.reader id node).manifestOf id =
      (build.await p (id :: (p.dependencies node).values)).manifestOf id := by
    obtain ⟨manifest, hm⟩ := hfirst id List.mem_cons_self
    have hm' : (Stage.waited p build.reader id node).result? id = some (.ok manifest) :=
      ManifestReader.result?_getAll_of_some hm
    rw [ManifestReader.manifestOf, hm', manifestOf, manifest?, hm]
  refine ⟨?_, ?_⟩
  · intro other hother
    rw [Project.needs, hown] at hother
    rcases List.mem_cons.1 hother with rfl | hother
    · exact hstay _ List.mem_cons_self
    · rcases List.mem_append.1 hother with hother | hother
      · exact hstay other (List.mem_cons_of_mem _ hother)
      · exact hsecond other hother
  · rw [populate]
    simp only [hknown, hmeant]
    rfl

/-! ### Steps -/

/-- A build that has started the writer of a package adds its scope. -/
theorem steps_populate (h : (build.populate p id node).fault? = none)
    (reached : Multiset PackageId) :
    ReflTransGen (Stage.Step p)
      { build.stage reached with packages := (id, node) ::ₘ (build.stage reached).packages }
      ((build.populate p id node).stage
        (reached + ((p.dependencies node).values : Multiset PackageId))) := by
  obtain ⟨hread, heq⟩ := of_fault?_populate h
  have hsteps := @Stage.steps_scope p
    { build.stage reached with packages := (id, node) ::ₘ (build.stage reached).packages } id node
    (build.stage reached).packages rfl hread
  simp only [heq, stage] at hsteps ⊢
  exact hsteps

/-- **Looking at a package is some steps.** -/
theorem steps_reach (h : (build.reach p id).fault? = none) (reached : Multiset PackageId) :
    ReflTransGen (Stage.Step p) (build.stage (id ::ₘ reached))
      ((build.reach p id).stage reached) := by
  rw [reach] at h ⊢
  by_cases hskip : build.fault?.isSome || build.seen.contains id
  · rw [if_pos hskip] at h ⊢
    rw [h, Option.isSome_none, Bool.false_or, List.contains_iff_mem] at hskip
    exact .single (.again rfl hskip)
  · rw [if_neg hskip] at h ⊢
    rw [Bool.or_eq_true, not_or] at hskip
    have hseen : id ∉ build.seen := fun hid => hskip.2 (List.contains_iff_mem.2 hid)
    cases hnode : p.installation.graph.node id with
    | error error =>
        simp only [hnode] at h
        exact absurd h (by simp)
    | ok node =>
        simp only [hnode] at h ⊢
        refine .head (.reach rfl hseen hnode) ?_
        by_cases hempty : (p.dependencies node).isEmpty = true
        · rw [if_pos hempty] at h ⊢
          have hnone : (p.dependencies node).values = [] := by
            rw [Dict.values, List.isEmpty_iff.1 hempty, List.map_nil]
          have hsteps := steps_populate h reached
          rw [hnone, Multiset.coe_nil, Multiset.add_zero] at hsteps
          exact hsteps
        · rw [if_neg hempty] at h ⊢
          have hroots : (build.agenda ++ [Project.Task.scope id node]).filterMap
              Project.Task.root? = build.agenda.filterMap Project.Task.root? := by
            rw [List.filterMap_append]
            exact List.append_nil _
          have hpackages : (((build.agenda ++ [Project.Task.scope id node]).filterMap
              Project.Task.package? : List (PackageId × PackageNode)) : Multiset _) =
              (id, node) ::ₘ (build.agenda.filterMap Project.Task.package? : Multiset _) := by
            rw [List.filterMap_append, ← Multiset.coe_add, Multiset.add_comm]
            rfl
          rw [stage, stage, hroots, hpackages]

/-- A fault is kept. -/
theorem reach_of_fault? (h : build.fault? ≠ none) (id : PackageId) :
    build.reach p id = build := by
  rw [reach, if_pos]
  rw [Option.isSome_iff_ne_none.2 h, Bool.true_or]

theorem foldl_reach_of_fault? (h : build.fault? ≠ none) (ids : List PackageId) :
    ids.foldl (reach p) build = build := by
  induction ids with
  | nil => rfl
  | cons id ids ih => rw [List.foldl_cons, reach_of_fault? h, ih]

/-- Looking at several packages is some steps. -/
theorem steps_foldl_reach {ids : List PackageId}
    (h : (ids.foldl (reach p) build).fault? = none) :
    ReflTransGen (Stage.Step p) (build.stage ids) ((ids.foldl (reach p) build).stage 0) := by
  induction ids generalizing build with
  | nil => exact .refl
  | cons id ids ih =>
      rw [List.foldl_cons] at h ⊢
      have hfirst : (build.reach p id).fault? = none := by
        by_contra hfault
        rw [foldl_reach_of_fault? hfault] at h
        exact hfault h
      exact (steps_reach hfirst ids).trans (ih h)

/-- The task of an alias is some steps. -/
theorem steps_perform_root {name : String}
    (h : (build.perform p (.root name id)).fault? = none) :
    ReflTransGen (Stage.Step p)
      { build.stage 0 with roots := (name, id) ::ₘ (build.stage 0).roots }
      ((build.perform p (.root name id)).stage 0) := by
  simp only [perform] at h ⊢
  cases hfault : (build.await p [id]).faultOf [id] with
  | some error =>
      simp only [hfault] at h
      exact absurd h (by simp)
  | none =>
      simp only [hfault] at h ⊢
      have hread := hasRead_of_faultOf hfault
      have hwait := @Stage.steps_getAll p
        { build.stage 0 with roots := (name, id) ::ₘ (build.stage 0).roots } [id]
      have hgo := @Stage.Step.root p { (build.await p [id]).stage 0 with
        roots := (name, id) ::ₘ (build.stage 0).roots } name id (build.stage 0).roots rfl hread
      exact (hwait.tail hgo).trans (steps_reach h 0)

/-- The task of a package is some steps. -/
theorem steps_perform_scope (h : (build.perform p (.scope id node)).fault? = none) :
    ReflTransGen (Stage.Step p)
      { build.stage 0 with packages := (id, node) ::ₘ (build.stage 0).packages }
      ((build.perform p (.scope id node)).stage 0) := by
  simp only [perform] at h ⊢
  have hfirst : (build.populate p id node).fault? = none := by
    by_contra hfault
    rw [foldl_reach_of_fault? hfault] at h
    exact hfault h
  have hpopulate := steps_populate hfirst 0
  rw [Multiset.zero_add] at hpopulate
  exact hpopulate.trans (steps_foldl_reach h)

/-- **A task is some steps.** -/
theorem steps_perform {task : Project.Task} (h : (build.perform p task).fault? = none) :
    ReflTransGen (Stage.Step p) (({ build with agenda := task :: build.agenda } : Build).stage 0)
      ((build.perform p task).stage 0) := by
  cases task with
  | root name id => exact steps_perform_root h
  | scope id node => exact steps_perform_scope h

theorem run_of_fault? (h : build.fault? ≠ none) (budget : Nat) : build.run p budget = build := by
  cases budget with
  | zero => rfl
  | succ budget => rw [run, if_pos (Option.isSome_iff_ne_none.2 h)]

/-- **A run of the build is some steps.** -/
theorem steps_run {budget : Nat} (h : (build.run p budget).fault? = none) :
    ReflTransGen (Stage.Step p) (build.stage 0) ((build.run p budget).stage 0) := by
  induction budget generalizing build with
  | zero => exact .refl
  | succ budget ih =>
      rw [run] at h ⊢
      by_cases hfault : build.fault?.isSome = true
      · rw [if_pos hfault]
      · rw [if_neg hfault] at h ⊢
        cases hagenda : build.agenda with
        | nil => exact .refl
        | cons task agenda =>
            simp only [hagenda] at h ⊢
            have htask : (({ build with agenda } : Build).perform p task).fault? = none := by
              by_contra hfault
              rw [run_of_fault? hfault] at h
              exact hfault h
            have hsteps := steps_perform htask
            rw [← hagenda] at hsteps
            exact hsteps.trans (ih h)

/-! ### The number of tasks -/

/-- A bound for the number of tasks that a build has still to do: those on its agenda, and one for
every installed package that it has not seen. -/
def tasksLeft (p : Project) (build : Build) : Nat :=
  build.agenda.length +
    (p.installation.graph.packages.keys.filter fun id => !build.seen.contains id).length

theorem agenda_populate (p : Project) (build : Build) (id : PackageId) (node : PackageNode) :
    (build.populate p id node).agenda = build.agenda ∧
      (build.populate p id node).seen = build.seen := by
  rw [populate]
  simp only
  split
  · exact ⟨rfl, rfl⟩
  · split
    · exact ⟨rfl, rfl⟩
    · simp only [addScope, await, and_self]

theorem tasksLeft_populate (p : Project) (build : Build) (id : PackageId) (node : PackageNode) :
    (build.populate p id node).tasksLeft p = build.tasksLeft p := by
  obtain ⟨hagenda, hseen⟩ := agenda_populate p build id node
  rw [tasksLeft, tasksLeft, hagenda, hseen]

/-- A package that is seen for the first time leaves one package less. -/
theorem length_filter_seen_lt {keys seen : List PackageId} (hkey : id ∈ keys) (hseen : id ∉ seen) :
    (keys.filter fun other => !(seen ++ [id]).contains other).length <
      (keys.filter fun other => !seen.contains other).length := by
  have hfilter : (keys.filter fun other => !(seen ++ [id]).contains other) =
      (keys.filter fun other => !seen.contains other).filter fun other => other != id := by
    rw [List.filter_filter]
    refine List.filter_congr fun other _ => ?_
    rw [Bool.eq_iff_iff]
    simp only [Bool.not_eq_true', List.contains_eq_mem, List.mem_append, List.mem_singleton,
      decide_eq_false_iff_not, not_or, Bool.and_eq_true, bne_iff_ne, ne_eq]
    exact and_comm
  rw [hfilter]
  refine List.length_filter_lt_length_iff_exists.2 ⟨id, List.mem_filter.2 ⟨hkey, ?_⟩, by simp⟩
  simpa using hseen

/-- Looking at a package leaves no more to do. -/
theorem tasksLeft_reach (p : Project) (build : Build) (id : PackageId) :
    (build.reach p id).tasksLeft p ≤ build.tasksLeft p := by
  rw [reach]
  by_cases hskip : build.fault?.isSome || build.seen.contains id
  · rw [if_pos hskip]
  · rw [if_neg hskip]
    rw [Bool.or_eq_true, not_or] at hskip
    have hseen : id ∉ build.seen := fun hid => hskip.2 (List.contains_iff_mem.2 hid)
    have hless := @length_filter_seen_lt id p.installation.graph.packages.keys build.seen
    rw [DependencyGraph.node]
    cases hnode : p.installation.graph.packages.get? id with
    | none =>
        simp only [tasksLeft]
        refine Nat.add_le_add_left (List.Sublist.length_le ?_) _
        refine List.monotone_filter_right _ fun other hother => ?_
        simp only [Bool.not_eq_true', List.contains_eq_mem, List.mem_append,
          decide_eq_false_iff_not, not_or] at hother ⊢
        exact hother.1
    | some node =>
        have hlt := hless (Dict.mem_keys_of_get? hnode) hseen
        simp only
        split
        · rw [tasksLeft_populate]
          simp only [tasksLeft]
          omega
        · simp only [tasksLeft, List.length_append, List.length_singleton]
          omega

theorem tasksLeft_foldl_reach (p : Project) (build : Build) (ids : List PackageId) :
    (ids.foldl (reach p) build).tasksLeft p ≤ build.tasksLeft p := by
  induction ids generalizing build with
  | nil => exact Nat.le_refl _
  | cons id ids ih => exact (ih _).trans (tasksLeft_reach p build id)

/-- Doing a task that has been taken from the agenda leaves no more to do. -/
theorem tasksLeft_perform (p : Project) (build : Build) (task : Project.Task) :
    (build.perform p task).tasksLeft p ≤ build.tasksLeft p := by
  cases task with
  | root name id =>
      simp only [perform]
      split
      · exact Nat.le_refl _
      · exact tasksLeft_reach p _ id
  | scope id node =>
      refine (tasksLeft_foldl_reach p _ _).trans ?_
      rw [tasksLeft_populate]

/-- **With enough tasks, a build without fault does all of them.** -/
theorem agenda_run_eq_nil {budget : Nat} (hb : build.tasksLeft p ≤ budget)
    (h : (build.run p budget).fault? = none) : (build.run p budget).agenda = [] := by
  induction budget generalizing build with
  | zero =>
      rw [run]
      rw [tasksLeft] at hb
      exact List.length_eq_zero_iff.1 (by omega)
  | succ budget ih =>
      rw [run] at h ⊢
      by_cases hfault : build.fault?.isSome = true
      · rw [if_pos hfault] at h
        rw [h] at hfault
        exact absurd hfault (by simp)
      · rw [if_neg hfault] at h ⊢
        cases hagenda : build.agenda with
        | nil => simp only [hagenda]
        | cons task agenda =>
            simp only [hagenda] at h ⊢
            refine ih ?_ h
            have hleft := tasksLeft_perform p { build with agenda } task
            simp only [tasksLeft, hagenda, List.length_cons] at hb hleft ⊢
            omega

end Build

namespace Project

variable {p : Project}

/-! ### The whole build -/

/-- Items grouped by a key, over all keys, are the items. -/
theorem perm_flatMap_filter {α β : Type} [DecidableEq β] (key : α → β) {keys : List β}
    (hkeys : keys.Nodup) (l : List α) :
    (keys.flatMap fun b => l.filter fun a => key a = b).Perm
      (l.filter fun a => keys.contains (key a)) := by
  induction keys with
  | nil =>
      rw [List.flatMap_nil, List.filter_eq_nil_iff.2 fun a _ => by simp]
  | cons b keys ih =>
      obtain ⟨hb, hnodup⟩ := List.nodup_cons.1 hkeys
      rw [List.flatMap_cons]
      refine ((ih hnodup).append_left _).trans ?_
      have hsplit := List.filter_append_perm (fun a => decide (key a = b))
        (l.filter fun a => (b :: keys).contains (key a))
      have hleft : ((l.filter fun a => (b :: keys).contains (key a)).filter
          fun a => decide (key a = b)) = l.filter fun a => decide (key a = b) := by
        rw [List.filter_filter]
        refine List.filter_congr fun a _ => ?_
        rw [Bool.and_eq_left_iff_imp]
        intro ha
        simp [of_decide_eq_true ha]
      have hright : ((l.filter fun a => (b :: keys).contains (key a)).filter
          fun a => !decide (key a = b)) = l.filter fun a => keys.contains (key a) := by
        rw [List.filter_filter]
        refine List.filter_congr fun a _ => ?_
        by_cases ha : key a = b
        · simp [ha, hb]
        · simp [ha]
      rw [hleft, hright] at hsplit
      exact hsplit

theorem nodup_eraseDups {α : Type} [DecidableEq α] (l : List α) : l.eraseDups.Nodup := by
  induction hn : l.length using Nat.strong_induction_on generalizing l with
  | _ n ih =>
      subst hn
      cases l with
      | nil => exact List.nodup_nil
      | cons a l =>
          have hlt : (l.filter fun b => !b == a).length < (a :: l).length :=
            Nat.lt_succ_of_le (List.length_filter_le _ l)
          rw [List.eraseDups_cons]
          refine List.nodup_cons.2 ⟨fun ha => ?_, ih _ hlt _ rfl⟩
          rw [List.mem_eraseDups] at ha
          simpa using (List.mem_filter.1 ha).2

/-- **Every alias that is mapped arrives once.** -/
theorem perm_arrivals (p : Project) : p.arrivals.Perm (p.mapped p.roots).entries := by
  rw [arrivals]
  generalize (p.mapped p.roots).entries = roots
  have hids : ((roots.map Prod.snd).eraseDups.filter (fun id => !p.installation.needsFile id) ++
      (roots.map Prod.snd).eraseDups.filter p.installation.needsFile).Perm
      (roots.map Prod.snd).eraseDups :=
    List.perm_append_comm.trans (List.filter_append_perm _ _)
  refine (hids.flatMap_right _).trans ?_
  refine (perm_flatMap_filter Prod.snd (nodup_eraseDups _) roots).trans ?_
  rw [List.filter_eq_self.2]
  intro root hroot
  rw [List.contains_iff_mem, List.mem_eraseDups]
  exact List.mem_map_of_mem hroot

theorem stage_start (p : Project) : (Build.start p).stage 0 = Stage.start p := by
  have hroots : (p.arrivals.map fun root => Task.root root.1 root.2).filterMap Task.root? =
      p.arrivals := by
    rw [List.filterMap_map]
    exact List.filterMap_some
  have hpackages : (p.arrivals.map fun root => Task.root root.1 root.2).filterMap
      Task.package? = [] := by
    rw [List.filterMap_map]
    exact List.filterMap_eq_nil_iff.2 fun _ _ => rfl
  have harrivals : (p.arrivals : Multiset (String × PackageId)) = (p.mapped p.roots).entries :=
    Multiset.coe_eq_coe.2 p.perm_arrivals
  rw [Stage.start, ← harrivals]
  simp only [Build.stage, Build.start, hroots, hpackages]
  rfl

theorem tasksLeft_start (p : Project) : (Build.start p).tasksLeft p ≤ p.taskLimit := by
  have harrivals : p.arrivals.length ≤ p.roots.size := by
    rw [p.perm_arrivals.length_eq]
    exact List.length_filter_le _ _
  have hkeys : (p.installation.graph.packages.keys.filter fun id =>
      !([] : List PackageId).contains id).length ≤ p.installation.graph.packages.size := by
    refine (List.length_filter_le _ _).trans ?_
    rw [Dict.keys, List.length_map, Dict.size]
  rw [Build.tasksLeft, taskLimit]
  refine Nat.add_le_add ?_ hkeys
  simpa [Build.start] using harrivals

theorem build_eq_ok_iff {map : ImportMap} :
    p.build = .ok map ↔ p.finalBuild.fault? = none ∧ map = p.completed p.finalBuild.map := by
  rw [build]
  cases p.finalBuild.fault? with
  | some error => simp
  | none =>
      rw [completed]
      constructor
      · intro h
        exact ⟨rfl, (Except.ok.inj h).symm⟩
      · rintro ⟨-, rfl⟩
        rfl

/-- A build without a fault ends at a stage where every writer has written. -/
theorem steps_finalBuild (hfault : p.finalBuild.fault? = none) :
    ReflTransGen (Stage.Step p) (.start p) (p.finalBuild.stage 0) ∧
      (p.finalBuild.stage 0).Finished := by
  have hsteps := Build.steps_run hfault
  rw [stage_start] at hsteps
  have hagenda : p.finalBuild.agenda = [] := Build.agenda_run_eq_nil p.tasksLeft_start hfault
  refine ⟨hsteps, ?_, rfl, ?_⟩
  · simp only [Build.stage, hagenda, List.filterMap_nil, Multiset.coe_nil]
  · simp only [Build.stage, hagenda, List.filterMap_nil, Multiset.coe_nil]

/-- **The import map of a project is an outcome of its build.** -/
theorem outcome_of_build {map : ImportMap} (h : p.build = .ok map) : p.Outcome map := by
  obtain ⟨hfault, hmap⟩ := build_eq_ok_iff.1 h
  obtain ⟨hsteps, hf⟩ := steps_finalBuild hfault
  exact ⟨p.finalBuild.stage 0, hsteps, hf, hmap⟩

/-- The map of a build without a fault is a draft of all writers. -/
theorem exists_complete_of_finalBuild (hfault : p.finalBuild.fault? = none) :
    ∃ roots packages, p.Complete roots packages ∧ p.finalBuild.map = p.draft roots packages := by
  obtain ⟨hsteps, hf⟩ := steps_finalBuild hfault
  obtain ⟨roots, packages, hsound⟩ := Stage.sound_of_steps hsteps
  exact ⟨roots, packages, hsound.complete hf, hsound.map_eq⟩

end Project

end ImportAtlas
