import Mathlib.Algebra.BigOperators.Group.Finset.Basic
import Mathlib.Algebra.Order.BigOperators.Group.Multiset
import ImportAtlas.Proofs.Availability

/-!
# Which packages a build visits

A writer asks for the manifests that it needs, one group after the other, and a manifest is read
for writers that ask for it only. So a build has finitely many steps in every order: it comes to
the reachable packages alone, starts the writer of each of them once, and ends with all of them
written, or with a writer that cannot go on because a required package is not available.

## Summary

* `Stage.Asks` are the manifests that the writers of a stage wait for.
* `Stage.Turn` are the steps of a build that only reads what is asked for.
* `Stage.Faulty` is a stage with a writer that cannot go on.

## Main results

* `Stage.Visiting.step`, `Stage.visiting_of_steps`: what has been written and what has been seen at
  every stage of every schedule.
* `Stage.exists_turn`: a build goes on until it has ended or is at fault.
* `Stage.Visiting.remaining_lt`: every turn leaves less to be done.
* `Project.visits_reachable_once`: what a build visits, in every order.
-/

namespace ImportAtlas

open Relation

/-- What a build comes to is reachable. -/
theorem Project.Reaches.reachable {p : Project} {id : PackageId} (h : p.Reaches id) :
    p.Reachable id := by
  induction h with
  | root hroot _ => exact .root hroot
  | dependency _ hnode _ hdep ih => exact .dependency ih hnode hdep

namespace Stage

variable {p : Project} {s s' : Stage} {id : PackageId}
  {roots : List (String × PackageId)} {packages : List (PackageId × PackageNode)}

/-! ### Turns -/

/-- The manifests that the writers of a stage wait for: an alias of the project for that of its
package; a package for its own, then for those of its aliases, and then for those of the packages
that it means, one after the other. -/
inductive Asks (p : Project) (s : Stage) : PackageId → Prop
  | root {name : String} {id : PackageId} (hroot : (name, id) ∈ s.roots) : Asks p s id
  | own {id : PackageId} {node : PackageNode} (hpackage : (id, node) ∈ s.packages) : Asks p s id
  | dependency {id dep : PackageId} {node : PackageNode} (hpackage : (id, node) ∈ s.packages)
      (hread : s.reader.HasRead [id]) (hdep : dep ∈ (p.dependencies node).values) : Asks p s dep
  | meant {id dep : PackageId} {node : PackageNode} {before after : List PackageId}
      (hpackage : (id, node) ∈ s.packages)
      (hread : s.reader.HasRead (id :: ((p.dependencies node).values ++ before)))
      (hmeant : p.meantPackages (s.reader.manifestOf id) node = before ++ dep :: after) :
      Asks p s dep

/-- A step that changes something, and in which a manifest is asked for by a writer that waits for
it, if it is asked for. -/
structure Turn (p : Project) (s s' : Stage) : Prop where
  step : Step p s s'
  ne : s' ≠ s
  asks : ∀ id ∈ s'.reader.readings.keys, id ∉ s.reader.readings.keys → Asks p s id

/-- A stage with a writer that cannot go on: a manifest that it waits for could not be read, or a
package that it leads to is not installed. -/
inductive Faulty (p : Project) (s : Stage) : Prop
  | unreadable {id : PackageId} {error : Error} (hasks : Asks p s id)
      (hresult : s.reader.result? id = some (.error error))
  | missing {id : PackageId} {error : Error} (hreached : id ∈ s.reached) (hseen : id ∉ s.seen)
      (hnode : p.installation.graph.node id = .error error)

/-! ### What holds at every stage -/

/-- What holds when `roots` and `packages` have written, in this order. -/
structure Visiting (p : Project) (s : Stage) (roots : List (String × PackageId))
    (packages : List (PackageId × PackageNode)) : Prop where
  sound : Sound p s roots packages
  /-- No writer of a package starts twice. -/
  nodup_seen : s.seen.Nodup
  /-- A writer that has started has written once, or is waiting once. -/
  seen_eq : (s.seen : Multiset PackageId) =
    (packages.map Prod.fst : List PackageId) + s.packages.map Prod.fst

theorem visiting_start (p : Project) : Visiting p (.start p) [] [] where
  sound := sound_start p
  nodup_seen := List.nodup_nil
  seen_eq := rfl

namespace Visiting

/-- Every package that is waited for is required. -/
theorem required_of_asks (h : Visiting p s roots packages) (hasks : Asks p s id) :
    p.Required id := by
  have hpackage : ∀ package ∈ s.packages, p.Reachable package.1 ∧
      p.installation.graph.node package.1 = .ok package.2 := fun package hmem =>
    ⟨(h.sound.reaches_packages package hmem).1.reachable,
      (h.sound.reaches_packages package hmem).2⟩
  cases hasks with
  | @root name id hroot =>
      have hmapped : (name, id) ∈ (p.mapped p.roots).entries := by
        rw [← Multiset.mem_coe, ← h.sound.roots_eq]
        exact Multiset.mem_add.2 (Or.inr hroot)
      exact .reachable (.root hmapped)
  | own hmem => exact .reachable (hpackage _ hmem).1
  | dependency hmem _ hdep =>
      exact .reachable (.dependency (hpackage _ hmem).1 (hpackage _ hmem).2 hdep)
  | @meant owner dep node before after hmem hread hmeant =>
      obtain ⟨hid, hnode⟩ := hpackage _ hmem
      rw [(Project.manifestOf_eq h.sound.faithful hread).2 owner List.mem_cons_self] at hmeant
      refine Project.required_of_mem_needs hid hnode (List.mem_cons_of_mem _ ?_)
      exact List.mem_append_right _ (hmeant ▸ List.mem_append_right _ List.mem_cons_self)

/-- What has been seen is reachable. -/
theorem reachable_of_mem_seen (h : Visiting p s roots packages) (hid : id ∈ s.seen) :
    p.Reachable id := by
  obtain ⟨node, hnode | hnode⟩ := h.sound.seen_cases id hid
  · exact (h.sound.populates _ hnode).reaches.reachable
  · exact (h.sound.reaches_packages _ hnode).1.reachable

/-- **Every step keeps what holds.** -/
theorem step (h : Visiting p s roots packages) (hs : Step p s s') :
    ∃ roots packages, Visiting p s' roots packages := by
  cases hs with
  | request id =>
      exact ⟨roots, packages, { h with sound := h.sound.withReader (h.sound.faithful.request id) }⟩
  | finish id =>
      exact ⟨roots, packages, { h with sound := h.sound.withReader (h.sound.faithful.finish id) }⟩
  | root hroots hread => exact ⟨_, packages, { h with sound := h.sound.root hroots hread }⟩
  | again hreached hseen =>
      exact ⟨roots, packages, { h with sound := h.sound.again hreached hseen }⟩
  | @reach id others node hreached hseen hnode =>
      refine ⟨roots, packages, { h with
        sound := h.sound.reach hreached hnode, nodup_seen := ?_, seen_eq := ?_ }⟩
      · refine List.nodup_append.2 ⟨h.nodup_seen, List.nodup_singleton id, ?_⟩
        rintro other hother _ hid rfl
        exact hseen (List.mem_singleton.1 hid ▸ hother)
      · rw [← Multiset.coe_add, h.seen_eq, Multiset.map_cons, Multiset.coe_singleton,
          Multiset.add_assoc, Multiset.add_comm _ {id}, Multiset.singleton_add]
  | @scope id node others hpackages hread =>
      refine ⟨roots, _, { h with sound := h.sound.scope hpackages hread, seen_eq := ?_ }⟩
      rw [h.seen_eq, hpackages, Multiset.map_cons, List.map_append, ← Multiset.coe_add,
        Multiset.add_assoc, List.map_singleton, Multiset.coe_singleton, Multiset.singleton_add]

end Visiting

theorem visiting_of_steps (h : ReflTransGen (Step p) (start p) s) :
    ∃ roots packages, Visiting p s roots packages := by
  induction h with
  | refl => exact ⟨[], [], visiting_start p⟩
  | tail _ hs ih =>
      obtain ⟨roots, packages, hvisiting⟩ := ih
      exact hvisiting.step hs

/-! ### A build goes on -/

/-- A manifest that is waited for is asked for, or its reading is completed, or it is at fault. -/
theorem exists_turn_of_asks (hasks : Asks p s id)
    (hunread : ∀ manifest, s.reader.result? id ≠ some (.ok manifest)) (hfault : ¬ Faulty p s) :
    ∃ s', Turn p s s' := by
  cases hreading : s.reader.readings.get? id with
  | none =>
      have hnew : id ∉ s.reader.readings.keys := Dict.get?_eq_none_iff.1 hreading
      refine ⟨_, .request s id, fun heq => hnew ?_, fun other hother hnot => ?_⟩
      · rw [← heq]
        exact ManifestReader.mem_keys_request.2 (Or.inl rfl)
      · rw [(ManifestReader.mem_keys_request.1 hother).resolve_right hnot]
        exact hasks
  | some reading =>
      have hkey := Dict.mem_keys_of_get? hreading
      cases reading with
      | underWay =>
          refine ⟨_, .finish s id, fun heq => ?_, fun other hother hnot => ?_⟩
          · obtain ⟨result, hresult⟩ :=
              @ManifestReader.exists_result?_finish p.installation _ id hkey
            have hreader : s.reader.finish p.installation id = s.reader := congrArg Stage.reader heq
            rw [hreader, ManifestReader.result?_eq_some_iff, hreading] at hresult
            exact absurd hresult (by simp)
          · exact absurd (ManifestReader.mem_keys_finish.1 hother) hnot
      | finished result =>
          have hresult := ManifestReader.result?_eq_some_iff.2 hreading
          cases result with
          | ok manifest => exact absurd hresult (hunread manifest)
          | error error => exact absurd (.unreadable hasks hresult) hfault

/-- Of manifests that have not all been read there is a first one that has not. -/
theorem exists_first_unread {reader : ManifestReader} {ids : List PackageId}
    (h : ¬ reader.HasRead ids) : ∃ before id after, ids = before ++ id :: after ∧
      reader.HasRead before ∧ ∀ manifest, reader.result? id ≠ some (.ok manifest) := by
  induction ids with
  | nil => exact absurd (fun _ hid => absurd hid List.not_mem_nil) h
  | cons id ids ih =>
      by_cases hid : ∃ manifest, reader.result? id = some (.ok manifest)
      · obtain ⟨before, first, after, rfl, hbefore, hfirst⟩ := ih fun hids =>
          h fun other hother => by
          rcases List.mem_cons.1 hother with rfl | hother
          · exact hid
          · exact hids other hother
        refine ⟨id :: before, first, after, rfl, fun other hother => ?_, hfirst⟩
        rcases List.mem_cons.1 hother with rfl | hother
        · exact hid
        · exact hbefore other hother
      · exact ⟨[], id, ids, rfl, fun _ hother => absurd hother List.not_mem_nil,
          fun manifest hm => hid ⟨manifest, hm⟩⟩

/-- The writer of a package asks for the first manifest that it needs and that has not been read:
its own, or else one of a dependency, or else one that its manifest means. -/
theorem asks_of_needs {node : PackageNode} {before after : List PackageId} {other : PackageId}
    (hpackage : (id, node) ∈ s.packages)
    (hsplit : p.needs s.reader.manifestOf id node = before ++ other :: after)
    (hbefore : s.reader.HasRead before) : Asks p s other := by
  rw [Project.needs] at hsplit
  cases before with
  | nil =>
      rw [← (List.cons.inj hsplit).1]
      exact .own hpackage
  | cons first before =>
      obtain ⟨rfl, hrest⟩ := List.cons.inj hsplit
      have hown : s.reader.HasRead [id] := fun i hi =>
        hbefore i (List.mem_singleton.1 hi ▸ List.mem_cons_self)
      rcases List.append_eq_append_iff.1 hrest with ⟨more, hdeps, hmeant⟩ | ⟨more, hdeps, hmeant⟩
      · refine .meant hpackage ?_ hmeant
        rwa [hdeps] at hbefore
      · cases more with
        | nil =>
            rw [List.append_nil] at hdeps
            have hread : s.reader.HasRead (id :: ((p.dependencies node).values ++ [])) := by
              rwa [List.append_nil, hdeps]
            exact .meant hpackage hread hmeant.symm
        | cons next more =>
            refine .dependency hpackage hown ?_
            rw [hdeps, (List.cons.inj hmeant).1]
            exact List.mem_append_right _ List.mem_cons_self

/-- The writer of a package waits for a manifest that has not been read, or it goes on. -/
theorem exists_turn_of_package {node : PackageNode} (hpackage : (id, node) ∈ s.packages)
    (hfault : ¬ Faulty p s) : ∃ s', Turn p s s' := by
  by_cases hread : s.reader.HasRead (p.needs s.reader.manifestOf id node)
  · obtain ⟨others, hpackages⟩ := Multiset.exists_cons_of_mem hpackage
    refine ⟨_, .scope hpackages hread, fun heq => ?_, fun _ hid hnot => absurd hid hnot⟩
    have hcard := congrArg (fun s => s.packages.card) heq
    simp [hpackages] at hcard
  · obtain ⟨before, other, after, hsplit, hbefore, hunread⟩ := exists_first_unread hread
    exact exists_turn_of_asks (asks_of_needs hpackage hsplit hbefore) hunread hfault

/-- **A build goes on until it has ended or is at fault.** -/
theorem exists_turn (hfinished : ¬ s.Finished) (hfault : ¬ Faulty p s) : ∃ s', Turn p s s' := by
  by_cases hreached : s.reached = 0
  · by_cases hpackages : s.packages = 0
    · have hroots : s.roots ≠ 0 := fun h => hfinished ⟨h, hreached, hpackages⟩
      obtain ⟨⟨name, id⟩, hroot⟩ := Multiset.exists_mem_of_ne_zero hroots
      by_cases hread : ∃ manifest, s.reader.result? id = some (.ok manifest)
      · obtain ⟨others, hothers⟩ := Multiset.exists_cons_of_mem hroot
        refine ⟨_, .root hothers fun other hother => ?_, fun heq => ?_,
          fun _ hid hnot => absurd hid hnot⟩
        · rw [List.mem_singleton.1 hother]
          exact hread
        · have hcard := congrArg (fun s => s.roots.card) heq
          simp [hothers] at hcard
      · exact exists_turn_of_asks (.root hroot) (fun manifest hm => hread ⟨manifest, hm⟩) hfault
    · obtain ⟨⟨id, node⟩, hpackage⟩ := Multiset.exists_mem_of_ne_zero hpackages
      exact exists_turn_of_package hpackage hfault
  · obtain ⟨id, hid⟩ := Multiset.exists_mem_of_ne_zero hreached
    obtain ⟨others, hothers⟩ := Multiset.exists_cons_of_mem hid
    have hne : ∀ {s' : Stage}, s'.reached = others → s' ≠ s := by
      rintro s' hs' rfl
      have hcard := congrArg Multiset.card hothers
      simp [hs'] at hcard
    by_cases hseen : id ∈ s.seen
    · exact ⟨_, .again hothers hseen, hne rfl, fun _ hid hnot => absurd hid hnot⟩
    · cases hnode : p.installation.graph.node id with
      | error error => exact absurd (.missing hid hseen hnode) hfault
      | ok node => exact ⟨_, .reach hothers hseen hnode, hne rfl, fun _ hid hnot => absurd hid hnot⟩

/-! ### A build ends -/

/-- The steps that are left for the manifest of a package: it is asked for, and read. -/
def unread (reader : ManifestReader) (id : PackageId) : Nat :=
  match reader.readings.get? id with
  | none => 2
  | some .underWay => 1
  | some (.finished _) => 0

/-- The steps of the writer of a package: it goes on, and all that it leads to is looked at. -/
def writerCost (p : Project) (node : PackageNode) : Nat := 1 + (p.dependencies node).values.length

/-- The steps that are left for the writer of a package that may still start. -/
def unseen (p : Project) (seen : List PackageId) (id : PackageId) : Nat :=
  match p.installation.graph.node id with
  | .ok node => if id ∈ seen then 0 else writerCost p node
  | .error _ => 0

/-- An upper bound on the number of steps that are left. -/
def remaining (p : Project) (s : Stage) : Nat :=
  2 * s.roots.card + s.reached.card + (s.packages.map fun e => writerCost p e.2).sum +
    (∑ id ∈ p.candidates, unread s.reader id + ∑ id ∈ p.candidates, unseen p s.seen id)

/-- A sum falls with one of its terms. -/
theorem sum_add_le {ids : Finset PackageId} {before after : PackageId → Nat} {cost : Nat}
    (hid : id ∈ ids) (hself : after id + cost ≤ before id)
    (hother : ∀ other, other ≠ id → after other = before other) :
    ∑ other ∈ ids, after other + cost ≤ ∑ other ∈ ids, before other := by
  have hrest : ∑ other ∈ ids.erase id, after other = ∑ other ∈ ids.erase id, before other :=
    Finset.sum_congr rfl fun other h => hother other (Finset.ne_of_mem_erase h)
  rw [← Finset.add_sum_erase ids after hid, ← Finset.add_sum_erase ids before hid, hrest]
  omega

theorem sum_unread_request (hid : id ∈ p.candidates) (hnew : id ∉ s.reader.readings.keys) :
    ∑ other ∈ p.candidates, unread (s.reader.request p.installation id) other + 1 ≤
      ∑ other ∈ p.candidates, unread s.reader other := by
  have hnone : s.reader.readings.get? id = none := Dict.get?_eq_none_iff.2 hnew
  have hcontains : ¬ s.reader.readings.contains id = true := fun h =>
    hnew (Dict.contains_eq_true.1 h)
  rw [ManifestReader.request, if_neg hcontains]
  refine sum_add_le hid ?_ fun other hother => ?_
  · simp only [unread, Dict.get?_insert, if_true, hnone]
    omega
  · simp only [unread, Dict.get?_insert, if_neg hother]

theorem sum_unread_finish (hid : id ∈ p.candidates)
    (hunderWay : s.reader.readings.get? id = some .underWay) :
    ∑ other ∈ p.candidates, unread (s.reader.finish p.installation id) other + 1 ≤
      ∑ other ∈ p.candidates, unread s.reader other := by
  rw [ManifestReader.finish, hunderWay]
  refine sum_add_le hid ?_ fun other hother => ?_
  · simp only [unread, Dict.get?_insert, if_true, hunderWay]
    omega
  · simp only [unread, Dict.get?_insert, if_neg hother]

theorem sum_unseen_append {node : PackageNode} (hid : id ∈ p.candidates) (hnew : id ∉ s.seen)
    (hnode : p.installation.graph.node id = .ok node) :
    ∑ other ∈ p.candidates, unseen p (s.seen ++ [id]) other + writerCost p node ≤
      ∑ other ∈ p.candidates, unseen p s.seen other := by
  refine sum_add_le hid ?_ fun other hother => ?_
  · simp only [unseen, hnode, if_neg hnew, List.mem_append, List.mem_singleton, or_true, if_true]
    omega
  · simp only [unseen, List.mem_append, List.mem_singleton, hother, or_false]

/-- Whether only manifests of candidates were asked for. -/
def AskedFew (p : Project) (s : Stage) : Prop :=
  ∀ id ∈ s.reader.readings.keys, id ∈ p.candidates

theorem Visiting.askedFew (h : Visiting p s roots packages) (hfew : AskedFew p s)
    (ht : Turn p s s') : AskedFew p s' := by
  intro id hid
  by_cases hold : id ∈ s.reader.readings.keys
  · exact hfew id hold
  · exact (h.required_of_asks (ht.asks id hid hold)).mem_candidates

/-- **Every turn leaves less to be done.** -/
theorem Visiting.remaining_lt (h : Visiting p s roots packages) (hfew : AskedFew p s)
    (ht : Turn p s s') : remaining p s' < remaining p s := by
  have hasks := ht.asks
  have hne := ht.ne
  cases ht.step with
  | request id =>
      by_cases hnew : id ∈ s.reader.readings.keys
      · -- A request for a manifest that has been asked for is no turn.
        refine absurd ?_ hne
        rw [ManifestReader.request, if_pos (Dict.contains_eq_true.2 hnew)]
      · have hkey := (@ManifestReader.mem_keys_request p.installation s.reader id id).2 (Or.inl rfl)
        have hle := sum_unread_request
          (h.required_of_asks (hasks id hkey hnew)).mem_candidates hnew
        simp only [remaining]
        omega
  | finish id =>
      cases hreading : s.reader.readings.get? id with
      | none =>
          -- Reading cannot finish that has not begun.
          refine absurd ?_ hne
          rw [ManifestReader.finish, hreading]
      | some reading =>
          cases reading with
          | underWay =>
              have hle := sum_unread_finish (hfew id (Dict.mem_keys_of_get? hreading)) hreading
              simp only [remaining]
              omega
          | finished result =>
              refine absurd ?_ hne
              rw [ManifestReader.finish, hreading]
  | root hroots _ =>
      simp only [remaining, hroots, Multiset.card_cons]
      omega
  | again hreached _ =>
      simp only [remaining, hreached, Multiset.card_cons]
      omega
  | @reach id others node hreached hseen hnode =>
      have hmem : id ∈ s.reached := hreached ▸ Multiset.mem_cons_self _ _
      have hle := sum_unseen_append
        (h.sound.reaches_reached id hmem).reachable.mem_candidates hseen hnode
      simp only [remaining, hreached, Multiset.card_cons, Multiset.map_cons, Multiset.sum_cons]
      omega
  | @scope id node others hpackages _ =>
      simp only [remaining, hpackages, Multiset.map_cons, Multiset.sum_cons, Multiset.card_add,
        Multiset.coe_card, writerCost]
      omega

/-- A schedule takes no more turns than there are left at its beginning. -/
theorem length_le {stages : Nat → Stage} {n : Nat} (hstart : stages 0 = start p)
    (hturn : ∀ i < n, Turn p (stages i) (stages (i + 1))) : n ≤ remaining p (start p) := by
  rw [← hstart]
  refine @length_le_of_measure_lt _ stages (Turn p)
    (fun s => (∃ roots packages, Visiting p s roots packages) ∧ AskedFew p s) (remaining p) n
    ?_ ?_ ?_ hturn
  · rw [hstart]
    exact ⟨⟨[], [], visiting_start p⟩, fun _ h => absurd h List.not_mem_nil⟩
  · rintro s s' ⟨⟨roots, packages, hvisiting⟩, hfew⟩ ht
    exact ⟨hvisiting.step ht.step, hvisiting.askedFew hfew ht⟩
  · rintro s s' ⟨⟨roots, packages, hvisiting⟩, hfew⟩ ht
    exact hvisiting.remaining_lt hfew ht

/-! ### The end of a build -/

/-- **A build is at fault only if something that it requires is not available.** -/
theorem Visiting.not_available (h : Visiting p s roots packages) (hfault : Faulty p s) :
    ¬ p.Available := by
  intro ha
  cases hfault with
  | @unreadable id error hasks hresult =>
      obtain ⟨manifest, hm⟩ := ha id (h.required_of_asks hasks) id List.mem_cons_self
      have herror := h.sound.faithful id _ hresult
      rw [hm] at herror
      exact absurd herror (by simp)
  | @missing id error hreached _ hnode =>
      have hid := (h.sound.reaches_reached id hreached).reachable
      obtain ⟨node, hok⟩ := Project.exists_node_of_readable (ha id (.reachable hid))
      rw [hnode] at hok
      exact absurd hok (by simp)

/-- When all writers have written, every package that is reachable has been seen. -/
theorem Visiting.mem_seen (h : Visiting p s roots packages) (hf : s.Finished)
    (hid : p.Reachable id) : id ∈ s.seen :=
  h.sound.mem_seen hf ((h.sound.complete hf).reaches hid)

/-- When all writers have written, those that have been seen have written once. -/
theorem Visiting.perm_seen (h : Visiting p s roots packages) (hf : s.Finished) :
    (packages.map Prod.fst).Perm s.seen := by
  have hseen := h.seen_eq
  rw [hf.2.2, Multiset.map_zero, Multiset.add_zero] at hseen
  exact Multiset.coe_eq_coe.1 hseen.symm

end Stage

namespace Project

/-- Every scope of an outcome is at the folder of a package that is reachable. -/
theorem exists_reachable_of_outcome {p : Project} {map : ImportMap} (h : p.Outcome map)
    {folder : String} (hfolder : folder ∈ map.scopes.keys) :
    ∃ id, p.Reachable id ∧ folder = p.packageFolder id := by
  obtain ⟨roots, packages, hc, rfl⟩ := exists_complete_of_outcome h
  have hdraft : folder ∈ (p.draft roots packages).scopes.keys := by
    have hmem := ImportMap.mem_keys_scopes_of_clean hfolder
    split at hmem
    · rwa [scopes_addBuiltins] at hmem
    · exact hmem
  rw [draft, Dict.mem_keys_ofList] at hdraft
  obtain ⟨⟨folder', entries⟩, hmem, rfl⟩ := List.mem_map.1 hdraft
  obtain ⟨package, hpackage, hadded⟩ := List.mem_flatMap.1 hmem
  exact ⟨package.1, ((hc.mem_packages_iff package).1 hpackage).reaches.reachable,
    (mem_addedScope.1 hadded).2.1⟩

/-- **A build visits the packages that are reachable, once each.** Its turns are bounded in number.
At every stage it has ended, or it is at fault, or it goes on; and no writer has started twice, nor
one of a package that is not reachable. It ends only if everything that it requires is available,
with what the aliases and the reachable packages have written, each once; and it is at fault only
if something that it requires is not. So whether it succeeds does not depend on the order, and the
build that runs is one of them. All scopes of its map are at folders of reachable packages. -/
theorem visits_reachable_once (p : Project) :
    (∃ bound, ∀ (stages : Nat → Stage) (n : Nat), stages 0 = .start p →
      (∀ i < n, Stage.Turn p (stages i) (stages (i + 1))) → n ≤ bound) ∧
    (∀ s, ReflTransGen (Stage.Step p) (.start p) s →
      (s.Finished ∨ Stage.Faulty p s ∨ ∃ s', Stage.Turn p s s') ∧
      s.seen.Nodup ∧ (∀ id ∈ s.seen, p.Reachable id) ∧
      (s.Finished → p.Available ∧ (∀ id, p.Reachable id → id ∈ s.seen) ∧
        ∃ roots packages, s.map = p.draft roots packages ∧
          roots.Perm (p.mapped p.roots).entries ∧ (packages.map Prod.fst).Perm s.seen) ∧
      (Stage.Faulty p s → ¬ p.Available)) ∧
    ((∃ map, p.build = .ok map) ↔ p.Available) ∧
    (∀ map, p.build = .ok map → p.Outcome map) ∧
    ∀ map, p.Outcome map → ∀ folder ∈ map.scopes.keys,
      ∃ id, p.Reachable id ∧ folder = p.packageFolder id := by
  refine ⟨⟨_, fun stages n => Stage.length_le⟩, fun s hsteps => ?_, build_eq_ok_iff_required,
    fun map => outcome_of_build, fun map ho folder => exists_reachable_of_outcome ho⟩
  obtain ⟨roots, packages, h⟩ := Stage.visiting_of_steps hsteps
  refine ⟨?_, h.nodup_seen, fun id => h.reachable_of_mem_seen, fun hf => ?_, h.not_available⟩
  · by_cases hf : s.Finished
    · exact Or.inl hf
    · by_cases hfault : Stage.Faulty p s
      · exact Or.inr (Or.inl hfault)
      · exact Or.inr (Or.inr (Stage.exists_turn hf hfault))
  · have hc := h.sound.complete hf
    exact ⟨hc.available, fun id => h.mem_seen hf, roots, packages, h.sound.map_eq, hc.perm_roots,
      h.perm_seen hf⟩

end Project

end ImportAtlas
