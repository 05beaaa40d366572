import ImportAtlas.ImportMap.Flatten
import ImportAtlas.Proofs.Concurrency
import ImportAtlas.Proofs.Documents
import ImportAtlas.Proofs.Filtering
import ImportAtlas.Proofs.Rebasing
import ImportAtlas.Proofs.Surroundings

/-!
# Maps that can be read back

All prefixes of scopes in a map that has been read are folders. Whatever is done with such maps
keeps this: prefixes are dropped, merged or moved, and a prefix that moves keeps its last slash. A
build names its scopes by the folders of packages, and the entries that a session notes stand in
scopes of the map that it resolves through. So every map that comes out can be read back.

## Summary

* `Session.Reached` are the sessions that requests to a resolver lead to, also those in the midst
  of concurrent calls.
* `ImportMap.Produced` are the maps that come out of reading, building, operations and sessions.

## Main results

* `Session.Reached.within`: whatever was requested, the entries that are noted are entries of the
  map.
* `ImportMap.Produced.foldered`: the scopes of a map that was produced are folders.
* `ImportMap.ofValue_toValue_of_produced`: a map that was produced is read back.
-/

namespace ImportAtlas

/-! ### Entries that a session notes -/

namespace Run

variable {files : FileTree} {r : Resolver} {run : Run}

theorem within_claim (h : run.session.used.Within r) (isEntry : Bool)
    (parent specifier : String) :
    (run.claim r isEntry parent specifier).1.session.used.Within r := by
  cases hres : r.resolve specifier parent isEntry with
  | error e =>
      rw [claim, hres]
      exact h
  | ok resolution =>
      rw [claim_of_resolve hres, used_note]
      exact h.record hres

theorem within_foldl_claimNext {parent : String} (specifiers : List String)
    {state : Run × Dict String String} (h : state.1.session.used.Within r) :
    (specifiers.foldl (claimNext r parent) state).1.session.used.Within r := by
  induction specifiers generalizing state with
  | nil => exact h
  | cons s specifiers ih =>
      refine ih ?_
      rw [fst_claimNext]
      exact within_claim h false parent s

/-- Reading a module notes entries of the map only, whether it ends in a fault or not. -/
theorem within_visit (h : run.session.used.Within r) (v : Visit) :
    (run.visit files r v).session.used.Within r := by
  rw [visit]
  cases readModule files v with
  | error e => exact h
  | ok specifiers =>
      have hclaim : (({ run with reads := run.reads ++ [v.url] } : Run).claimAll r v.url
          specifiers).1.session.used.Within r := by
        rw [claimAll_eq_foldl]
        exact within_foldl_claimNext specifiers h
      simp only
      split
      · exact hclaim
      · rw [(settles_settleAll _).used_eq]
        exact hclaim

theorem within_explore (budget : Nat) (h : run.session.used.Within r) :
    (run.explore files r budget).session.used.Within r := by
  induction budget generalizing run with
  | zero => exact h
  | succ budget ih =>
      rw [explore]
      split
      · exact h
      · split
        · exact h
        · refine ih (within_visit ?_ _)
          exact h

end Run

theorem Round.Step.within {files : FileTree} {r : Resolver} {round next : Round}
    (hstep : round.Step files r next) (h : round.session.used.Within r) :
    next.session.used.Within r := by
  cases hstep with
  | unresolved | unreadable | load | close | fail => simpa only [session_advance] using h
  | again _ _ hres | elsewhere _ _ hres | begin _ _ hres =>
      rw [session_advance]
      exact h.record hres

namespace Session

variable {files : FileTree} {r : Resolver} {session : Session}

theorem within_resolve (h : session.used.Within r) (specifier parent : String) (isEntry : Bool) :
    (session.resolve r specifier parent isEntry).2.used.Within r := by
  rw [resolve]
  split
  · rename_i hres
    exact h.record hres
  · exact h

theorem within_traceFrom (h : session.used.Within r) (files : FileTree) (budget : Nat)
    (specifier parent : String) (seen? : Option (List String)) :
    (session.traceFrom files r budget specifier parent seen?).2.used.Within r :=
  Run.within_explore budget (Run.within_claim h _ _ _)

theorem within_traceAll (files : FileTree) (budget : Nat) (entries : List String)
    (h : session.used.Within r) :
    (session.traceAll files r budget entries).2.used.Within r := by
  induction entries generalizing session with
  | nil => exact h
  | cons e entries ih =>
      have hfirst := within_traceFrom h files budget e r.base none
      rw [traceAll]
      split <;> rename_i heq <;> rw [heq] at hfirst
      · exact ih hfirst
      · exact hfirst

/-- The sessions that requests to a resolver lead to, whether they succeed or not. -/
inductive Reached (r : Resolver) : Session → Prop
  | empty : Reached r empty
  | resolve {session : Session} (h : Reached r session) (specifier parent : String)
      (isEntry : Bool) : Reached r (session.resolve r specifier parent isEntry).2
  | traceFrom {session : Session} (h : Reached r session) (files : FileTree) (budget : Nat)
      (specifier parent : String) (seen? : Option (List String)) :
      Reached r (session.traceFrom files r budget specifier parent seen?).2
  | traceAll {session : Session} (h : Reached r session) (files : FileTree) (budget : Nat)
      (entries : List String) : Reached r (session.traceAll files r budget entries).2
  /-- Calls of a round proceed in any order, and the round need not have ended. -/
  | round {session : Session} (h : Reached r session) {files : FileTree} {call : Call}
      {round : Round}
      (steps : Relation.ReflTransGen (Round.Step files r) (.start session call) round) :
      Reached r round.session

/-- **Whatever was requested, the entries that are noted are entries of the map**, in scopes of the
map. -/
theorem Reached.within (h : Reached r session) : session.used.Within r := by
  induction h with
  | empty => exact ImportMap.within_empty r
  | resolve _ specifier parent isEntry ih => exact within_resolve ih specifier parent isEntry
  | traceFrom _ files budget specifier parent seen? ih =>
      exact within_traceFrom ih files budget specifier parent seen?
  | traceAll _ files budget entries ih => exact within_traceAll files budget entries ih
  | @round session _ files call round steps ih =>
      -- the induction is on the steps of the round, from the session in which it began
      induction steps with
      | refl => exact ih
      | tail _ hstep hbefore => exact hstep.within hbefore

end Session

/-! ### Prefixes that move -/

/-- **A value that moves keeps its last slash.** -/
theorem endsInSlash_of_rebasePath {mode : RebaseMode} {source target value name moved : String}
    (h : rebasePath mode source target value name = .ok moved)
    (hvalue : Target.endsInSlash value = true) : Target.endsInSlash moved = true := by
  rw [rebasePath] at h
  split at h
  · obtain rfl := Except.ok.inj h
    exact hvalue
  · simp only at h
    split at h
    · exact absurd h (by simp)
    · obtain rfl := Except.ok.inj h
      exact Target.endsInSlash_withSlash _

namespace ImportMap

variable {map base patch result : ImportMap}

/-! ### What operations do to prefixes -/

theorem foldered_empty : Foldered ∅ := fun _ hq => absurd hq List.not_mem_nil

theorem Foldered.of_keys {used : ImportMap} (h : map.Foldered)
    (hkeys : ∀ q ∈ used.scopes.keys, q ∈ map.scopes.keys) : used.Foldered :=
  fun q hq => h q (hkeys q hq)

theorem Foldered.clean (h : map.Foldered) : map.clean.Foldered :=
  h.of_keys fun _ hq => mem_keys_scopes_of_clean hq

theorem mem_keys_insertScopes {scopes : Dict String Imports} {added : List (String × Imports)}
    {q : String}
    (h : q ∈ (added.foldl (fun scopes (scopePrefix, entries) =>
      scopes.insert scopePrefix ((scopes.getD scopePrefix ∅).insertAll entries)) scopes).keys) :
    q ∈ scopes.keys ∨ q ∈ added.map Prod.fst := by
  induction added generalizing scopes with
  | nil => exact Or.inl h
  | cons scope added ih =>
      rw [List.map_cons, List.mem_cons]
      rcases ih h with hbefore | hafter
      · rcases Dict.mem_keys_insert.1 hbefore with rfl | hq
        · exact Or.inr (Or.inl rfl)
        · exact Or.inl hq
      · exact Or.inr (Or.inr hafter)

theorem Foldered.extend (h : base.Foldered) (hpatch : patch.Foldered) :
    (base.extend patch).Foldered := by
  refine Foldered.clean fun q hq => ?_
  rcases mem_keys_insertScopes hq with hbase | hadded
  · exact h q hbase
  · exact hpatch q hadded

theorem Foldered.setScope (h : map.Foldered) {q : String} (hq : Target.endsInSlash q = true)
    (entries : Imports) : (map.setScope q entries).Foldered := by
  intro q' hq'
  rcases Dict.mem_keys_insert.1 hq' with rfl | hmem
  · exact hq
  · exact h q' hmem

theorem Foldered.rebase (h : map.Foldered) {mode : RebaseMode} {source target : String}
    (hrebase : map.rebase mode source target = .ok result) : result.Foldered := by
  obtain ⟨imports, -, hscopes⟩ := exists_of_bind_eq_ok hrebase
  refine of_foldlM_eq_ok (P := Foldered) hscopes foldered_empty ?_
  rintro ⟨q, entries⟩ hmem before after hbefore hstep
  obtain ⟨moved, hmoved, hstep⟩ := exists_of_bind_eq_ok hstep
  obtain ⟨entries', -, hstep⟩ := exists_of_bind_eq_ok hstep
  obtain rfl := Except.ok.inj hstep
  refine hbefore.setScope (endsInSlash_of_rebasePath hmoved (h q ?_)) _
  exact List.mem_map_of_mem hmem

theorem foldered_of_flatten (h : map.flatten = .ok result) : result.Foldered := by
  obtain ⟨imports, -, h⟩ := exists_of_bind_eq_ok h
  obtain rfl := Except.ok.inj h
  exact foldered_empty

/-- The scopes of a build are the folders of packages. -/
theorem foldered_of_build {p : Project} (h : p.build = .ok map) : map.Foldered := by
  obtain ⟨hfault, rfl⟩ := Project.build_eq_ok_iff_clean.1 h
  refine Foldered.clean fun q hq => ?_
  obtain ⟨entries, hentries⟩ := Dict.mem_keys_iff.1 hq
  obtain ⟨package, -, -, rfl, -⟩ := Project.exists_of_get?_scopes_uncleaned hfault hentries
  exact Target.endsInSlash_append_slash _

theorem Foldered.of_within {used : ImportMap} (h : map.Foldered) {url : String}
    {relativeFallback : Bool} {r : Resolver} (hr : Resolver.make map url relativeFallback = .ok r)
    (hw : used.Within r) : used.Foldered := by
  refine h.of_keys fun q hq => ?_
  obtain ⟨place, hplace⟩ := hw.counts q hq
  exact (Resolver.of_get?_scopes hr hplace).1

theorem eq_clean_of_filterMap {files : FileTree} {r : Resolver} {budget : Nat}
    {entries : List String} (h : filterMap files r budget entries = .ok result) :
    result = (Session.empty.traceAll files r budget entries).2.used.clean := by
  rw [filterMap] at h
  cases hall : Session.empty.traceAll files r budget entries with
  | mk outcome session =>
      rw [hall] at h
      cases outcome with
      | error e => exact absurd h (by simp [Except.map])
      | ok _ => exact (Except.ok.inj h).symm

/-! ### Maps that come out -/

/-- The maps that come out of reading, building, operations on maps, and sessions. -/
inductive Produced : ImportMap → Prop
  | read {map : ImportMap} {value : Value} {source : String} (h : ofValue value source = .ok map) :
      Produced map
  | build {map : ImportMap} {p : Project} (h : p.build = .ok map) : Produced map
  | clean {map : ImportMap} (h : Produced map) : Produced map.clean
  | extend {base patch : ImportMap} (h : Produced base) (hpatch : Produced patch) :
      Produced (base.extend patch)
  | rebase {map result : ImportMap} (h : Produced map) {mode : RebaseMode}
      {source target : String} (hrebase : map.rebase mode source target = .ok result) :
      Produced result
  | flatten {map result : ImportMap} (h : Produced map) (hflatten : map.flatten = .ok result) :
      Produced result
  /-- The entries that a session has noted. -/
  | used {map : ImportMap} (h : Produced map) {url : String} {relativeFallback : Bool}
      {r : Resolver} (hr : Resolver.make map url relativeFallback = .ok r) {session : Session}
      (hs : session.Reached r) : Produced session.used
  /-- The part of a map that the trace of entry modules needs. -/
  | filtered {map result : ImportMap} (h : Produced map) {url : String} {relativeFallback : Bool}
      {r : Resolver} (hr : Resolver.make map url relativeFallback = .ok r) {files : FileTree}
      {budget : Nat} {entries : List String}
      (hfilter : filterMap files r budget entries = .ok result) : Produced result

/-- **The scopes of a map that was produced are folders.** -/
theorem Produced.foldered (h : Produced map) : map.Foldered := by
  induction h with
  | read hread => exact foldered_of_ofValue hread
  | build hbuild => exact foldered_of_build hbuild
  | clean _ ih => exact ih.clean
  | extend _ _ ih ihpatch => exact ih.extend ihpatch
  | rebase _ hrebase ih => exact ih.rebase hrebase
  | flatten _ hflatten _ => exact foldered_of_flatten hflatten
  | used _ hr hs ih => exact ih.of_within hr hs.within
  | @filtered map result _ url relativeFallback r hr files budget entries hfilter ih =>
      have hw : (Session.traceAll files r budget .empty entries).2.used.Within r :=
        Session.within_traceAll files budget entries (within_empty r)
      obtain rfl := eq_clean_of_filterMap hfilter
      exact (ih.of_within hr hw).clean

/-- **Every map that was produced can be read back**: all prefixes of its scopes end in a slash,
and reading its object gives the map itself, with its order. -/
theorem ofValue_toValue_of_produced (h : Produced map) (source : String) :
    map.Foldered ∧ ofValue map.toValue source = .ok map :=
  ⟨h.foldered, ofValue_toValue h.foldered source⟩

/-- The scattered map in another directory. -/
def movedScatteredMap : ImportMap :=
  ⟨Dict.ofList [("a", "../../q/x.js"), ("b/", "../../t/"), ("c", "//h/y"), ("d", "npm:z")],
    Dict.ofList [("../../q/s/", Dict.ofList [("a", "../../")])]⟩

/-- What a session notes that resolves through a map that was read and moved, cleaned and joined
with the moved map, is read back; the session has noted an entry of the moved scope. -/
theorem ofValue_toValue_of_produced_scatteredMap :
    ∃ r, Resolver.make movedScatteredMap "file:///p/r/s/" false = .ok r ∧
      (Session.empty.resolve r "a" "file:///p/q/s/m.js" false).2.used =
        ⟨∅, Dict.ofList [("../../q/s/", Dict.ofList [("a", "../../")])]⟩ ∧
      (Session.empty.resolve r "a" "file:///p/q/s/m.js" false).2.used.Produced ∧
      let result := (Session.empty.resolve r "a" "file:///p/q/s/m.js" false).2.used.clean.extend
        movedScatteredMap
      result.Foldered ∧ ofValue result.toValue "map.json" = .ok result := by
  have hread : Produced scatteredMap := .read (ofValue_toValue (by decide) "map.json")
  have hmoved : Produced movedScatteredMap :=
    hread.rebase (Resolver.eq_ok_of_toOption (by decide +kernel) :
      scatteredMap.rebase .relative "/p/q" "/p/r/s" = .ok movedScatteredMap)
  have hr : Resolver.make movedScatteredMap "file:///p/r/s/" false =
      .ok ⟨movedScatteredMap, "file:///p/r/s/", false,
        Dict.ofList [("file:///p/q/s/", "../../q/s/")]⟩ :=
    Resolver.make_eq_ok_iff.2 ⟨_, Resolver.eq_ok_of_toOption (by decide +kernel), rfl⟩
  have hused := Produced.used hmoved hr (.resolve .empty "a" "file:///p/q/s/m.js" false)
  exact ⟨_, hr, by decide +kernel, hused,
    ofValue_toValue_of_produced (hused.clean.extend hmoved) "map.json"⟩

end ImportMap

end ImportAtlas
