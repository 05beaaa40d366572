import ImportAtlas.Proofs.Lockstep

/-!
# Tracing is exact whatever the schedule

If entry modules lead to finitely many modules, every schedule of their tracing ends, in whatever
order concurrent calls proceed and the entry modules are listed. It succeeds exactly when everything
that they lead to can be read and resolved, and then its trace is exact.

## Main results

* `Tracing.schedules_exact`: the theorem, about all schedules and the tracing that runs.
-/

namespace ImportAtlas

open Relation

namespace Tracing

variable {files : FileTree} {r : Resolver} {entries listed : List String}

/-- Tracing that is given enough modules to read ends as a schedule does. -/
theorem exists_steps_traceModules {urls : Finset String} {budget : Nat}
    (hurls : ∀ url, Reachable files r listed url → url ∈ urls) (hbudget : urls.card < budget) :
    ∃ state, ReflTransGen (Step files r) (start listed) state ∧
      ((state.Succeeded ∧ traceModules files r budget listed = .ok state.session.trace) ∨
        ∃ error, state.Failed error ∧ traceModules files r budget listed = .error error) := by
  rcases @exists_steps_traceAll files r listed .empty listed [] budget
    (sound_start files r listed) (Session.sound_empty files r) with
    ⟨state, hsteps, hend⟩ | ⟨-, round, hsound, hle⟩
  · refine ⟨state, hsteps, hend.imp ?_ ?_⟩
    · rintro ⟨hsucceeded, hall⟩
      exact ⟨hsucceeded, traceModules_eq_ok_iff.2 (by simp [hall])⟩
    · rintro ⟨error, hfailed, hall⟩
      refine ⟨error, hfailed, ?_⟩
      rw [traceModules]
      simp only [hall]
      rfl
  · have hsub : (round.loaded.map LoadedModule.url).toFinset ⊆ urls := by
      intro url hurl
      obtain ⟨m, hm, rfl⟩ := List.mem_map.1 (List.mem_toFinset.1 hurl)
      exact hurls _ (hsound.reachable (hsound.found.ledTo _ (hsound.reads.loaded m hm).2.2.1))
    have hcard := Finset.card_le_card hsub
    rw [List.toFinset_card_of_nodup hsound.reads.nodup_loaded, List.length_map] at hcard
    omega

/-- **Tracing is exact whatever the schedule.** For finitely many reachable modules, in whatever
order calls proceed and entry modules are listed:
every schedule ends, in success or failure; it ends in success exactly when every entry module is
named and all reachable modules on disk are read and all their specifiers resolved; then the trace
is exact, and the round of every entry module has read each module on disk that it leads to once.
The tracing that runs ends as a schedule does, if it may read as many modules as there are. -/
theorem schedules_exact (hfinite : {url | Reachable files r entries url}.Finite)
    (hperm : listed.Perm entries) :
    (∃ bound, ∀ (states : Nat → Tracing) (n : Nat), states 0 = start listed →
      (∀ i < n, (states i).Step files r (states (i + 1))) → n ≤ bound) ∧
    (∀ state, ReflTransGen (Step files r) (start listed) state →
      (∀ next, ¬ state.Step files r next) →
        (state.Succeeded ∨ ∃ error, state.Failed error) ∧
          (state.Succeeded ↔ Traceable files r entries)) ∧
    (∀ state error, ReflTransGen (Step files r) (start listed) state → state.Failed error →
      ¬ Traceable files r entries) ∧
    (∀ state, ReflTransGen (Step files r) (start listed) state → state.Succeeded →
      state.session.trace.Exact files r entries ∧ state.done.map Prod.fst = listed ∧
        ∀ e reads, (e, reads) ∈ state.done → ReadsOnce files r (r.entryCall e) reads) ∧
    ∃ bound, ∀ budget ≥ bound, ∃ state, ReflTransGen (Step files r) (start listed) state ∧
      ((state.Succeeded ∧ traceModules files r budget listed = .ok state.session.trace) ∨
        ∃ error, state.Failed error ∧ traceModules files r budget listed = .error error) := by
  have hreach : ∀ url, Reachable files r listed url → url ∈ hfinite.toFinset :=
    fun url h => hfinite.mem_toFinset.2 ((reachable_of_perm hperm).1 h)
  refine ⟨⟨_, fun states n => length_le hreach⟩, fun state hsteps hstuck => ?_,
    fun state error hsteps hfailed htrace => ?_, fun state hsteps hend => ?_,
    hfinite.toFinset.card + 1, fun budget hbudget => ?_⟩
  · have hsound := sound_of_steps hsteps
    have hend : state.Succeeded ∨ ∃ error, state.Failed error := by
      by_contra hnot
      rw [not_or, not_exists] at hnot
      obtain ⟨next, hstep⟩ := hsound.exists_step hnot.1 hnot.2
      exact hstuck next hstep
    refine ⟨hend, fun hsucceeded => ?_, fun htrace => ?_⟩
    · exact Traceable.of_perm hperm (hsound.traceable_of_succeeded hsucceeded)
    · refine hend.resolve_right fun ⟨error, hfailed⟩ => ?_
      exact hsound.not_traceable_of_failed hfailed (Traceable.of_perm hperm.symm htrace)
  · exact (sound_of_steps hsteps).not_traceable_of_failed hfailed
      (Traceable.of_perm hperm.symm htrace)
  · have hsound := sound_of_steps hsteps
    refine ⟨Trace.Exact.of_perm hperm (hsound.exact_of_succeeded hend),
      hsound.map_fst_done hend, ?_⟩
    exact fun e reads he => (hsound.done e reads he).readsOnce
  · exact exists_steps_traceModules hreach (by omega)

/-! ### Two modules that import each other -/

/-- A map without entries at `file:///p/`. -/
def plainResolver : Resolver := ⟨⟨∅, ∅⟩, "file:///p/", false, ∅⟩

/-- Two modules that import each other. -/
def cyclicFiles : FileTree := FileTree.ofFiles [] [
  sourceFile ["p", "a.js"] "import './b.js';", sourceFile ["p", "b.js"] "import './a.js';"]

theorem leads_of_url? {call : Call} {url : String}
    (h : (plainResolver.resolve call.specifier call.parent call.isEntry).toOption =
      some ⟨url, none⟩) : plainResolver.Leads call url :=
  ⟨⟨url, none⟩, Resolver.eq_ok_of_toOption h, rfl⟩

theorem specifies_cyclicFiles :
    Specifies cyclicFiles "file:///p/a.js" ["./b.js"] ∧
      Specifies cyclicFiles "file:///p/b.js" ["./a.js"] :=
  ⟨⟨⟨"", "", "file:///p/a.js"⟩, rfl, Resolver.eq_ok_of_toOption (by decide +kernel)⟩,
    ⟨"", "", "file:///p/b.js"⟩, rfl, Resolver.eq_ok_of_toOption (by decide +kernel)⟩

theorem leads_cyclicFiles :
    plainResolver.Leads (plainResolver.entryCall "./a.js") "file:///p/a.js" ∧
      plainResolver.Leads (plainResolver.entryCall "./b.js") "file:///p/b.js" ∧
      plainResolver.Leads (innerCall "file:///p/a.js" "./b.js") "file:///p/b.js" ∧
      plainResolver.Leads (innerCall "file:///p/b.js" "./a.js") "file:///p/a.js" :=
  ⟨leads_of_url? (by decide +kernel), leads_of_url? (by decide +kernel),
    leads_of_url? (by decide +kernel), leads_of_url? (by decide +kernel)⟩

theorem reachable_cyclicFiles {url : String}
    (h : Reachable cyclicFiles plainResolver ["./a.js", "./b.js"] url) :
    url = "file:///p/a.js" ∨ url = "file:///p/b.js" := by
  obtain ⟨hspecA, hspecB⟩ := specifies_cyclicFiles
  obtain ⟨hA, hB, hAB, hBA⟩ := leads_cyclicFiles
  refine (h.mem_of_closed (fun e he url hleads => ?_) fun url hin _ specifiers hspec s hs next
    hleads => ?_ : url ∈ ({"file:///p/a.js", "file:///p/b.js"} : Set String))
  · rcases List.mem_pair.1 he with rfl | rfl
    · exact Or.inl (hleads.unique hA)
    · exact Or.inr (hleads.unique hB)
  · rcases hin with rfl | rfl
    · obtain rfl := List.mem_singleton.1 (hspec.unique hspecA ▸ hs)
      exact Or.inr (hleads.unique hAB)
    · obtain rfl := List.mem_singleton.1 (hspec.unique hspecB ▸ hs)
      exact Or.inl (hleads.unique hBA)

theorem traceable_cyclicFiles :
    Traceable cyclicFiles plainResolver ["./a.js", "./b.js"] := by
  obtain ⟨hspecA, hspecB⟩ := specifies_cyclicFiles
  obtain ⟨hA, hB, hAB, hBA⟩ := leads_cyclicFiles
  refine ⟨fun e he => ?_, fun url hurl _ => ?_⟩
  · rcases List.mem_pair.1 he with rfl | rfl
    · exact ⟨_, hA⟩
    · exact ⟨_, hB⟩
  · rcases reachable_cyclicFiles hurl with rfl | rfl
    · exact ⟨_, hspecA, fun s hs => List.mem_singleton.1 hs ▸ ⟨_, hAB⟩⟩
    · exact ⟨_, hspecB, fun s hs => List.mem_singleton.1 hs ▸ ⟨_, hBA⟩⟩

/-- Two modules that import each other are traced by every schedule. -/
theorem schedules_exact_cyclicFiles :
    {url | Reachable cyclicFiles plainResolver ["./a.js", "./b.js"] url}.Finite ∧
      ["./b.js", "./a.js"].Perm ["./a.js", "./b.js"] ∧
      ∀ state, ReflTransGen (Step cyclicFiles plainResolver) (start ["./b.js", "./a.js"]) state →
        (∀ next, ¬ state.Step cyclicFiles plainResolver next) →
          state.session.trace.Exact cyclicFiles plainResolver ["./a.js", "./b.js"] := by
  have hfinite : {url | Reachable cyclicFiles plainResolver ["./a.js", "./b.js"] url}.Finite :=
    (Set.toFinite {"file:///p/a.js", "file:///p/b.js"}).subset fun url hurl =>
      reachable_cyclicFiles hurl
  have hperm : ["./b.js", "./a.js"].Perm ["./a.js", "./b.js"] := List.Perm.swap ..
  obtain ⟨-, hends, -, hexact, -⟩ := schedules_exact hfinite hperm
  refine ⟨hfinite, hperm, fun state hsteps hstuck => ?_⟩
  exact (hexact state hsteps ((hends state hsteps hstuck).2.2 traceable_cyclicFiles)).1

end Tracing

end ImportAtlas
