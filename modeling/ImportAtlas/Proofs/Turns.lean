import ImportAtlas.Proofs.Liveness

/-!
# Tracing several entry modules

The entry modules have a round each, one after another, and all rounds add to one trace. What a
round has traced stays in the trace, and what a later one adds to it says the same.

## Main results

* `Tracing.Sound.step`, `Tracing.sound_of_steps`: what holds in every state of a schedule.
* `Tracing.Sound.exact_of_succeeded`, `Tracing.Sound.traceable_of_succeeded`: the end of a
  schedule that succeeds.
* `Tracing.Sound.not_traceable_of_failed`: the end of one that fails.
* `Tracing.Sound.exists_step`, `Tracing.Sound.remaining_lt`: every schedule ends in one of these
  ways.
-/

namespace ImportAtlas

open Relation

namespace Tracing

variable {files : FileTree} {r : Resolver} {entries : List String} {state next : Tracing}

/-- The entry modules that have been traced, the one whose turn it is, and those that wait. -/
def listed (state : Tracing) : List String :=
  state.done.map Prod.fst ++ (state.round?.map fun round => round.entry.specifier).toList ++
    state.waiting

/-- What holds of an entry module that has been traced. -/
structure Traced (files : FileTree) (r : Resolver) (trace : Trace) (e : String)
    (reads : List String) : Prop where
  traceableFrom : TraceableFrom files r (r.entryCall e)
  readsOnce : ReadsOnce files r (r.entryCall e) reads
  mem_keys : ∀ url, LedTo files r (r.entryCall e) url → isFileUrl url = true → url ∈ trace.keys

theorem Traced.mono {trace trace' : Trace} {e : String} {reads : List String}
    (h : Traced files r trace e reads) (hkeys : trace.keys ⊆ trace'.keys) :
    Traced files r trace' e reads :=
  ⟨h.traceableFrom, h.readsOnce, fun url hled hfile => hkeys (h.mem_keys url hled hfile)⟩

/-- **What holds in every state of a schedule.** -/
structure Sound (files : FileTree) (r : Resolver) (entries : List String) (state : Tracing) :
    Prop where
  listed_eq : state.listed = entries
  faithful : state.session.trace.Faithful files r entries
  round : ∀ round, state.round? = some round →
    round.Sound files r entries ∧ state.session.trace.keys ⊆ round.session.trace.keys
  done : ∀ e reads, (e, reads) ∈ state.done → Traced files r state.session.trace e reads

theorem sound_start (files : FileTree) (r : Resolver) (entries : List String) :
    (start entries).Sound files r entries where
  listed_eq := rfl
  faithful := Trace.faithful_empty
  round _ h := absurd h (by simp [start])
  done _ _ h := absurd h List.not_mem_nil

/-- What a round that has ended leaves behind. -/
theorem Sound.leave {round : Round} {url : String} (h : state.Sound files r entries)
    (hround : state.round? = some round) (hend : round.status round.entry = .returned url) :
    Traced files r round.session.trace round.entry.specifier
      (round.loaded.map LoadedModule.url).reverse := by
  have hsound := (h.round round hround).1
  obtain ⟨e, -, heq⟩ := hsound.entry
  have hentry : r.entryCall round.entry.specifier = round.entry := by rw [heq]; rfl
  exact ⟨hentry ▸ hsound.traceableFrom hend, hentry ▸ hsound.readsOnce hend,
    fun url hled hfile => hsound.mem_keys hend (hentry ▸ hled) hfile⟩

/-- **Every step keeps what holds.** -/
theorem Sound.step (h : state.Sound files r entries) (hstep : state.Step files r next) :
    next.Sound files r entries := by
  cases hstep with
  | @enter e more hround hwaiting =>
      have hlisted := h.listed_eq
      simp only [listed, hround, hwaiting, Option.map_none, Option.toList_none,
        List.append_nil] at hlisted
      refine ⟨?_, h.faithful, fun round hsome => ?_, h.done⟩
      · simpa [listed, Round.start, Resolver.entryCall] using hlisted
      · obtain rfl := Option.some.inj hsome
        refine ⟨Round.sound_start ?_ h.faithful, List.Subset.refl _⟩
        simp [← hlisted]
  | @go round next hround hstep =>
      obtain ⟨hsound, hkeys⟩ := h.round round hround
      refine ⟨?_, h.faithful, fun round' hsome => ?_, h.done⟩
      · have hlisted := h.listed_eq
        simp only [listed, hround, Option.map_some] at hlisted ⊢
        rwa [hstep.grows.entry_eq]
      · obtain rfl := Option.some.inj hsome
        exact ⟨hsound.step hstep, List.Subset.trans hkeys hstep.grows.keys_subset⟩
  | @leave round url hround hend =>
      obtain ⟨hsound, hkeys⟩ := h.round round hround
      refine ⟨?_, hsound.faithful, fun round' hsome => absurd hsome (by simp), fun e reads he => ?_⟩
      · have hlisted := h.listed_eq
        simpa [listed, hround] using hlisted
      · rcases List.mem_append.1 he with hold | hnew
        · exact (h.done e reads hold).mono hkeys
        · obtain ⟨rfl, rfl⟩ := Prod.mk.inj (List.mem_singleton.1 hnew)
          exact h.leave hround hend

theorem sound_of_steps (h : ReflTransGen (Step files r) (start entries) state) :
    state.Sound files r entries := by
  induction h with
  | refl => exact sound_start files r entries
  | tail _ hstep ih => exact ih.step hstep

/-! ### How a schedule ends -/

theorem Sound.map_fst_done (h : state.Sound files r entries) (hend : state.Succeeded) :
    state.done.map Prod.fst = entries := by
  have hlisted := h.listed_eq
  simpa [listed, hend.1, hend.2] using hlisted

theorem Sound.exists_done (h : state.Sound files r entries) (hend : state.Succeeded) {e : String}
    (he : e ∈ entries) : ∃ reads, Traced files r state.session.trace e reads := by
  rw [← h.map_fst_done hend] at he
  obtain ⟨⟨e, reads⟩, hmem, rfl⟩ := List.mem_map.1 he
  exact ⟨reads, h.done e reads hmem⟩

theorem Sound.traceable_of_succeeded (h : state.Sound files r entries) (hend : state.Succeeded) :
    Traceable files r entries := by
  refine traceable_iff.2 fun e he => ?_
  obtain ⟨reads, htraced⟩ := h.exists_done hend he
  exact htraced.traceableFrom

theorem Sound.exact_of_succeeded (h : state.Sound files r entries) (hend : state.Succeeded) :
    state.session.trace.Exact files r entries := by
  refine h.faithful.exact fun url ⟨e, he, hled⟩ hfile => ?_
  obtain ⟨reads, htraced⟩ := h.exists_done hend he
  exact htraced.mem_keys url hled hfile

theorem Sound.not_traceable_of_failed {error : Error} (h : state.Sound files r entries)
    (hend : state.Failed error) : ¬ Traceable files r entries := by
  obtain ⟨round, hround, hraised⟩ := hend
  have hsound := (h.round round hround).1
  obtain ⟨e, he, heq⟩ := hsound.entry
  exact fun htrace => hsound.failsRightly _ _ hraised (heq ▸ traceable_iff.1 htrace e he)

/-! ### Schedules end -/

/-- **A schedule that has neither succeeded nor failed can go on.** -/
theorem Sound.exists_step (h : state.Sound files r entries) (hsucceeded : ¬ state.Succeeded)
    (hfailed : ∀ error, ¬ state.Failed error) : ∃ next, state.Step files r next := by
  cases hround : state.round? with
  | none =>
      cases hwaiting : state.waiting with
      | nil => exact absurd ⟨hround, hwaiting⟩ hsucceeded
      | cons e more => exact ⟨_, .enter hround hwaiting⟩
  | some round =>
      by_cases hreturned : ∃ url, round.status round.entry = .returned url
      · obtain ⟨url, hurl⟩ := hreturned
        exact ⟨_, .leave hround hurl⟩
      · obtain ⟨next, hstep⟩ := (h.round round hround).1.exists_step
          (fun url hurl => hreturned ⟨url, hurl⟩)
          (fun error hraised => hfailed error ⟨round, hround, hraised⟩)
        exact ⟨_, .go hround hstep⟩

/-- The number of steps that a round may take. -/
def roundCost (files : FileTree) (urls : Finset String) : Nat :=
  3 + ∑ url ∈ urls, 3 * callCount files url

theorem remaining_start (files : FileTree) (urls : Finset String) (session : Session)
    (call : Call) : (Round.start session call).remaining files urls = roundCost files urls := by
  simp [Round.remaining, Round.pendingSteps, Round.futureSteps, Round.made, Round.start,
    Progress.rank, roundCost]

/-- An upper bound on the number of steps that are left. -/
def remaining (files : FileTree) (urls : Finset String) (state : Tracing) : Nat :=
  state.waiting.length * (roundCost files urls + 2) +
    (state.round?.elim 0 fun round => round.remaining files urls + 1)

/-- **Each step leaves less to be done**, if only finitely many modules are reachable. -/
theorem Sound.remaining_lt {urls : Finset String} (h : state.Sound files r entries)
    (hurls : ∀ url, Reachable files r entries url → url ∈ urls) (hstep : state.Step files r next) :
    next.remaining files urls < state.remaining files urls := by
  cases hstep with
  | @enter e more hround hwaiting =>
      simp only [remaining, hround, hwaiting, List.length_cons, Option.elim_some, Option.elim_none,
        remaining_start]
      grind
  | @go round next hround hstep =>
      have hsound := (h.round round hround).1
      have hlt := hsound.remaining_lt (fun url hled => hurls url (hsound.reachable hled)) hstep
      simp only [remaining, hround, Option.elim_some]
      omega
  | @leave round url hround hend =>
      simp only [remaining, hround, Option.elim_some, Option.elim_none]
      omega

/-- A schedule takes no more steps than there are left at its beginning. -/
theorem length_le {urls : Finset String}
    (hurls : ∀ url, Reachable files r entries url → url ∈ urls) {states : Nat → Tracing} {n : Nat}
    (hstart : states 0 = start entries)
    (hstep : ∀ i < n, (states i).Step files r (states (i + 1))) :
    n ≤ (start entries).remaining files urls := by
  have hsound : (states 0).Sound files r entries := hstart ▸ sound_start files r entries
  rw [← hstart]
  exact length_le_of_measure_lt hsound Sound.step (fun hsound => hsound.remaining_lt hurls) hstep

end Tracing

end ImportAtlas
