import Mathlib.Algebra.BigOperators.Group.Finset.Basic
import Mathlib.Algebra.GroupWithZero.Nat
import Mathlib.Algebra.Order.BigOperators.Group.List
import Mathlib.Data.Finset.Sum
import ImportAtlas.Proofs.Rounds

/-!
# Rounds end

A call can always proceed, unless it waits for others. Among the calls that wait, the one whose
module was read last waits for none of the others, so some call can proceed until the entry call
has ended. With finitely many modules this cannot go on forever: each call proceeds at most three
times, and a module is read once.

## Main results

* `Round.Sound.exists_step`: a round whose entry call has not ended can go on.
* `Round.Sound.remaining_lt`: each step leaves less to be done.
-/

namespace ImportAtlas

/-- Any texts without repetition are the keys of a dictionary with given values. -/
theorem Dict.exists_keys_eq {keys : List String} (h : keys.Nodup) (value : String → String) :
    ∃ d : Dict String String, d.keys = keys ∧
      ∀ s url, d.get? s = some url → s ∈ keys ∧ url = value s := by
  have hkeys : (keys.map fun s => (s, value s)).map Prod.fst = keys := by
    rw [List.map_map]
    exact List.map_id _
  refine ⟨⟨keys.map fun s => (s, value s), hkeys.symm ▸ h⟩, hkeys, fun s url hget => ?_⟩
  obtain ⟨s', hs', heq⟩ := List.mem_map.1 (Dict.get?_eq_some_iff.1 hget)
  obtain ⟨rfl, rfl⟩ := Prod.mk.inj heq
  exact ⟨hs', rfl⟩

/-- A module whose call is for a specifier of another one was read after it. -/
theorem Named.exists_mem_of_inner {entry : Call} {m m' : LoadedModule} {earlier : List LoadedModule}
    {url s : String} (h : Named entry (m :: earlier)) (hentry : entry.isEntry = true)
    (hm' : m' ∈ m :: earlier) (hcall : m'.call = innerCall url s) :
    ∃ first ∈ earlier, first.url = url := by
  induction earlier generalizing m with
  | nil =>
      obtain rfl := List.mem_singleton.1 hm'
      rcases h.1 with heq | ⟨first, hfirst, -⟩
      · rw [← heq, hcall] at hentry
        exact absurd hentry Bool.false_ne_true
      · exact absurd hfirst List.not_mem_nil
  | cons next earlier ih =>
      rcases List.mem_cons.1 hm' with rfl | hm'
      · rcases h.1 with heq | ⟨first, hfirst, s', -, heq⟩
        · rw [← heq, hcall] at hentry
          exact absurd hentry Bool.false_ne_true
        · rw [hcall] at heq
          exact ⟨first, hfirst, (congrArg Call.parent heq).symm⟩
      · obtain ⟨first, hfirst, heq⟩ := ih h.2 hm'
        exact ⟨first, List.mem_cons_of_mem _ hfirst, heq⟩

namespace Round

variable {files : FileTree} {r : Resolver} {entries : List String} {round next : Round}
  {call : Call} {url : String} {m : LoadedModule}

/-! ### Some call can proceed -/

theorem exists_step_of_called (hmem : call ∈ round.made) (hcalled : round.status call = .called) :
    ∃ next, round.Step files r next := by
  cases hres : r.resolve call.specifier call.parent call.isEntry with
  | error error => exact ⟨_, .unresolved hmem hcalled hres⟩
  | ok resolution =>
      by_cases hseen : resolution.url ∈ round.seen
      · exact ⟨_, .again hmem hcalled hres hseen⟩
      · cases hfile : isFileUrl resolution.url with
        | false => exact ⟨_, .elsewhere hmem hcalled hres hseen hfile⟩
        | true => exact ⟨_, .begin hmem hcalled hres hseen hfile⟩

theorem exists_step_of_reading (hreading : round.status call = .reading url) :
    ∃ next, round.Step files r next := by
  cases hread : readModule files ⟨call.specifier, call.parent, url⟩ with
  | error error => exact ⟨_, .unreadable hreading hread⟩
  | ok specifiers => exact ⟨_, .load hreading hread⟩

/-- A call that waits for calls that have all ended can proceed. -/
theorem exists_step_of_waiting (hm : m ∈ round.loaded) (hnodup : m.specifiers.Nodup)
    (hwaiting : round.status m.call = .waiting)
    (hended : ∀ s ∈ m.specifiers, (∃ url, round.status (m.inner s) = .returned url) ∨
      ∃ error, round.status (m.inner s) = .raised error) :
    ∃ next, round.Step files r next := by
  by_cases hraised : ∃ s ∈ m.specifiers, ∃ error, round.status (m.inner s) = .raised error
  · obtain ⟨s, hs, error, herror⟩ := hraised
    exact ⟨_, .fail hm hwaiting hs herror⟩
  · have hreturned : ∀ s ∈ m.specifiers, ∃ url, round.status (m.inner s) = .returned url :=
      fun s hs => (hended s hs).resolve_right fun herror => hraised ⟨s, hs, herror⟩
    choose! value hvalue using hreturned
    obtain ⟨dependencies, hkeys, hget⟩ := Dict.exists_keys_eq hnodup value
    refine ⟨_, .close hm hwaiting hkeys fun s url hurl => ?_⟩
    obtain ⟨hs, rfl⟩ := hget s url hurl
    exact hvalue s hs

/-- If a call waits, the one of them whose module was read last waits for none of them. -/
theorem Sound.exists_last_waiting (h : round.Sound files r entries)
    (hwaiting : ∃ m ∈ round.loaded, round.status m.call = .waiting) :
    ∃ m ∈ round.loaded, round.status m.call = .waiting ∧
      ∀ s, round.status (m.inner s) ≠ .waiting := by
  classical
  obtain ⟨m, hm⟩ := Option.isSome_iff_exists.1 (List.find?_isSome.2 (by simpa using hwaiting) :
    (round.loaded.find? fun m => decide (round.status m.call = .waiting)).isSome = true)
  obtain ⟨hmwaiting, later, earlier, heq, hlater⟩ := List.find?_eq_some_iff_append.1 hm
  have hmem : m ∈ round.loaded := by simp [heq]
  refine ⟨m, hmem, by simpa using hmwaiting, fun s hs => ?_⟩
  obtain ⟨m', hm', hcall⟩ := h.orderly.waiting _ hs
  have hmem' : m' ∈ m :: earlier := by
    rw [heq] at hm'
    refine (List.mem_append.1 hm').resolve_left fun hin => ?_
    have := hlater m' hin
    rw [hcall, hs] at this
    simp at this
  have hnamed : Named round.entry (m :: earlier) := (heq ▸ h.orderly.named).of_append
  obtain ⟨first, hfirst, hurl⟩ :=
    hnamed.exists_mem_of_inner h.orderly.isEntry hmem' hcall
  -- A module that was read earlier would have the same URL.
  have hnodup := h.reads.nodup_loaded
  rw [heq, List.map_append, List.nodup_append] at hnodup
  have := (List.nodup_cons.1 hnodup.2.1).1
  exact this (List.mem_map.2 ⟨first, hfirst, hurl⟩)

/-- **Some call can proceed until the entry call has ended.** -/
theorem Sound.exists_step (h : round.Sound files r entries)
    (hreturned : ∀ url, round.status round.entry ≠ .returned url)
    (hraised : ∀ error, round.status round.entry ≠ .raised error) :
    ∃ next, round.Step files r next := by
  by_contra hstuck
  have hcall : ∀ call ∈ round.made, round.status call = .waiting ∨
      (∃ url, round.status call = .returned url) ∨
        ∃ error, round.status call = .raised error := by
    intro call hmem
    cases hstatus : round.status call with
    | called => exact absurd (exists_step_of_called hmem hstatus) hstuck
    | reading url => exact absurd (exists_step_of_reading hstatus) hstuck
    | waiting => exact Or.inl rfl
    | returned url => exact Or.inr (Or.inl ⟨url, rfl⟩)
    | raised error => exact Or.inr (Or.inr ⟨error, rfl⟩)
  have hentry : round.status round.entry = .waiting := by
    rcases hcall round.entry (mem_made_iff.2 (Or.inl rfl)) with h | ⟨url, hurl⟩ | ⟨error, herror⟩
    · exact h
    · exact absurd hurl (hreturned url)
    · exact absurd herror (hraised error)
  obtain ⟨m, hm, hmcall⟩ := h.orderly.waiting _ hentry
  obtain ⟨last, hlast, hwaiting, hnot⟩ := h.exists_last_waiting ⟨m, hm, hmcall ▸ hentry⟩
  refine hstuck (exists_step_of_waiting hlast (h.reads.loaded last hlast).2.2.2.nodup hwaiting ?_)
  intro s hs
  exact (hcall (last.inner s) (mem_made_iff.2 (Or.inr ⟨last, hlast, s, hs, rfl⟩))).resolve_left
    (hnot s)

end Round

/-! ### Each step leaves less to be done -/

/-- How often a call may still proceed. -/
def Progress.rank : Progress → Nat
  | .called => 3
  | .reading _ => 2
  | .waiting => 1
  | .returned _ | .raised _ => 0

theorem Progress.rank_le (progress : Progress) : progress.rank ≤ 3 := by
  cases progress <;> simp [rank]

/-- The number of calls that a module makes when it is read. -/
def callCount (files : FileTree) (url : String) : Nat :=
  match readModule files ⟨"", "", url⟩ with
  | .ok specifiers => specifiers.length
  | .error _ => 0

theorem callCount_eq {files : FileTree} {url : String} {specifiers : List String}
    (h : Specifies files url specifiers) : callCount files url = specifiers.length := by
  rw [callCount, h.readModule_eq rfl]

namespace Round

variable {files : FileTree} {r : Resolver} {entries : List String} {round next : Round}
  {call : Call} {progress : Progress} {urls : Finset String}

/-- How often the calls that have been made may still proceed. -/
def pendingSteps (round : Round) : Nat := (round.made.map fun call => (round.status call).rank).sum

/-- How often calls that have not been made may proceed when they are: those for specifiers of the
modules among `urls` that have not been read. -/
def futureSteps (files : FileTree) (urls : Finset String) (round : Round) : Nat :=
  ∑ url ∈ urls with url ∉ round.loaded.map LoadedModule.url, 3 * callCount files url

/-- An upper bound on the number of steps that are left in a round. -/
def remaining (files : FileTree) (urls : Finset String) (round : Round) : Nat :=
  round.pendingSteps + round.futureSteps files urls

theorem pendingSteps_advance_lt (hmem : call ∈ round.made)
    (hlt : progress.rank < (round.status call).rank) :
    (round.advance call progress).pendingSteps < round.pendingSteps := by
  refine List.sum_lt_sum _ _ (fun other _ => ?_) ⟨call, hmem, ?_⟩
  · rw [status_advance]
    split
    · rename_i heq
      rw [heq]
      exact hlt.le
    · exact le_rfl
  · rw [status_advance_self]
    exact hlt

/-- Reading one more module makes the calls for its specifiers. -/
theorem pendingSteps_cons_le (m : LoadedModule) :
    ({ round with loaded := m :: round.loaded } : Round).pendingSteps ≤
      round.pendingSteps + 3 * m.specifiers.length := by
  have hcalls : ((m.specifiers.map m.inner).map fun call => (round.status call).rank).sum ≤
      3 * m.specifiers.length := by
    refine (List.sum_le_card_nsmul _ 3 ?_).trans ?_
    · intro n hn
      obtain ⟨call, -, rfl⟩ := List.mem_map.1 hn
      exact Progress.rank_le _
    · simp [mul_comm]
  simp only [pendingSteps, made, List.map_cons, List.sum_cons, List.flatMap_cons, List.map_append,
    List.sum_append]
  omega

/-- A module that has been read is not read again. -/
theorem futureSteps_cons (m : LoadedModule) (hmem : m.url ∈ urls)
    (hnew : m.url ∉ round.loaded.map LoadedModule.url) :
    ({ round with loaded := m :: round.loaded } : Round).futureSteps files urls +
      3 * callCount files m.url = round.futureSteps files urls := by
  have herase : (urls.filter fun url => url ∉ (m :: round.loaded).map LoadedModule.url) =
      (urls.filter fun url => url ∉ round.loaded.map LoadedModule.url).erase m.url := by
    ext url
    simp only [Finset.mem_filter, Finset.mem_erase, List.map_cons, List.mem_cons, not_or]
    tauto
  rw [futureSteps, futureSteps, herase]
  exact Finset.sum_erase_add _ _ (Finset.mem_filter.2 ⟨hmem, hnew⟩)

/-- **Each step leaves less to be done**, if only finitely many modules can be read. -/
theorem Sound.remaining_lt (h : round.Sound files r entries)
    (hurls : ∀ url, LedTo files r round.entry url → url ∈ urls)
    (hstep : round.Step files r next) : next.remaining files urls < round.remaining files urls := by
  -- A call that has come further than to be called has been made.
  have hmade : ∀ call, round.status call ≠ .called → call ∈ round.made := h.orderly.mem_made
  cases hstep with
  | unresolved hmem hcalled | again hmem hcalled | elsewhere hmem hcalled
  | begin hmem hcalled =>
      refine Nat.add_lt_add_right (pendingSteps_advance_lt hmem ?_) _
      simp [hcalled, Progress.rank]
  | unreadable hreading =>
      refine Nat.add_lt_add_right (pendingSteps_advance_lt (hmade _ ?_) ?_) _
      · simp [hreading]
      · simp [hreading, Progress.rank]
  | @load call url specifiers hreading hread =>
      obtain ⟨-, -, hseen, hnew⟩ := h.reads.reading call url hreading
      have hcount := callCount_eq (⟨_, rfl, hread⟩ : Specifies files url specifiers)
      have hpending := @pendingSteps_cons_le (round.advance call .waiting) ⟨call, url, specifiers⟩
      have hfuture := @futureSteps_cons files (round.advance call .waiting) urls
        ⟨call, url, specifiers⟩ (hurls url (h.found.ledTo url hseen)) hnew
      have hlt : (round.advance call .waiting).pendingSteps < round.pendingSteps :=
        pendingSteps_advance_lt (hmade call (by simp [hreading]))
          (by simp [hreading, Progress.rank])
      have heq : (round.advance call .waiting).futureSteps files urls =
        round.futureSteps files urls := rfl
      simp only [advance, remaining] at *
      omega
  | close hm hwaiting | fail hm hwaiting =>
      refine Nat.add_lt_add_right (pendingSteps_advance_lt (hmade _ ?_) ?_) _
      · simp [hwaiting]
      · simp [hwaiting, Progress.rank]

end Round

end ImportAtlas
