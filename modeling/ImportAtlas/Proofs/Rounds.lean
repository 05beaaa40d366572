import ImportAtlas.Proofs.Concurrency

/-!
# What holds in every round

A call that finds its module among those that have been named returns although the module may not
have been traced. So what a round has found is complete only when its entry call returns: then
every module that has been read is closed, the first one because the entry call read it, any other
because a call of an earlier one did and has returned.

## Main results

* `Round.Sound.step`: whatever call proceeds, the invariant of rounds is kept.
* `Round.Sound.traceableFrom`, `Round.Sound.mem_keys`, `Round.Sound.readsOnce`: what has been found
  when the entry call has returned.
* `Round.FailsRightly.step`: a call fails only when something cannot be read or resolved.
-/

namespace ImportAtlas

/-- Every module that has been read was named by the entry call, or by a call for a specifier of a
module that had been read before. -/
def Named (entry : Call) : List LoadedModule → Prop
  | [] => True
  | m :: earlier =>
      (m.call = entry ∨ ∃ m' ∈ earlier, ∃ s ∈ m'.specifiers, m.call = m'.inner s) ∧
        Named entry earlier

theorem Named.of_append {entry : Call} {later earlier : List LoadedModule}
    (h : Named entry (later ++ earlier)) : Named entry earlier := by
  induction later with
  | nil => exact h
  | cons m later ih => exact ih h.2

namespace Round

variable {files : FileTree} {r : Resolver} {entries : List String} {round next : Round}
  {call : Call} {url : String} {m : LoadedModule}

/-! ### Modules that were named -/

/-- What calls have found out about the modules that they name. -/
structure Reads (files : FileTree) (r : Resolver) (round : Round) : Prop where
  /-- A module is being read because a call was the first to name it. -/
  reading : ∀ call url, round.status call = .reading url →
    r.Leads call url ∧ isFileUrl url = true ∧ url ∈ round.seen ∧
      url ∉ round.loaded.map LoadedModule.url
  /-- No two calls read one module. -/
  reading_unique : ∀ call call' url, round.status call = .reading url →
    round.status call' = .reading url → call' = call
  /-- A call returns the module that its specifier names. -/
  returned : ∀ call url, round.status call = .returned url → r.Leads call url ∧ url ∈ round.seen
  /-- A module that has been read has the specifiers that were found in it. -/
  loaded : ∀ m ∈ round.loaded, r.Leads m.call m.url ∧ isFileUrl m.url = true ∧
    m.url ∈ round.seen ∧ Specifies files m.url m.specifiers
  /-- No module has been read twice. -/
  nodup_loaded : (round.loaded.map LoadedModule.url).Nodup

theorem Reads.step (h : round.Reads files r) (hstep : round.Step files r next) :
    next.Reads files r := by
  obtain ⟨hreading, hunique, hreturned, hloaded, hnodup⟩ := h
  cases hstep with
  | unresolved | unreadable | close | fail => constructor <;> grind
  | @again call resolution _ _ hres =>
      have hleads : r.Leads call resolution.url := ⟨resolution, hres, rfl⟩
      constructor <;> grind
  | @elsewhere call resolution _ _ hres =>
      have hleads : r.Leads call resolution.url := ⟨resolution, hres, rfl⟩
      constructor <;> grind
  | @begin call resolution _ _ hres =>
      have hleads : r.Leads call resolution.url := ⟨resolution, hres, rfl⟩
      constructor <;> grind
  | @load call url specifiers _ hread =>
      have hspec : Specifies files url specifiers := ⟨_, rfl, hread⟩
      constructor <;> grind

/-- Two modules that one call read are the same. -/
theorem Reads.eq_of_call_eq {m' : LoadedModule} (h : round.Reads files r) (hm : m ∈ round.loaded)
    (hm' : m' ∈ round.loaded) (heq : m'.call = m.call) : m' = m := by
  refine List.inj_on_of_nodup_map h.nodup_loaded hm' hm ?_
  have hleads := (h.loaded m' hm').1
  rw [heq] at hleads
  exact hleads.unique (h.loaded m hm).1

/-! ### Modules that a call takes care of -/

/-- A call reads a module or has read it, unless a call has failed. -/
def Taken (round : Round) (url : String) : Prop :=
  (∃ call, round.status call = .reading url) ∨ (∃ m ∈ round.loaded, m.url = url) ∨
    ∃ call error, round.status call = .raised error

theorem Taken.step (h : round.Taken url) (hstep : round.Step files r next) : next.Taken url := by
  rcases h with ⟨call, hreading⟩ | ⟨m, hm, heq⟩ | ⟨call, error, hraised⟩
  · cases hstep with
    | unresolved | again | elsewhere | begin | close | fail =>
        exact Or.inl ⟨call, status_advance_of_status hreading (by grind)⟩
    | @unreadable call' url' error hreading' _ =>
        exact Or.inr (Or.inr ⟨call', error, status_advance_self⟩)
    | @load call' url' specifiers hreading' _ =>
        by_cases heq : call = call'
        · subst heq
          rw [hreading] at hreading'
          refine Or.inr (Or.inl ⟨_, List.mem_cons_self, ?_⟩)
          exact (Progress.reading.inj hreading').symm
        · refine Or.inl ⟨call, ?_⟩
          rw [status_advance_of_ne heq]
          exact hreading
  · exact Or.inr (Or.inl ⟨m, hstep.grows.loaded_subset hm, heq⟩)
  · exact Or.inr (Or.inr ⟨call, error, hstep.grows.raised call error hraised⟩)

/-! ### Calls that wait for others -/

/-- A module has been traced: its call and the calls for its specifiers have returned. -/
structure Closed (round : Round) (m : LoadedModule) : Prop where
  returned : round.status m.call = .returned m.url
  inner : ∀ s ∈ m.specifiers, ∃ url, round.status (m.inner s) = .returned url
  mem_keys : m.url ∈ round.session.trace.keys

theorem Closed.mono (h : round.Closed m) (hgrows : Grows round next) : next.Closed m where
  returned := hgrows.returned _ _ h.returned
  inner s hs := (h.inner s hs).imp fun _ hurl => hgrows.returned _ _ hurl
  mem_keys := hgrows.keys_subset h.mem_keys

/-- The call that read a module waits for others, has failed, or has closed it. -/
def Settled (round : Round) (m : LoadedModule) : Prop :=
  round.status m.call = .waiting ∨ (∃ error, round.status m.call = .raised error) ∨ round.Closed m

/-- How calls depend on each other. -/
structure Orderly (round : Round) : Prop where
  isEntry : round.entry.isEntry = true
  mem_made : ∀ call, round.status call ≠ .called → call ∈ round.made
  waiting : ∀ call, round.status call = .waiting → ∃ m ∈ round.loaded, m.call = call
  named : Named round.entry round.loaded
  settled : ∀ m ∈ round.loaded, round.Settled m

/-- A call that has not ended and does not proceed stays as it is. -/
theorem Settled.step (h : round.Settled m) (hm : m ∈ round.loaded) (hreads : round.Reads files r)
    (hstep : round.Step files r next) : next.Settled m := by
  rcases h with hwaiting | ⟨error, hraised⟩ | hclosed
  · cases hstep with
    | unresolved | again | elsewhere | begin | unreadable =>
        exact Or.inl (status_advance_of_status hwaiting (by grind))
    | @load call url specifiers hreading _ =>
        exact Or.inl (status_advance_of_status hwaiting (by grind))
    | @close m' dependencies hm' _ hkeys hreturned =>
        by_cases heq : m.call = m'.call
        · obtain rfl := hreads.eq_of_call_eq hm' hm heq
          refine Or.inr (Or.inr ⟨status_advance_self, fun s hs => ?_, ?_⟩)
          · rw [← hkeys] at hs
            obtain ⟨url, hurl⟩ := Dict.mem_keys_iff.1 hs
            exact ⟨url, status_advance_of_status (hreturned s url hurl) (by simp [hwaiting])⟩
          · exact Dict.mem_keys_insert.2 (Or.inl rfl)
        · left
          rw [status_advance_of_ne heq]
          exact hwaiting
    | @fail m' s error hm' _ _ hraised =>
        by_cases heq : m.call = m'.call
        · refine Or.inr (Or.inl ⟨error, ?_⟩)
          rw [heq]
          exact status_advance_self
        · left
          rw [status_advance_of_ne heq]
          exact hwaiting
  · exact Or.inr (Or.inl ⟨error, hstep.grows.raised _ _ hraised⟩)
  · exact Or.inr (Or.inr (hclosed.mono hstep.grows))

theorem Orderly.step (h : round.Orderly) (hreads : round.Reads files r)
    (hstep : round.Step files r next) : next.Orderly where
  isEntry := by
    rw [hstep.grows.entry_eq]
    exact h.isEntry
  mem_made := by
    intro call hcall
    by_cases hcalled : round.status call = .called
    · cases hstep with
      | unresolved hmem | again hmem | elsewhere hmem | begin hmem => grind [mem_made_iff]
      | unreadable | load | close | fail => grind
    · exact hstep.grows.made_subset (h.mem_made call hcalled)
  waiting := by
    intro call hcall
    cases hstep with
    | unresolved | again | elsewhere | begin | unreadable | close | fail =>
        have := h.waiting call
        grind
    | @load call' url specifiers _ _ =>
        by_cases heq : call = call'
        · exact ⟨_, List.mem_cons_self, heq.symm⟩
        · rw [status_advance_of_ne heq] at hcall
          obtain ⟨m, hm, hmcall⟩ := h.waiting call hcall
          exact ⟨m, List.mem_cons_of_mem _ hm, hmcall⟩
  named := by
    cases hstep with
    | unresolved | again | elsewhere | begin | unreadable | close | fail => exact h.named
    | @load call url specifiers hreading _ =>
        refine ⟨mem_made_iff.1 (h.mem_made call ?_), h.named⟩
        rw [hreading]
        simp
  settled := by
    intro m hm
    by_cases hold : m ∈ round.loaded
    · exact (h.settled m hold).step hold hreads hstep
    · cases hstep with
      | unresolved | again | elsewhere | begin | unreadable | close | fail => exact absurd hm hold
      | load =>
          obtain rfl := (List.mem_cons.1 hm).resolve_right hold
          exact Or.inl status_advance_self

/-! ### Modules that the entry call leads to -/

/-- What the modules that were named have to do with the entry call. -/
structure Found (files : FileTree) (r : Resolver) (round : Round) : Prop where
  ledTo : ∀ url ∈ round.seen, LedTo files r round.entry url
  taken : ∀ url ∈ round.seen, isFileUrl url = true → round.Taken url

/-- What a call that has been made names, the entry call leads to. -/
theorem Found.ledTo_of_leads (h : round.Found files r) (hreads : round.Reads files r)
    (hmem : call ∈ round.made) (hleads : r.Leads call url) : LedTo files r round.entry url := by
  rcases mem_made_iff.1 hmem with rfl | ⟨m, hm, s, hs, rfl⟩
  · exact .first hleads
  · obtain ⟨-, hfile, hseen, hspec⟩ := hreads.loaded m hm
    exact .next (h.ledTo m.url hseen) hfile hspec hs hleads

theorem Found.step (h : round.Found files r) (hreads : round.Reads files r)
    (hstep : round.Step files r next) : next.Found files r := by
  have htaken : ∀ url ∈ round.seen, isFileUrl url = true → next.Taken url :=
    fun url hurl hfile => (h.taken url hurl hfile).step hstep
  cases hstep with
  | unresolved | again | unreadable | load | close | fail => exact ⟨h.ledTo, htaken⟩
  | @elsewhere call resolution hmem _ hres _ hfile =>
      have hled := h.ledTo_of_leads hreads hmem ⟨resolution, hres, rfl⟩
      constructor
      · intro url hurl
        rcases List.mem_append.1 hurl with hold | hnew
        · exact h.ledTo url hold
        · exact List.mem_singleton.1 hnew ▸ hled
      · intro url hurl hurlFile
        rcases List.mem_append.1 hurl with hold | hnew
        · exact htaken url hold hurlFile
        · rw [List.mem_singleton.1 hnew, hfile] at hurlFile
          exact absurd hurlFile Bool.false_ne_true
  | @begin call resolution hmem _ hres _ hfile =>
      have hled := h.ledTo_of_leads hreads hmem ⟨resolution, hres, rfl⟩
      constructor
      · intro url hurl
        rcases List.mem_append.1 hurl with hold | hnew
        · exact h.ledTo url hold
        · exact List.mem_singleton.1 hnew ▸ hled
      · intro url hurl hurlFile
        rcases List.mem_append.1 hurl with hold | hnew
        · exact htaken url hold hurlFile
        · refine Or.inl ⟨call, ?_⟩
          rw [List.mem_singleton.1 hnew]
          exact status_advance_self

/-! ### Calls that fail -/

/-- A call was made that names nothing: something cannot be resolved. -/
theorem Found.not_traceableFrom_of_unresolved (h : round.Found files r)
    (hreads : round.Reads files r) (hmem : call ∈ round.made) (hnone : ∀ url, ¬ r.Leads call url) :
    ¬ TraceableFrom files r round.entry := by
  intro htrace
  rcases mem_made_iff.1 hmem with rfl | ⟨m, hm, s, hs, rfl⟩
  · obtain ⟨url, hurl⟩ := htrace.leads
    exact hnone url hurl
  · obtain ⟨-, hfile, hseen, hspec⟩ := hreads.loaded m hm
    obtain ⟨specifiers, hspec', hall⟩ := htrace.leadsOn m.url (h.ledTo m.url hseen) hfile
    rw [hspec.unique hspec'] at hs
    obtain ⟨url, hurl⟩ := hall s hs
    exact hnone url hurl

/-- A module that was named has no specifiers: it cannot be read. -/
theorem Found.not_traceableFrom_of_unreadable (h : round.Found files r) (hurl : url ∈ round.seen)
    (hfile : isFileUrl url = true) (hnone : ∀ specifiers, ¬ Specifies files url specifiers) :
    ¬ TraceableFrom files r round.entry := by
  intro htrace
  obtain ⟨specifiers, hspec, -⟩ := htrace.leadsOn url (h.ledTo url hurl) hfile
  exact hnone specifiers hspec

/-- A call fails only when something that the entry call leads to cannot be read or resolved. -/
def FailsRightly (files : FileTree) (r : Resolver) (round : Round) : Prop :=
  ∀ call error, round.status call = .raised error → ¬ TraceableFrom files r round.entry

theorem FailsRightly.step (h : round.FailsRightly files r) (hreads : round.Reads files r)
    (hfound : round.Found files r) (hstep : round.Step files r next) :
    next.FailsRightly files r := by
  intro call error hraised
  rw [hstep.grows.entry_eq]
  cases hstep with
  | again | elsewhere | begin | load | close =>
      refine h call error ?_
      grind
  | @unresolved call' error' hmem _ hres =>
      refine hfound.not_traceableFrom_of_unresolved hreads hmem ?_
      rintro url ⟨resolution, hok, -⟩
      rw [hres] at hok
      exact absurd hok (by simp)
  | @unreadable call' url error' hreading hread =>
      obtain ⟨-, hfile, hseen, -⟩ := hreads.reading call' url hreading
      refine hfound.not_traceableFrom_of_unreadable hseen hfile fun specifiers hspec => ?_
      rw [hspec.readModule_eq rfl] at hread
      exact absurd hread (by simp)
  | @fail m s error' _ _ _ hraised' => exact h _ _ hraised'

/-! ### The invariant -/

/-- **What holds in every round.** -/
structure Sound (files : FileTree) (r : Resolver) (entries : List String) (round : Round) :
    Prop where
  entry : ∃ e ∈ entries, round.entry = r.entryCall e
  reads : round.Reads files r
  orderly : round.Orderly
  found : round.Found files r
  failsRightly : round.FailsRightly files r
  faithful : round.session.trace.Faithful files r entries

theorem sound_start {session : Session} {e : String} (he : e ∈ entries)
    (h : session.trace.Faithful files r entries) :
    (start session (r.entryCall e)).Sound files r entries where
  entry := ⟨e, he, rfl⟩
  reads := by constructor <;> simp [start]
  orderly := by constructor <;> simp [start, Resolver.entryCall, Named]
  found := by constructor <;> simp [start]
  failsRightly := by simp [FailsRightly, start]
  faithful := h

theorem Sound.reachable (h : round.Sound files r entries) (hled : LedTo files r round.entry url) :
    Reachable files r entries url := by
  obtain ⟨e, he, heq⟩ := h.entry
  exact ⟨e, he, heq ▸ hled⟩

theorem Sound.faithful_step (h : round.Sound files r entries) (hstep : round.Step files r next) :
    next.session.trace.Faithful files r entries := by
  cases hstep with
  | unresolved | again | elsewhere | begin | unreadable | load | fail => exact h.faithful
  | @close m dependencies hm _ hkeys hreturned =>
      obtain ⟨-, hfile, hseen, hspec⟩ := h.reads.loaded m hm
      refine h.faithful.insert (h.reachable (h.found.ledTo m.url hseen)) hfile (hkeys ▸ hspec) ?_
      exact fun s url hurl => (h.reads.returned _ _ (hreturned s url hurl)).1

/-- **Whatever call proceeds, the invariant is kept.** -/
theorem Sound.step (h : round.Sound files r entries) (hstep : round.Step files r next) :
    next.Sound files r entries where
  entry := by
    rw [hstep.grows.entry_eq]
    exact h.entry
  reads := h.reads.step hstep
  orderly := h.orderly.step h.reads hstep
  found := h.found.step h.reads hstep
  failsRightly := h.failsRightly.step h.reads h.found hstep
  faithful := h.faithful_step hstep

/-! ### The end of a round -/

/-- A module whose call has returned is closed. -/
theorem Sound.closed_of_returned (h : round.Sound files r entries) (hm : m ∈ round.loaded)
    (hreturned : round.status m.call = .returned url) : round.Closed m := by
  rcases h.orderly.settled m hm with hwaiting | ⟨error, hraised⟩ | hclosed
  · rw [hreturned] at hwaiting
    exact absurd hwaiting (by simp)
  · rw [hreturned] at hraised
    exact absurd hraised (by simp)
  · exact hclosed

/-- When the entry call has returned, the modules that were read before some others are closed. The
induction is on the modules, in the order in which they were read. -/
theorem Sound.closed_of_append {later earlier : List LoadedModule}
    (h : round.Sound files r entries) (hend : round.status round.entry = .returned url)
    (heq : round.loaded = later ++ earlier) : ∀ m ∈ earlier, round.Closed m := by
  induction earlier generalizing later with
  | nil => exact fun m hm => absurd hm List.not_mem_nil
  | cons first earlier ih =>
      have hearlier := @ih (later ++ [first]) (by simp [heq])
      have hnamed : Named round.entry (first :: earlier) := (heq ▸ h.orderly.named).of_append
      have hreturned : ∃ url, round.status first.call = .returned url := by
        rcases hnamed.1 with hentry | ⟨m', hm', s, hs, hcall⟩
        · exact ⟨url, hentry ▸ hend⟩
        · exact hcall ▸ (hearlier m' hm').inner s hs
      obtain ⟨url', hurl'⟩ := hreturned
      exact List.forall_mem_cons.2 ⟨h.closed_of_returned (by simp [heq]) hurl', hearlier⟩

/-- When the entry call has returned, every module that has been read is closed. -/
theorem Sound.closed (h : round.Sound files r entries)
    (hend : round.status round.entry = .returned url) (hm : m ∈ round.loaded) :
    round.Closed m :=
  h.closed_of_append hend (List.nil_append _).symm m hm

/-- When the entry call has returned, all calls have. -/
theorem Sound.returned (h : round.Sound files r entries)
    (hend : round.status round.entry = .returned url) (hmem : call ∈ round.made) :
    ∃ url, round.status call = .returned url := by
  rcases mem_made_iff.1 hmem with rfl | ⟨m, hm, s, hs, rfl⟩
  · exact ⟨url, hend⟩
  · exact (h.closed hend hm).inner s hs

/-- When the entry call has returned, a module on disk that was named has been read. -/
theorem Sound.exists_loaded {next : String} (h : round.Sound files r entries)
    (hend : round.status round.entry = .returned url) (hseen : next ∈ round.seen)
    (hfile : isFileUrl next = true) : ∃ m ∈ round.loaded, m.url = next := by
  -- A call that reads a module, or has failed, has been made and has not returned.
  have hnot : ∀ call, round.status call ≠ .called → ∃ url, round.status call = .returned url :=
    fun call hcall => h.returned hend (h.orderly.mem_made call hcall)
  rcases h.found.taken next hseen hfile with ⟨call, hcall⟩ | hloaded | ⟨call, error, hcall⟩
  · have := hnot call
    simp [hcall] at this
  · exact hloaded
  · have := hnot call
    simp [hcall] at this

/-- **When the entry call has returned, everything it leads to has been named.** -/
theorem Sound.mem_seen {next : String} (h : round.Sound files r entries)
    (hend : round.status round.entry = .returned url) (hled : LedTo files r round.entry next) :
    next ∈ round.seen := by
  have hcall : ∀ call next, call ∈ round.made → r.Leads call next → next ∈ round.seen := by
    intro call next hmem hleads
    obtain ⟨url, hurl⟩ := h.returned hend hmem
    obtain ⟨hleads', hseen⟩ := h.reads.returned call url hurl
    exact hleads.unique hleads' ▸ hseen
  induction hled with
  | first hleads => exact hcall _ _ (mem_made_iff.2 (Or.inl rfl)) hleads
  | next _ hfile hspec hs hleads ih =>
      obtain ⟨m, hm, rfl⟩ := h.exists_loaded hend ih hfile
      rw [hspec.unique (h.reads.loaded m hm).2.2.2] at hs
      exact hcall _ _ (mem_made_iff.2 (Or.inr ⟨m, hm, _, hs, rfl⟩)) hleads

theorem Sound.traceableFrom (h : round.Sound files r entries)
    (hend : round.status round.entry = .returned url) : TraceableFrom files r round.entry where
  leads := ⟨url, (h.reads.returned _ _ hend).1⟩
  leadsOn := by
    intro next hled hfile
    obtain ⟨m, hm, rfl⟩ := h.exists_loaded hend (h.mem_seen hend hled) hfile
    refine ⟨m.specifiers, (h.reads.loaded m hm).2.2.2, fun s hs => ?_⟩
    obtain ⟨url, hurl⟩ := (h.closed hend hm).inner s hs
    exact ⟨url, (h.reads.returned _ _ hurl).1⟩

theorem Sound.mem_keys {next : String} (h : round.Sound files r entries)
    (hend : round.status round.entry = .returned url) (hled : LedTo files r round.entry next)
    (hfile : isFileUrl next = true) : next ∈ round.session.trace.keys := by
  obtain ⟨m, hm, rfl⟩ := h.exists_loaded hend (h.mem_seen hend hled) hfile
  exact (h.closed hend hm).mem_keys

theorem Sound.readsOnce (h : round.Sound files r entries)
    (hend : round.status round.entry = .returned url) :
    ReadsOnce files r round.entry (round.loaded.map LoadedModule.url).reverse := by
  refine ⟨List.nodup_reverse.2 h.reads.nodup_loaded, fun next => ?_⟩
  rw [List.mem_reverse, List.mem_map]
  constructor
  · rintro ⟨m, hm, rfl⟩
    obtain ⟨-, hfile, hseen, -⟩ := h.reads.loaded m hm
    exact ⟨h.found.ledTo m.url hseen, hfile⟩
  · exact fun ⟨hled, hfile⟩ => h.exists_loaded hend (h.mem_seen hend hled) hfile

end Round

end ImportAtlas
