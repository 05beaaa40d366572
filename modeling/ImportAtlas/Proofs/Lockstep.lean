import ImportAtlas.Proofs.Filtering
import ImportAtlas.Proofs.Turns

/-!
# The tracing that runs is a schedule

A run reads one module after another and resolves all specifiers of a module before it reads the
next one. Whatever it does, concurrent calls may do in the same order: a module that waits to be
read is one that a call has begun to read, and an open module is one whose call waits.

## Summary

* `Round.Mirrors` relates a round of concurrent calls to a run.
* `Round.Resolving` is a module that has been read and has specifiers left to be resolved.
* `Round.MayRaise` says that a failure reaches the entry call by some steps.

## Main results

* `Round.Resolving.steps`, `Round.Mirrors.visit`, `Round.Mirrors.explore`: what a run does are steps.
* `Tracing.exists_steps_traceAll`: the outcome of tracing entry modules is one that a schedule has.
-/

namespace ImportAtlas

open Relation

/-! ### Naming a module -/

namespace Run

variable {run : Run} {specifier parent : String} {resolution : Resolution}

theorem note_of_seen (h : resolution.url ∈ run.seen) : run.note specifier parent resolution =
    { run with session := run.session.note resolution } := by
  rw [note, name, if_pos (List.contains_iff_mem.2 h)]
  rfl

theorem note_of_elsewhere (h : resolution.url ∉ run.seen)
    (hfile : isFileUrl resolution.url = false) : run.note specifier parent resolution =
      { run with
        session := run.session.note resolution
        seen := run.seen ++ [resolution.url] } := by
  rw [note, name, if_neg (mt List.contains_iff_mem.1 h)]
  simp only [hfile]
  rfl

theorem note_of_file (h : resolution.url ∉ run.seen) (hfile : isFileUrl resolution.url = true) :
    run.note specifier parent resolution =
      { run with
        session := { run.session.note resolution with
          found := run.session.found ++ [resolution.url] }
        seen := run.seen ++ [resolution.url]
        pending := run.pending ++ [⟨specifier, parent, resolution.url⟩] } := by
  rw [note, name, if_neg (mt List.contains_iff_mem.1 h)]
  simp only [hfile]
  rfl

theorem explore_of_fault?_eq_some {files : FileTree} {r : Resolver} {error : Error}
    (h : run.fault? = some error) (budget : Nat) : run.explore files r budget = run := by
  cases budget with
  | zero => rfl
  | succ budget => rw [explore, if_pos (by simp [h])]

end Run

namespace Round

variable {files : FileTree} {r : Resolver} {entries : List String} {round next : Round} {run : Run}
  {call other : Call} {url : String} {m : LoadedModule} {progress : Progress}

/-! ### Failures reach the entry call -/

/-- A failure reaches the entry call by some steps. -/
def MayRaise (files : FileTree) (r : Resolver) (round : Round) (error : Error) : Prop :=
  ∃ next, ReflTransGen (Step files r) round next ∧ next.status next.entry = .raised error

theorem MayRaise.of_steps {error : Error} (h : next.MayRaise files r error)
    (hsteps : ReflTransGen (Step files r) round next) : round.MayRaise files r error := by
  obtain ⟨last, hlast, hend⟩ := h
  exact ⟨last, hsteps.trans hlast, hend⟩

/-- A failure passes from a call to the one that made it. The induction is on the modules that
were read before, latest first. -/
theorem Sound.mayRaise {error : Error} {later earlier : List LoadedModule}
    (h : round.Sound files r entries) (hraised : round.status call = .raised error)
    (hcall : call = round.entry ∨ ∃ m ∈ earlier, ∃ s ∈ m.specifiers, call = m.inner s)
    (heq : round.loaded = later ++ earlier)
    (hquiet : ∀ m ∈ earlier, ∀ error, round.status m.call ≠ .raised error) :
    round.MayRaise files r error := by
  induction earlier generalizing round call later with
  | nil =>
      obtain rfl := hcall.resolve_right (by simp)
      exact ⟨round, .refl, hraised⟩
  | cons first earlier ih =>
      rcases hcall with rfl | ⟨m, hm, s, hs, rfl⟩
      · exact ⟨round, .refl, hraised⟩
      rcases List.mem_cons.1 hm with rfl | hm
      · have hloaded : m ∈ round.loaded := by simp [heq]
        have hwaiting : round.status m.call = .waiting := by
          rcases h.orderly.settled m hloaded with hwaiting | ⟨error', herror⟩ | hclosed
          · exact hwaiting
          · exact absurd herror (hquiet m List.mem_cons_self error')
          · obtain ⟨url, hurl⟩ := hclosed.inner s hs
            rw [hraised] at hurl
            exact absurd hurl (by simp)
        have hstep : round.Step files r (round.advance m.call (.raised error)) :=
          .fail hloaded hwaiting hs hraised
        have hnamed : Named round.entry (m :: earlier) := (heq ▸ h.orderly.named).of_append
        have hraises := @ih (round.advance m.call (.raised error)) m.call
          (later ++ [m]) (h.step hstep) status_advance_self hnamed.1 (by simp [heq]) (by
            intro m' hm' error'
            -- Two modules of one call would be one module, read twice.
            have hne : m'.call ≠ m.call := by
              intro hcall
              have hsame := h.reads.eq_of_call_eq hloaded (by simp [heq, hm']) hcall
              have hnodup := h.reads.nodup_loaded
              rw [heq, List.map_append, List.nodup_append] at hnodup
              exact (List.nodup_cons.1 hnodup.2.1).1 (List.mem_map.2 ⟨m', hm', by rw [hsame]⟩)
            rw [status_advance_of_ne hne]
            exact hquiet m' (List.mem_cons_of_mem _ hm') error')
        exact hraises.of_steps (.single hstep)
      · exact ih h hraised (Or.inr ⟨m, hm, s, hs, rfl⟩) (by simpa using heq : round.loaded =
          (later ++ [first]) ++ earlier) fun m' hm' => hquiet m' (List.mem_cons_of_mem _ hm')

/-! ### Rounds that mirror runs -/

/-- A call reads a module or has read it. -/
def Claims (round : Round) (call : Call) (url : String) : Prop :=
  round.status call = .reading url ∨ ∃ m ∈ round.loaded, m.call = call ∧ m.url = url

theorem Claims.advance (h : round.Claims call url)
    (hother : ∀ url, round.status other ≠ .reading url) :
    (round.advance other progress).Claims call url := by
  exact h.imp_left fun hreading => status_advance_of_status hreading (hother url)

/-- **A round mirrors a run**: what has been found and named is the same, modules that wait to be
read are being read, and the calls of open modules wait. The modules in `busy` have been read but
are not open yet. -/
structure Mirrors (busy : List String) (round : Round) (run : Run) : Prop where
  session_eq : round.session = run.session
  seen_eq : round.seen = run.seen
  reads_eq : (round.loaded.map LoadedModule.url).reverse = run.reads
  /-- A module that waits to be read is being read by the call that named it first. -/
  pending : ∀ v ∈ run.pending, ∃ call, call.specifier = v.specifier ∧ call.parent = v.parent ∧
    round.status call = .reading v.url
  nodup_pending : (run.pending.map Visit.url).Nodup
  /-- An open module waits for those of its calls that have named a module first. -/
  opened : ∀ o ∈ run.opened, ∃ m ∈ round.loaded, m.url = o.url ∧ round.status m.call = .waiting ∧
    o.dependencies.keys = m.specifiers ∧ ∀ s url, o.dependencies.get? s = some url →
      round.status (m.inner s) = .returned url ∨ url ∈ o.awaited ∧ round.Claims (m.inner s) url
  nodup_opened : (run.opened.map OpenModule.url).Nodup
  closed : ∀ url ∈ run.closed, ∃ m ∈ round.loaded, m.url = url ∧
    round.status m.call = .returned url
  loaded : ∀ m ∈ round.loaded, m.url ∈ busy ∨ m.url ∈ run.closed ∨
    m.url ∈ run.opened.map OpenModule.url
  entry : round.status round.entry = .called ∨
    (∃ url, round.status round.entry = .returned url) ∨
    (∃ v ∈ run.pending, round.status round.entry = .reading v.url) ∨
    ∃ m ∈ round.loaded, m.call = round.entry

variable {busy : List String}

/-- A call that has done nothing comes further, and the run notes what it has found. -/
theorem Mirrors.advance {run' : Run} {round' : Round} (h : Mirrors busy round run)
    (hcalled : round.status call = .called) (hentry : round'.entry = round.entry)
    (hstatus : round'.status = round.status) (hloaded : round'.loaded = round.loaded)
    (hsession : round'.session = run'.session) (hseen : round'.seen = run'.seen)
    (hgrows : run'.reads = run.reads ∧ run'.opened = run.opened ∧ run'.closed = run.closed)
    (hold : ∀ v ∈ run.pending, v ∈ run'.pending)
    (hnew : ∀ v ∈ run'.pending, v ∈ run.pending ∨ call.specifier = v.specifier ∧
      call.parent = v.parent ∧ progress = .reading v.url)
    (hnodup : (run'.pending.map Visit.url).Nodup)
    (hprogress : (∃ url, progress = .returned url) ∨
      ∃ v ∈ run'.pending, progress = .reading v.url) :
    Mirrors busy (round'.advance call progress) run' := by
  obtain ⟨hreads, hopened, hclosed⟩ := hgrows
  -- Other calls, and all that have come further, are as they were.
  have hkeep : ∀ other progress', round.status other = progress' → .called ≠ progress' →
      (round'.advance call progress).status other = progress' := by
    intro other progress' hother hne
    exact status_advance_of_status (hstatus ▸ hother) (by rwa [hstatus, hcalled])
  have hclaims : ∀ {other url}, round.Claims other url →
      (round'.advance call progress).Claims other url := by
    rintro other url (hreading | hother)
    · exact Or.inl (hkeep other _ hreading (by simp))
    · exact Or.inr (hloaded ▸ hother)
  constructor
  · exact hsession
  · exact hseen
  · rw [loaded_advance, hloaded, hreads]
    exact h.reads_eq
  · intro v hv
    rcases hnew v hv with hv | ⟨hs, hp, rfl⟩
    · obtain ⟨other, hs, hp, hother⟩ := h.pending v hv
      exact ⟨other, hs, hp, hkeep other _ hother (by simp)⟩
    · exact ⟨call, hs, hp, status_advance_self⟩
  · exact hnodup
  · intro o ho
    obtain ⟨m, hm, hurl, hwaiting, hkeys, hdeps⟩ := h.opened o (hopened ▸ ho)
    refine ⟨m, hloaded ▸ hm, hurl, hkeep m.call _ hwaiting (by simp), hkeys, fun s url hget => ?_⟩
    exact (hdeps s url hget).imp (fun hret => hkeep _ _ hret (by simp))
      fun ⟨hawait, hclaim⟩ => ⟨hawait, hclaims hclaim⟩
  · rw [hopened]
    exact h.nodup_opened
  · intro url hurl
    obtain ⟨m, hm, heq, hret⟩ := h.closed url (hclosed ▸ hurl)
    exact ⟨m, hloaded ▸ hm, heq, hkeep m.call _ hret (by simp)⟩
  · intro m hm
    rw [hclosed, hopened]
    exact h.loaded m (hloaded ▸ hm)
  · rw [entry_advance, hentry]
    by_cases heq : round.entry = call
    · rw [heq, status_advance_self]
      exact Or.inr (hprogress.imp_right Or.inl)
    · rw [status_advance_of_ne heq, hstatus, loaded_advance, hloaded]
      exact h.entry.imp_right (Or.imp_right (Or.imp_left fun ⟨v, hv, hreading⟩ =>
        ⟨v, hold v hv, hreading⟩))

/-! ### Specifiers -/

/-- Resolving a specifier is a step. The call for it returns, or the module that it names waits to
be read. -/
theorem Mirrors.claim {resolution : Resolution} (hreads : round.Reads files r)
    (h : Mirrors busy round run) (hmem : call ∈ round.made) (hcalled : round.status call = .called)
    (hres : r.resolve call.specifier call.parent call.isEntry = .ok resolution) :
    ∃ next added, round.Step files r next ∧
      Mirrors busy next (run.note call.specifier call.parent resolution) ∧
      next.loaded = round.loaded ∧
      (∀ other, other ≠ call → next.status other = round.status other) ∧
      (run.note call.specifier call.parent resolution).pending = run.pending ++ added ∧
      (next.status call = .returned resolution.url ∨
        next.status call = .reading resolution.url ∧ resolution.url ∈ added.map Visit.url) := by
  by_cases hseen : resolution.url ∈ round.seen
  · have hnote := @Run.note_of_seen run call.specifier call.parent resolution (h.seen_eq ▸ hseen)
    refine ⟨_, [], .again hmem hcalled hres hseen, ?_, rfl,
      fun other hne => status_advance_of_ne hne, by rw [hnote]; simp, Or.inl status_advance_self⟩
    rw [hnote]
    refine h.advance hcalled rfl rfl rfl ?_ h.seen_eq ⟨rfl, rfl, rfl⟩ (fun v hv => hv)
      (fun v hv => Or.inl hv) h.nodup_pending (Or.inl ⟨_, rfl⟩)
    rw [← h.session_eq]
  · have hrunSeen : resolution.url ∉ run.seen := h.seen_eq ▸ hseen
    cases hfile : isFileUrl resolution.url with
    | false =>
        have hnote :=
          @Run.note_of_elsewhere run call.specifier call.parent resolution hrunSeen hfile
        refine ⟨_, [], .elsewhere hmem hcalled hres hseen hfile, ?_, rfl,
          fun other hne => status_advance_of_ne hne, by rw [hnote]; simp,
          Or.inl status_advance_self⟩
        rw [hnote]
        refine h.advance hcalled rfl rfl rfl ?_ ?_ ⟨rfl, rfl, rfl⟩ (fun v hv => hv)
          (fun v hv => Or.inl hv) h.nodup_pending (Or.inl ⟨_, rfl⟩)
        · rw [← h.session_eq]
        · rw [← h.seen_eq]
    | true =>
        have hnote := @Run.note_of_file run call.specifier call.parent resolution hrunSeen hfile
        refine ⟨_, [⟨call.specifier, call.parent, resolution.url⟩],
          .begin hmem hcalled hres hseen hfile, ?_, rfl,
          fun other hne => status_advance_of_ne hne, by rw [hnote],
          Or.inr ⟨status_advance_self, by simp⟩⟩
        rw [hnote]
        refine h.advance hcalled rfl rfl rfl ?_ ?_ ⟨rfl, rfl, rfl⟩ (fun v hv => ?_)
          (fun v hv => ?_) ?_ (Or.inr ⟨⟨call.specifier, call.parent, resolution.url⟩, ?_, rfl⟩)
        · rw [← h.session_eq]
        · rw [← h.seen_eq]
        · exact List.mem_append_left _ hv
        · rcases List.mem_append.1 hv with hv | hv
          · exact Or.inl hv
          · obtain rfl := List.mem_singleton.1 hv
            exact Or.inr ⟨rfl, rfl, rfl⟩
        · rw [List.map_append, List.nodup_append]
          refine ⟨h.nodup_pending, List.nodup_singleton _, ?_⟩
          rintro _ hold _ hnew rfl
          obtain ⟨v, hv, heq⟩ := List.mem_map.1 hold
          obtain ⟨other, -, -, hother⟩ := h.pending v hv
          have hvseen := (hreads.reading other v.url hother).2.2.1
          rw [heq, List.mem_singleton.1 hnew] at hvseen
          exact hseen hvseen
        · exact List.mem_append_right _ (List.mem_singleton.2 rfl)

/-- The dependencies of a module that have been found so far: each has been returned, or is among
the modules `added` to those that wait. -/
def Claimed (round : Round) (m : LoadedModule) (added : List Visit)
    (dependencies : Dict String String) : Prop :=
  ∀ s url, dependencies.get? s = some url → round.status (m.inner s) = .returned url ∨
    url ∈ added.map Visit.url ∧ round.Claims (m.inner s) url

/-- Calls that have come further than to be called are as they were. -/
def Keeps (round next : Round) : Prop :=
  ∀ call, round.status call ≠ .called → next.status call = round.status call

/-- No call that read a module has failed. -/
def Quiet (round : Round) : Prop :=
  ∀ m ∈ round.loaded, ∀ error, round.status m.call ≠ .raised error

/-- The call that read a module has come further than others. -/
theorem Sound.call_ne (h : round.Sound files r entries) (hm : m ∈ round.loaded)
    (hcall : round.status call = .called ∨ ∃ url, round.status call = .reading url) :
    m.call ≠ call := by
  rintro rfl
  rcases h.orderly.settled m hm with hwaiting | ⟨error, hraised⟩ | hclosed
  · simp [hwaiting] at hcall
  · simp [hraised] at hcall
  · simp [hclosed.returned] at hcall

theorem Sound.quiet_of_keeps (h : round.Sound files r entries) (hquiet : round.Quiet)
    (hloaded : next.loaded = round.loaded) (hkeeps : round.Keeps next) : next.Quiet := by
  intro m hm error
  rw [hloaded] at hm
  rw [hkeeps m.call fun hcalled => h.call_ne hm (Or.inl hcalled) rfl]
  exact hquiet m hm error

/-- When a call fails that has read nothing, the entry call may fail in the end. -/
theorem Sound.mayRaise_of_step {error : Error} (h : round.Sound files r entries)
    (hquiet : round.Quiet)
    (hcall : round.status call = .called ∨ ∃ url, round.status call = .reading url)
    (hmem : call ∈ round.made) (hstep : round.Step files r (round.advance call (.raised error))) :
    round.MayRaise files r error := by
  have hnext : (round.advance call (.raised error)).Quiet := by
    intro m hm error'
    rw [status_advance_of_ne (h.call_ne hm hcall)]
    exact hquiet m hm error'
  have hraises := (h.step hstep).mayRaise status_advance_self (mem_made_iff.1 hmem)
    (List.nil_append _).symm hnext
  exact hraises.of_steps (.single hstep)

theorem fault?_foldl_claimNext_of_some {error : Error} {parent : String} {specifiers : List String}
    {state : Run × Dict String String} (h : state.1.fault? = some error) :
    (specifiers.foldl (Run.claimNext r parent) state).1.fault? = some error := by
  induction specifiers generalizing state with
  | nil => exact h
  | cons s specifiers ih =>
      refine ih ?_
      rw [Run.fst_claimNext]
      cases hres : r.resolve s parent false with
      | error e => rw [Run.claim, hres]; simp [Run.fail, h]
      | ok resolution => rw [Run.claim_of_resolve hres, Run.fault?_note, h]

theorem Claimed.insert {added more : List Visit} {dependencies : Dict String String} {s : String}
    (h : round.Claimed m added dependencies)
    (hs : next.status (m.inner s) = .returned url ∨
      next.status (m.inner s) = .reading url ∧ url ∈ more.map Visit.url)
    (hloaded : next.loaded = round.loaded) (hkeeps : round.Keeps next) :
    next.Claimed m (added ++ more) (dependencies.insert s url) := by
  intro s' url' hget
  rw [Dict.get?_insert] at hget
  rw [List.map_append, List.mem_append]
  split at hget
  · rename_i heq
    obtain rfl := Option.some.inj hget
    rw [heq]
    exact hs.imp_right fun hclaim => ⟨Or.inr hclaim.2, Or.inl hclaim.1⟩
  · rcases h s' url' hget with hreturned | ⟨hadded, hreading | hclaim⟩
    · exact Or.inl ((hkeeps _ (by simp [hreturned])).trans hreturned)
    · exact Or.inr ⟨Or.inl hadded, Or.inl ((hkeeps _ (by simp [hreading])).trans hreading)⟩
    · exact Or.inr ⟨Or.inl hadded, Or.inr (hloaded ▸ hclaim)⟩

/-- **A module that has been read resolves its specifiers**, of which `todo` are left: the calls
for these have done nothing, and what the others have named is among the dependencies. The modules
in `base` waited before. -/
structure Resolving (busy : List String) (m : LoadedModule) (base : List Visit) (round : Round)
    (state : Run × Dict String String) (todo : List String) : Prop where
  mirrors : Mirrors busy round state.1
  fault?_eq : state.1.fault? = none
  quiet : round.Quiet
  mem : m ∈ round.loaded
  waiting : round.status m.call = .waiting
  keys_append : state.2.keys ++ todo = m.specifiers
  called : ∀ s ∈ todo, round.status (m.inner s) = .called
  claimed : ∃ added, state.1.pending = base ++ added ∧ round.Claimed m added state.2

namespace Resolving

variable {base : List Visit} {state : Run × Dict String String} {s : String} {todo : List String}

/-- A specifier that is left is new, and is left once. -/
theorem not_mem (h : Resolving busy m base round state (s :: todo))
    (hsound : round.Sound files r entries) : s ∉ state.2.keys ∧ s ∉ todo := by
  have hnodup := (hsound.reads.loaded m h.mem).2.2.2.nodup
  rw [← h.keys_append, List.nodup_append, List.nodup_cons] at hnodup
  exact ⟨fun hs => hnodup.2.2 s hs s List.mem_cons_self rfl, hnodup.2.1.1⟩

theorem mem_made (h : Resolving busy m base round state (s :: todo)) :
    m.inner s ∈ round.made := by
  refine mem_made_iff.2 (Or.inr ⟨m, h.mem, s, ?_, rfl⟩)
  rw [← h.keys_append]
  exact List.mem_append_right _ List.mem_cons_self

/-- Resolving one specifier is a step. -/
theorem step {resolution : Resolution} (h : Resolving busy m base round state (s :: todo))
    (hsound : round.Sound files r entries) (hres : r.resolve s m.url false = .ok resolution) :
    ∃ next, round.Step files r next ∧
      Resolving busy m base next (Run.claimNext r m.url state s) todo := by
  obtain ⟨hkey, hleft⟩ := h.not_mem hsound
  obtain ⟨hcalled, hothers⟩ := List.forall_mem_cons.1 h.called
  obtain ⟨next, more, hstep, hmirrors, hloaded, hother, hpending, hend⟩ :=
    h.mirrors.claim hsound.reads h.mem_made hcalled hres
  have hkeeps : round.Keeps next := by
    intro call hcall
    refine hother call ?_
    rintro rfl
    exact hcall hcalled
  refine ⟨next, hstep, ?_⟩
  rw [Run.claimNext_of_resolve hres]
  constructor
  · exact hmirrors
  · exact (Run.fault?_note ..).trans h.fault?_eq
  · exact hsound.quiet_of_keeps h.quiet hloaded hkeeps
  · exact hloaded ▸ h.mem
  · rw [hkeeps m.call (by simp [h.waiting]), h.waiting]
  · rw [← h.keys_append, Dict.keys_insert_of_not_mem hkey, List.append_assoc]
    rfl
  · intro s' hs'
    rw [hother, hothers s' hs']
    intro heq
    obtain rfl : s' = s := congrArg Call.specifier heq
    exact hleft hs'
  · obtain ⟨added, hp, hclaimed⟩ := h.claimed
    refine ⟨added ++ more, ?_, hclaimed.insert hend hloaded hkeeps⟩
    rw [← List.append_assoc, ← hp]
    exact hpending

/-- A specifier that names nothing lets the entry call fail. -/
theorem mayRaise {error : Error} (h : Resolving busy m base round state (s :: todo))
    (hsound : round.Sound files r entries) (hres : r.resolve s m.url false = .error error) :
    round.MayRaise files r error ∧ (Run.claimNext r m.url state s).1.fault? = some error := by
  have hcalled := h.called s List.mem_cons_self
  refine ⟨hsound.mayRaise_of_step h.quiet (Or.inl hcalled) h.mem_made
    (.unresolved h.mem_made hcalled hres), ?_⟩
  rw [Run.fst_claimNext, Run.claim, hres]
  simp [Run.fail, h.fault?_eq]

/-- **Resolving all specifiers that are left is some steps**, or a failure reaches the entry
call. -/
theorem steps (h : Resolving busy m base round state todo)
    (hsound : round.Sound files r entries) :
    (∃ next, ReflTransGen (Step files r) round next ∧
      Resolving busy m base next (todo.foldl (Run.claimNext r m.url) state) []) ∨
    ∃ error, round.MayRaise files r error ∧
      (todo.foldl (Run.claimNext r m.url) state).1.fault? = some error := by
  induction todo generalizing round state with
  | nil => exact Or.inl ⟨round, .refl, h⟩
  | cons s todo ih =>
      rw [List.foldl_cons]
      cases hres : r.resolve s m.url false with
      | error error =>
          obtain ⟨hraises, hfault⟩ := h.mayRaise hsound hres
          exact Or.inr ⟨error, hraises, fault?_foldl_claimNext_of_some hfault⟩
      | ok resolution =>
          obtain ⟨mid, hstep, hmid⟩ := h.step hsound hres
          rcases ih hmid (hsound.step hstep) with ⟨next, hsteps, hnext⟩ | ⟨error, hraises, hfault⟩
          · exact Or.inl ⟨next, .head hstep hsteps, hnext⟩
          · exact Or.inr ⟨error, hraises.of_steps (.single hstep), hfault⟩

end Resolving

/-! ### Closing modules -/

/-- The calls that an open module waits for have returned when the modules that it awaits are
closed: no other call can have read them. -/
theorem Mirrors.returned_of_closed {o : OpenModule} (hsound : round.Sound files r entries)
    (h : Mirrors busy round run) (hclosed : ∀ url ∈ o.awaited, url ∈ run.closed)
    (hcall : round.status call = .returned url ∨ url ∈ o.awaited ∧ round.Claims call url) :
    round.status call = .returned url := by
  rcases hcall with hreturned | ⟨hawaited, hclaims⟩
  · exact hreturned
  obtain ⟨m, hm, hurl, hreturned⟩ := h.closed url (hclosed url hawaited)
  rcases hclaims with hreading | ⟨m', hm', rfl, hurl'⟩
  · exact absurd (List.mem_map.2 ⟨m, hm, hurl⟩) (hsound.reads.reading call url hreading).2.2.2
  · rw [List.inj_on_of_nodup_map hsound.reads.nodup_loaded hm' hm (hurl'.trans hurl.symm)]
    exact hreturned

/-- Another open module has been read by another call. -/
theorem Mirrors.call_ne {o o' : OpenModule} {m' : LoadedModule}
    (hsound : round.Sound files r entries) (hm : m ∈ round.loaded) (hm' : m' ∈ round.loaded)
    (hurl : m.url = o.url) (hurl' : m'.url = o'.url) (hne : o'.url ≠ o.url) :
    m'.call ≠ m.call := by
  intro hcall
  rw [← hurl', ← hurl, hsound.reads.eq_of_call_eq hm hm' hcall] at hne
  exact hne rfl

/-- Closing an open module is a step. -/
theorem Mirrors.close {o : OpenModule} {os : List OpenModule}
    (hsound : round.Sound files r entries)
    (h : Mirrors [] round { run with opened := run.opened ++ o :: os })
    (hclosed : ∀ url ∈ o.awaited, url ∈ run.closed) :
    ∃ next, round.Step files r next ∧
      Mirrors [] next { run.settle o with opened := (run.settle o).opened ++ os } := by
  obtain ⟨m, hm, hurl, hwaiting, hkeys, hdeps⟩ := h.opened o (by simp)
  refine ⟨_, .close hm hwaiting hkeys fun s url hget =>
    h.returned_of_closed hsound hclosed (hdeps s url hget), ?_⟩
  rw [Run.settle_of_closed hclosed]
  -- Calls that do not wait are as they were.
  have hkeep : ∀ {other progress' session'}, round.status other = progress' →
      .waiting ≠ progress' → (({ round with session := session' } : Round).advance m.call
        (.returned m.url)).status other = progress' := by
    intro other progress' session' hother hne
    exact status_advance_of_status hother (by rwa [hwaiting])
  have hnodup : (o.url :: (run.opened ++ os).map OpenModule.url).Nodup := by
    have hperm := (@List.perm_middle _ o run.opened os).map OpenModule.url
    exact hperm.nodup_iff.1 h.nodup_opened
  obtain ⟨hnew, hrest⟩ := List.nodup_cons.1 hnodup
  constructor
  · simp only [session_advance, hurl]
    rw [h.session_eq]
  · exact h.seen_eq
  · exact h.reads_eq
  · intro v hv
    obtain ⟨call, hs, hp, hreading⟩ := h.pending v hv
    exact ⟨call, hs, hp, hkeep hreading (by simp)⟩
  · exact h.nodup_pending
  · intro o' ho'
    have hold : o' ∈ run.opened ++ o :: os := by
      rw [List.perm_middle.mem_iff]
      exact List.mem_cons_of_mem _ ho'
    obtain ⟨m', hm', hurl', hwaiting', hkeys', hdeps'⟩ := h.opened o' hold
    have hne : o'.url ≠ o.url := fun heq => hnew (List.mem_map.2 ⟨o', ho', heq⟩)
    refine ⟨m', hm', hurl', ?_, hkeys', fun s url hget => ?_⟩
    · rw [status_advance_of_ne (Mirrors.call_ne hsound hm hm' hurl hurl' hne)]
      exact hwaiting'
    · rcases hdeps' s url hget with hreturned | ⟨hawaited, hclaims⟩
      · exact Or.inl (hkeep hreturned (by simp))
      · exact Or.inr ⟨hawaited, hclaims.advance (by simp [hwaiting])⟩
  · exact hrest
  · intro url' hurl'
    rcases List.mem_append.1 hurl' with hold | hnew
    · obtain ⟨m', hm', heq, hreturned⟩ := h.closed url' hold
      exact ⟨m', hm', heq, hkeep hreturned (by simp)⟩
    · obtain rfl := List.mem_singleton.1 hnew
      exact ⟨m, hm, hurl, hurl ▸ status_advance_self⟩
  · intro m' hm'
    have := h.loaded m' hm'
    simp only [List.map_append, List.map_cons, List.mem_append, List.mem_cons, List.not_mem_nil,
      or_false, false_or] at this ⊢
    tauto
  · rw [entry_advance]
    by_cases heq : round.entry = m.call
    · exact Or.inr (Or.inl ⟨m.url, heq ▸ status_advance_self⟩)
    · rw [status_advance_of_ne heq]
      exact h.entry

theorem Mirrors.settle {o : OpenModule} {os : List OpenModule}
    (hsound : round.Sound files r entries)
    (h : Mirrors [] round { run with opened := run.opened ++ o :: os }) :
    ∃ next, ReflTransGen (Step files r) round next ∧
      Mirrors [] next { run.settle o with opened := (run.settle o).opened ++ os } := by
  by_cases hclosed : ∀ url ∈ o.awaited, url ∈ run.closed
  · obtain ⟨next, hstep, hnext⟩ := h.close hsound hclosed
    exact ⟨next, .single hstep, hnext⟩
  · refine ⟨round, .refl, ?_⟩
    rw [Run.settle_of_not_closed hclosed]
    simpa only [List.append_assoc, List.cons_append, List.nil_append] using h

theorem Sound.steps (h : round.Sound files r entries)
    (hsteps : ReflTransGen (Step files r) round next) : next.Sound files r entries := by
  induction hsteps with
  | refl => exact h
  | tail _ hstep ih => exact ih.step hstep

theorem Mirrors.foldl_settle {os : List OpenModule} (hsound : round.Sound files r entries)
    (h : Mirrors [] round { run with opened := run.opened ++ os }) :
    ∃ next, ReflTransGen (Step files r) round next ∧ Mirrors [] next (os.foldl Run.settle run) := by
  induction os generalizing round run with
  | nil =>
      rw [List.append_nil] at h
      exact ⟨round, .refl, h⟩
  | cons o os ih =>
      obtain ⟨mid, hsteps, hmid⟩ := h.settle hsound
      obtain ⟨next, hsteps', hnext⟩ := ih (hsound.steps hsteps) hmid
      exact ⟨next, hsteps.trans hsteps', hnext⟩

/-- Closing all modules that await nothing more is some steps. -/
theorem Mirrors.settleAll (hsound : round.Sound files r entries) (h : Mirrors [] round run) :
    ∃ next, ReflTransGen (Step files r) round next ∧ Mirrors [] next run.settleAll :=
  @Mirrors.foldl_settle files r entries round { run with opened := [] } run.opened hsound h

/-! ### One module -/

/-- The calls for the specifiers of a module that has not been read have done nothing. -/
theorem Sound.status_innerCall (h : round.Sound files r entries)
    (hnot : url ∉ round.loaded.map LoadedModule.url) (s : String) :
    round.status (innerCall url s) = .called := by
  by_contra hcalled
  rcases mem_made_iff.1 (h.orderly.mem_made _ hcalled) with heq | ⟨m, hm, s', -, heq⟩
  · have := h.orderly.isEntry
    rw [← heq] at this
    exact absurd this Bool.false_ne_true
  · exact hnot (List.mem_map.2 ⟨m, hm, (congrArg Call.parent heq).symm⟩)

theorem Mirrors.quiet (hsound : round.Sound files r entries) (h : Mirrors [] round run) :
    round.Quiet := by
  intro m hm error
  rcases (h.loaded m hm).resolve_left List.not_mem_nil with hclosed | hopened
  · obtain ⟨m', hm', hurl, hreturned⟩ := h.closed m.url hclosed
    rw [← List.inj_on_of_nodup_map hsound.reads.nodup_loaded hm' hm hurl] at hreturned ⊢
    simp [hreturned]
  · obtain ⟨o, ho, hurl⟩ := List.mem_map.1 hopened
    obtain ⟨m', hm', hurl', hwaiting, -⟩ := h.opened o ho
    rw [← List.inj_on_of_nodup_map hsound.reads.nodup_loaded hm' hm (hurl'.trans hurl)]
    simp [hwaiting]

/-- The round after a call has read its module and made the calls for the specifiers in it. -/
def afterLoad (round : Round) (m : LoadedModule) : Round :=
  ({ round with loaded := m :: round.loaded } : Round).advance m.call .waiting

theorem status_afterLoad_self : (round.afterLoad m).status m.call = .waiting := status_advance_self

theorem mem_loaded_afterLoad : m ∈ (round.afterLoad m).loaded := List.mem_cons_self

/-- Calls that read another module, or none, are as they were. -/
theorem status_afterLoad_of_status {progress' : Progress} (hother : round.status other = progress')
    (hcall : round.status m.call ≠ progress') : (round.afterLoad m).status other = progress' :=
  @status_advance_of_status { round with loaded := m :: round.loaded } _ _ _ _ hother hcall

/-- The calls for the specifiers of a module that has just been read have done nothing. -/
theorem Sound.status_inner_afterLoad (h : round.Sound files r entries)
    (hreading : round.status m.call = .reading m.url) (s : String) :
    (round.afterLoad m).status (m.inner s) = .called :=
  status_afterLoad_of_status (h.status_innerCall (h.reads.reading m.call m.url hreading).2.2.2 s)
    (by simp [hreading])

/-- Reading a module makes no call fail. -/
theorem Mirrors.quiet_afterLoad (hsound : round.Sound files r entries) (h : Mirrors [] round run)
    (hreading : round.status m.call = .reading m.url) : (round.afterLoad m).Quiet := by
  intro m' hm' error
  rcases List.mem_cons.1 hm' with rfl | hm'
  · simp [status_afterLoad_self]
  · rw [afterLoad, status_advance_of_ne (hsound.call_ne hm' (Or.inr ⟨_, hreading⟩))]
    exact h.quiet hsound m' hm' error

/-- A module that waited has been read, and is busy until its specifiers are resolved. -/
theorem Mirrors.load {v : Visit} {rest : List Visit} {specifiers : List String}
    (hsound : round.Sound files r entries) (h : Mirrors [] round run)
    (hp : run.pending = v :: rest) (hreading : round.status call = .reading v.url) :
    Mirrors [v.url] (round.afterLoad ⟨call, v.url, specifiers⟩)
      { run with pending := rest, reads := run.reads ++ [v.url] } := by
  have hkeep : ∀ {other progress'}, round.status other = progress' → .reading v.url ≠ progress' →
      (round.afterLoad ⟨call, v.url, specifiers⟩).status other = progress' := by
    intro other progress' hother hne
    exact status_afterLoad_of_status hother (hreading ▸ hne)
  have hunique : ∀ {other}, round.status other = .reading v.url → other = call :=
    fun hother => hsound.reads.reading_unique call _ v.url hreading hother
  have hnodup := h.nodup_pending
  rw [hp, List.map_cons, List.nodup_cons] at hnodup
  constructor
  · exact h.session_eq
  · exact h.seen_eq
  · simp only [afterLoad, loaded_advance, List.map_cons, List.reverse_cons, h.reads_eq]
  · intro v' hv'
    obtain ⟨other, hs, hparent, hother⟩ := h.pending v' (hp ▸ List.mem_cons_of_mem _ hv')
    refine ⟨other, hs, hparent, hkeep hother fun heq => ?_⟩
    exact hnodup.1 (Progress.reading.inj heq ▸ List.mem_map.2 ⟨v', hv', rfl⟩)
  · exact hnodup.2
  · intro o ho
    obtain ⟨m, hm, hurl, hwaiting, hkeys, hdeps⟩ := h.opened o ho
    refine ⟨m, List.mem_cons_of_mem _ hm, hurl, hkeep hwaiting (by simp), hkeys,
      fun s url hget => ?_⟩
    rcases hdeps s url hget with hreturned | ⟨hawaited, hother | ⟨m', hm', hclaim⟩⟩
    · exact Or.inl (hkeep hreturned (by simp))
    · refine Or.inr ⟨hawaited, ?_⟩
      by_cases heq : url = v.url
      · obtain rfl := heq
        exact Or.inr ⟨_, mem_loaded_afterLoad, (hunique hother).symm, rfl⟩
      · exact Or.inl (hkeep hother fun h => heq (Progress.reading.inj h).symm)
    · exact Or.inr ⟨hawaited, Or.inr ⟨m', List.mem_cons_of_mem _ hm', hclaim⟩⟩
  · exact h.nodup_opened
  · intro url hurl
    obtain ⟨m, hm, heq, hreturned⟩ := h.closed url hurl
    exact ⟨m, List.mem_cons_of_mem _ hm, heq, hkeep hreturned (by simp)⟩
  · intro m hm
    rcases List.mem_cons.1 hm with rfl | hm
    · exact Or.inl (List.mem_singleton.2 rfl)
    · exact Or.inr ((h.loaded m hm).resolve_left List.not_mem_nil)
  · -- The entry call may be the one that has read the module.
    rw [afterLoad, entry_advance]
    rcases h.entry with hcalled | ⟨url, hreturned⟩ | ⟨v', hv', hother⟩ | ⟨m, hm, heq⟩
    · exact Or.inl (hkeep hcalled (by simp))
    · exact Or.inr (Or.inl ⟨url, hkeep hreturned (by simp)⟩)
    · by_cases heq : v'.url = v.url
      · exact Or.inr (Or.inr (Or.inr ⟨_, mem_loaded_afterLoad, (hunique (heq ▸ hother)).symm⟩))
      · refine Or.inr (Or.inr (Or.inl ⟨v', ?_, hkeep hother fun h => heq ?_⟩))
        · exact (List.mem_cons.1 (hp ▸ hv')).resolve_left fun h => heq (congrArg Visit.url h)
        · exact (Progress.reading.inj h).symm
    · exact Or.inr (Or.inr (Or.inr ⟨m, List.mem_cons_of_mem _ hm, heq⟩))

/-- A module whose specifiers have been resolved is open. -/
theorem Mirrors.open {added : List Visit} {dependencies : Dict String String}
    (h : Mirrors [m.url] round run) (hm : m ∈ round.loaded)
    (hwaiting : round.status m.call = .waiting)
    (hnew : m.url ∉ run.opened.map OpenModule.url) (hkeys : dependencies.keys = m.specifiers)
    (hclaimed : round.Claimed m added dependencies) :
    Mirrors [] round { run with
      opened := ⟨m.url, dependencies, added.map Visit.url⟩ :: run.opened } where
  session_eq := h.session_eq
  seen_eq := h.seen_eq
  reads_eq := h.reads_eq
  pending := h.pending
  nodup_pending := h.nodup_pending
  opened := List.forall_mem_cons.2 ⟨⟨m, hm, rfl, hwaiting, hkeys, hclaimed⟩, h.opened⟩
  nodup_opened := List.nodup_cons.2 ⟨hnew, h.nodup_opened⟩
  closed := h.closed
  loaded := by
    intro m' hm'
    have := h.loaded m' hm'
    simp only [List.map_cons, List.mem_cons] at this ⊢
    tauto
  entry := h.entry

/-- A module that has just been read resolves all its specifiers. -/
theorem Mirrors.resolving {v : Visit} {rest : List Visit} {specifiers : List String}
    (hsound : round.Sound files r entries) (h : Mirrors [] round run) (hf : run.fault? = none)
    (hp : run.pending = v :: rest) (hreading : round.status call = .reading v.url) :
    Resolving [v.url] ⟨call, v.url, specifiers⟩ rest (round.afterLoad ⟨call, v.url, specifiers⟩)
      ({ run with pending := rest, reads := run.reads ++ [v.url] }, ∅) specifiers where
  mirrors := h.load hsound hp hreading
  fault?_eq := hf
  quiet := h.quiet_afterLoad hsound hreading
  mem := mem_loaded_afterLoad
  waiting := status_afterLoad_self
  keys_append := rfl
  called := fun s _ => hsound.status_inner_afterLoad hreading s
  claimed := ⟨[], (List.append_nil rest).symm, fun s url hget => absurd hget (by simp)⟩

/-- Reading a module and resolving its specifiers is some steps, after which it is open, or a
failure reaches the entry call. -/
theorem Mirrors.opening {v : Visit} {rest : List Visit} {specifiers : List String}
    (hsound : round.Sound files r entries) (h : Mirrors [] round run) (hf : run.fault? = none)
    (hp : run.pending = v :: rest) (hreading : round.status call = .reading v.url)
    (hread : readModule files ⟨call.specifier, call.parent, v.url⟩ = .ok specifiers) :
    (∃ next, ReflTransGen (Step files r) round next ∧
      Mirrors [] next (Run.opening r { run with pending := rest } v specifiers) ∧
      ∀ s ∈ specifiers, ∃ resolution, r.resolve s v.url false = .ok resolution) ∨
    ∃ error, round.MayRaise files r error ∧
      (({ run with pending := rest, reads := run.reads ++ [v.url] } : Run).claimAll r v.url
        specifiers).1.fault? = some error := by
  have hnot := (hsound.reads.reading call v.url hreading).2.2.2
  have hstep : round.Step files r (round.afterLoad ⟨call, v.url, specifiers⟩) :=
    .load hreading hread
  have hgrows := @Run.grows_foldl_claimNext r v.url specifiers
    ({ run with pending := rest, reads := run.reads ++ [v.url] }, ∅)
  rcases (h.resolving hsound hf hp hreading).steps (hsound.step hstep) with
    ⟨next, hsteps, hnext⟩ | ⟨error, hraises, hfault⟩
  · refine Or.inl ⟨next, .head hstep hsteps, ?_,
      (Run.fault?_foldl_claimNext_eq_none_iff.1 hnext.fault?_eq).2⟩
    have hnew : v.url ∉ (specifiers.foldl (Run.claimNext r v.url)
        ({ run with pending := rest, reads := run.reads ++ [v.url] }, ∅)).1.opened.map
          OpenModule.url := by
      rw [hgrows.opened_eq]
      intro hin
      obtain ⟨o, ho, hurl⟩ := List.mem_map.1 hin
      obtain ⟨m', hm', hmurl, -⟩ := h.opened o ho
      exact hnot (List.mem_map.2 ⟨m', hm', hmurl.trans hurl⟩)
    obtain ⟨added, hpending, hclaimed⟩ := hnext.claimed
    have hkeys := (List.append_nil _).symm.trans hnext.keys_append
    have hopen := hnext.mirrors.open hnext.mem hnext.waiting hnew hkeys hclaimed
    rw [Run.opening, Run.claimAll_eq_foldl]
    simp only at hpending hopen ⊢
    rw [hpending] at hopen ⊢
    rw [List.drop_left]
    exact hopen
  · exact Or.inr ⟨error, hraises.of_steps (.single hstep), hfault⟩

/-- **Reading a module is some steps**, or a failure reaches the entry call. -/
theorem Mirrors.visit {v : Visit} {rest : List Visit} (hsound : round.Sound files r entries)
    (h : Mirrors [] round run) (hf : run.fault? = none) (hp : run.pending = v :: rest) :
    (∃ next, ReflTransGen (Step files r) round next ∧
      Mirrors [] next (Run.visit files r { run with pending := rest } v) ∧
      (Run.visit files r { run with pending := rest } v).fault? = none) ∨
    ∃ error, round.MayRaise files r error ∧
      (Run.visit files r { run with pending := rest } v).fault? = some error := by
  obtain ⟨call, hs, hparent, hreading⟩ := h.pending v (hp ▸ List.mem_cons_self)
  have hvisit : (⟨call.specifier, call.parent, v.url⟩ : Visit) = v := by rw [hs, hparent]
  cases hread : readModule files v with
  | error error =>
      have hmem := hsound.orderly.mem_made call (by simp [hreading])
      refine Or.inr ⟨error, hsound.mayRaise_of_step (h.quiet hsound) (Or.inr ⟨_, hreading⟩) hmem
        (.unreadable hreading (hvisit ▸ hread)), ?_⟩
      rw [Run.visit, hread]
      simp [Run.fail, hf]
  | ok specifiers =>
      rcases h.opening hsound hf hp hreading (hvisit ▸ hread) with
        ⟨mid, hsteps, hmid, hres⟩ | ⟨error, hraises, hfault⟩
      · obtain ⟨next, hsteps', hnext⟩ := hmid.settleAll (hsound.steps hsteps)
        refine Or.inl ⟨next, hsteps.trans hsteps', ?_⟩
        have hf' : ({ run with pending := rest } : Run).fault? = none := hf
        rw [Run.visit_of_resolve hf' hread hres]
        refine ⟨hnext, ?_⟩
        rw [(Run.settles_settleAll _).fault?_eq, Run.opening, Run.claimAll_eq_foldl]
        exact Run.fault?_foldl_claimNext_eq_none_iff.2 ⟨hf, hres⟩
      · refine Or.inr ⟨error, hraises, ?_⟩
        rw [Run.visit, hread]
        simp only [hfault, Option.isSome_some, if_true]

/-! ### A whole run -/

/-- **Reading all modules that wait is some steps**, or a failure reaches the entry call. The
induction is on the modules that may still be read. -/
theorem Mirrors.explore {budget : Nat} (hsound : round.Sound files r entries)
    (h : Mirrors [] round run) (hf : run.fault? = none) :
    (∃ next, ReflTransGen (Step files r) round next ∧
      Mirrors [] next (Run.explore files r budget run) ∧
      (Run.explore files r budget run).fault? = none ∧
      ((Run.explore files r budget run).pending = [] ∨
        (Run.explore files r budget run).reads.length = run.reads.length + budget)) ∨
    ∃ error, round.MayRaise files r error ∧
      (Run.explore files r budget run).fault? = some error := by
  induction budget generalizing round run with
  | zero => exact Or.inl ⟨round, .refl, h, hf, Or.inr rfl⟩
  | succ budget ih =>
      cases hp : run.pending with
      | nil =>
          rw [Run.explore_of_pending_eq_nil hp]
          exact Or.inl ⟨round, .refl, h, hf, Or.inl hp⟩
      | cons v rest =>
          rw [Run.explore_succ files r hf hp]
          rcases h.visit hsound hf hp with
            ⟨mid, hsteps, hmid, hfault⟩ | ⟨error, hraises, hfault⟩
          · rcases ih (hsound.steps hsteps) hmid hfault with
              ⟨next, hsteps', hnext, hfault', hcount⟩ | ⟨error, hraises, hfault'⟩
            · refine Or.inl ⟨next, hsteps.trans hsteps', hnext, hfault', hcount.imp_right ?_⟩
              intro hlength
              rw [hlength, Run.reads_visit, List.length_append, List.length_singleton]
              exact Nat.add_right_comm run.reads.length 1 budget
            · exact Or.inr ⟨error, hraises.of_steps hsteps, hfault'⟩
          · refine Or.inr ⟨error, hraises, ?_⟩
            rw [Run.explore_of_fault?_eq_some hfault]
            exact hfault

/-! ### The round of an entry module -/

theorem status_ne_called_of_steps (h : ReflTransGen (Step files r) round next)
    (hcall : round.status call ≠ .called) : next.status call ≠ .called := by
  induction h with
  | refl => exact hcall
  | tail _ hstep ih => cases hstep <;> grind

theorem entry_eq_of_steps (h : ReflTransGen (Step files r) round next) :
    next.entry = round.entry := by
  induction h with
  | refl => rfl
  | tail _ hstep ih => exact hstep.grows.entry_eq.trans ih

theorem mirrors_start (session : Session) (call : Call) :
    Mirrors [] (start session call) (Run.start session []) := by
  constructor <;> simp [start, Run.start]

/-- When no module waits to be read and none is open, the entry call has returned. -/
theorem Mirrors.entry_returned (hsound : round.Sound files r entries) (h : Mirrors [] round run)
    (hpending : run.pending = []) (hopened : run.opened = [])
    (hcalled : round.status round.entry ≠ .called) :
    ∃ url, round.status round.entry = .returned url := by
  rcases h.entry with hentry | hreturned | ⟨v, hv, -⟩ | ⟨m, hm, heq⟩
  · exact absurd hentry hcalled
  · exact hreturned
  · rw [hpending] at hv
    exact absurd hv List.not_mem_nil
  · rcases (h.loaded m hm).resolve_left List.not_mem_nil with hclosed | hin
    · obtain ⟨m', hm', hurl, hreturned⟩ := h.closed m.url hclosed
      rw [List.inj_on_of_nodup_map hsound.reads.nodup_loaded hm' hm hurl, heq] at hreturned
      exact ⟨m.url, hreturned⟩
    · rw [hopened] at hin
      exact absurd hin List.not_mem_nil

/-- **The run of an entry module is some steps of its round**, unless it has read as many modules
as it may. -/
theorem exists_steps_traceFrom {session : Session} {e : String} {budget : Nat}
    (hsound : (start session (r.entryCall e)).Sound files r entries)
    (hsession : session.Sound files r) :
    ∃ next, ReflTransGen (Step files r) (start session (r.entryCall e)) next ∧
      ((∃ url url', (session.traceFrom files r budget e r.base none) = (.ok url, next.session) ∧
          next.status next.entry = .returned url') ∨
        (∃ error, (session.traceFrom files r budget e r.base none).1 = .error error ∧
          next.status next.entry = .raised error) ∨
        (session.traceFrom files r budget e r.base none).1 = .error .budgetExhausted ∧
          budget ≤ next.loaded.length) := by
  have hmem : r.entryCall e ∈ (start session (r.entryCall e)).made := mem_made_iff.2 (Or.inl rfl)
  cases hres : r.resolve e r.base true with
  | error error =>
      refine ⟨_, .single (.unresolved hmem rfl hres), Or.inr (Or.inl ⟨error, ?_, ?_⟩)⟩
      · rw [Session.traceFrom]
        simp only [Option.getD_none, Option.isNone_none, Run.claim, hres]
        rw [@Run.explore_of_fault?_eq_some _ files r error rfl]
        rfl
      · exact status_advance_self
  | ok resolution =>
      obtain ⟨first, added, hstep, hfirst, -, -, -, hcalled⟩ :=
        (mirrors_start session (r.entryCall e)).claim hsound.reads hmem rfl hres
      replace hfirst : Mirrors [] first (session.entered r e resolution) := hfirst
      have hentry : first.entry = r.entryCall e := hstep.grows.entry_eq
      have hne : first.status first.entry ≠ .called := by
        rw [hentry]
        rcases hcalled with h | ⟨h, -⟩ <;> simp [h]
      have hfault : (session.entered r e resolution).fault? = none := Run.fault?_note ..
      have hgrows := @Run.grows_claim r true (Run.start session []) e r.base
      rw [Run.claim_of_resolve hres] at hgrows
      have hreads : (session.entered r e resolution).reads = [] := hgrows.reads_eq
      obtain ⟨htended, -, hopened⟩ := Session.tended_entered hsession hres
      rw [Session.traceFrom_of_resolve hres]
      rcases @Mirrors.explore files r entries first _ budget (hsound.step hstep) hfirst hfault with
        ⟨next, hsteps, hnext, hnone, hcount⟩ | ⟨error, ⟨next, hsteps, hend⟩, hsome⟩
      · refine ⟨next, .head hstep hsteps, ?_⟩
        have hnextSound := (hsound.step hstep).steps hsteps
        cases hpending : ((session.entered r e resolution).explore files r budget).pending with
        | nil =>
            have hnil := (Run.tended_explore htended (fun _ => hopened) hnone).2.2 hpending
            have hcalled' := status_ne_called_of_steps hsteps hne
            rw [← entry_eq_of_steps hsteps] at hcalled'
            obtain ⟨url, hurl⟩ := hnext.entry_returned hnextSound hpending hnil hcalled'
            refine Or.inl ⟨resolution.url, url, ?_, hurl⟩
            rw [Run.outcome_eq_ok_iff.2 ⟨hnone, hpending, rfl⟩, hnext.session_eq]
        | cons v rest =>
            refine Or.inr (Or.inr ⟨?_, ?_⟩)
            · simp only [Run.outcome, hnone, hpending]
            · rw [hpending, hreads, ← hnext.reads_eq] at hcount
              have hlength := hcount.resolve_left (by simp)
              simp only [List.length_reverse, List.length_map, List.length_nil] at hlength
              omega
      · refine ⟨next, .head hstep hsteps, Or.inr (Or.inl ⟨error, ?_, hend⟩)⟩
        simp only [Run.outcome, hsome]

end Round

/-! ### Several entry modules -/

theorem Session.Sound.traceFrom {files : FileTree} {r : Resolver} {session : Session}
    {e url : String} {budget : Nat} (h : session.Sound files r)
    (hok : (session.traceFrom files r budget e r.base none).1 = .ok url) :
    (session.traceFrom files r budget e r.base none).2.Sound files r := by
  obtain ⟨resolution, hres, -, hfault, hpending⟩ := Session.traceFrom_eq_ok hok
  rw [Session.traceFrom_of_resolve hres]
  exact (Session.sound_traceFrom h hres hfault hpending).1

namespace Tracing

variable {files : FileTree} {r : Resolver} {entries : List String}

/-- The steps of a round are steps of the tracing that it is part of. -/
theorem steps_go {state : Tracing} {round next : Round} (hround : state.round? = some round)
    (h : ReflTransGen (Round.Step files r) round next) :
    ReflTransGen (Step files r) state { state with round? := some next } := by
  induction h with
  | refl => rw [← hround]
  | tail _ hstep ih => exact ih.tail (.go rfl hstep)

theorem Sound.steps {state next : Tracing} (h : state.Sound files r entries)
    (hsteps : ReflTransGen (Step files r) state next) : next.Sound files r entries := by
  induction hsteps with
  | refl => exact h
  | tail _ hstep ih => exact ih.step hstep

/-- **Tracing entry modules is a schedule**, which ends as they do, unless a run has read as many
modules as it may. The induction is on the entry modules. -/
theorem exists_steps_traceAll {session : Session} {listed : List String}
    {done : List (String × List String)} {budget : Nat}
    (hsound : (⟨session, listed, none, done⟩ : Tracing).Sound files r entries)
    (hsession : session.Sound files r) :
    (∃ state, ReflTransGen (Step files r) ⟨session, listed, none, done⟩ state ∧
      ((state.Succeeded ∧ session.traceAll files r budget listed = (.ok (), state.session)) ∨
        ∃ error, state.Failed error ∧
          (session.traceAll files r budget listed).1 = .error error)) ∨
      (session.traceAll files r budget listed).1 = .error .budgetExhausted ∧
        ∃ round : Round, round.Sound files r entries ∧ budget ≤ round.loaded.length := by
  induction listed generalizing session done with
  | nil => exact Or.inl ⟨_, .refl, Or.inl ⟨⟨rfl, rfl⟩, rfl⟩⟩
  | cons e listed ih =>
      have henter : Step files r ⟨session, e :: listed, none, done⟩
          ⟨session, listed, some (.start session (r.entryCall e)), done⟩ := .enter rfl rfl
      have hround := ((hsound.step henter).round _ rfl).1
      obtain ⟨next, hsteps, hend⟩ :=
        @Round.exists_steps_traceFrom files r entries session e budget hround hsession
      have hgo : ReflTransGen (Step files r) ⟨session, e :: listed, none, done⟩
          ⟨session, listed, some next, done⟩ := .head henter (steps_go rfl hsteps)
      have hnext := ((hsound.steps hgo).round _ rfl).1
      rw [Session.traceAll]
      cases hfrom : session.traceFrom files r budget e r.base none with
      | mk outcome session' =>
        rw [hfrom] at hend
        rcases hend with ⟨url, url', hok, hreturned⟩ | ⟨error, herror, hraised⟩ | ⟨hover, hbudget⟩
        · obtain ⟨rfl, rfl⟩ := Prod.mk.inj hok
          have hleave := hgo.tail (.leave rfl hreturned)
          have hrest := ih (hsound.steps hleave) (by
            have := hsession.traceFrom (congrArg Prod.fst hfrom)
            rwa [hfrom] at this)
          refine hrest.imp_left ?_
          rintro ⟨state, hsteps', hstate⟩
          exact ⟨state, hleave.trans hsteps', hstate⟩
        · obtain rfl : outcome = .error error := herror
          exact Or.inl ⟨_, hgo, Or.inr ⟨error, ⟨next, rfl, hraised⟩, rfl⟩⟩
        · obtain rfl : outcome = .error .budgetExhausted := hover
          exact Or.inr ⟨rfl, next, hnext, hbudget⟩

end Tracing

end ImportAtlas
