import Mathlib.Logic.Function.Basic
import Mathlib.Logic.Relation
import ImportAtlas.Proofs.Reachability

/-!
# Concurrent calls

The calls for the specifiers of a module run concurrently, and so do the calls that these make.
Each resolves its specifier, reads the module unless another call has named it before, makes the
calls for the specifiers found there, and returns when these have returned. A schedule is any order
in which calls proceed; between two points at which it waits, a call runs undisturbed. The entry
modules take turns.

## Summary

* `Progress` tells how far a call has come, `Round` is the state of the calls for one entry module.
* `Round.Step` lets one call proceed.
* `Tracing` is the state of tracing several entry modules, `Tracing.Step` its steps.
-/

namespace ImportAtlas

/-- How far a call has come. -/
inductive Progress where
  /-- It has been made and has done nothing. -/
  | called
  /-- It is the first to name a module on disk, which is being read. -/
  | reading (url : String)
  /-- Its module has been read, and the calls for the specifiers found there have been made. -/
  | waiting
  /-- It has returned a module. -/
  | returned (url : String)
  /-- It has failed. -/
  | raised (error : Error)

/-- A module that has been read. -/
structure LoadedModule where
  /-- The call that read it. -/
  call : Call
  /-- The module. -/
  url : String
  /-- The specifiers that were found in it. -/
  specifiers : List String

/-- The call for a specifier of a module that has been read. -/
def LoadedModule.inner (m : LoadedModule) (specifier : String) : Call := innerCall m.url specifier

/-- The session after a specifier was resolved. -/
def Session.note (session : Session) (resolution : Resolution) : Session :=
  { session with used := session.used.record resolution }

/-- The state of the calls for one entry module. -/
structure Round where
  /-- The call for the entry module. -/
  entry : Call
  /-- What has been found, in this round and before. -/
  session : Session
  /-- The modules that have been named in this round. -/
  seen : List String
  /-- How far every call has come. -/
  status : Call → Progress
  /-- The modules that have been read in this round, latest first. -/
  loaded : List LoadedModule

namespace Round

/-- The round that begins with the call for an entry module. -/
def start (session : Session) (entry : Call) : Round := ⟨entry, session, [], fun _ => .called, []⟩

/-- The calls that have been made: the one for the entry module and those for the specifiers of
the modules that have been read. -/
def made (round : Round) : List Call :=
  round.entry :: round.loaded.flatMap fun m => m.specifiers.map m.inner

/-- The round after one call has come further. -/
def advance (round : Round) (call : Call) (progress : Progress) : Round :=
  { round with status := Function.update round.status call progress }

/-- **One call proceeds.** -/
inductive Step (files : FileTree) (r : Resolver) (round : Round) : Round → Prop
  /-- Its specifier names nothing. -/
  | unresolved {call : Call} {error : Error} (mem : call ∈ round.made)
      (called : round.status call = .called)
      (resolve_eq : r.resolve call.specifier call.parent call.isEntry = .error error) :
      Step files r round (round.advance call (.raised error))
  /-- Its module has been named before. -/
  | again {call : Call} {resolution : Resolution} (mem : call ∈ round.made)
      (called : round.status call = .called)
      (resolve_eq : r.resolve call.specifier call.parent call.isEntry = .ok resolution)
      (seen : resolution.url ∈ round.seen) :
      Step files r round
        ({ round with session := round.session.note resolution }.advance call
          (.returned resolution.url))
  /-- Its module is named for the first time and is not on disk. -/
  | elsewhere {call : Call} {resolution : Resolution} (mem : call ∈ round.made)
      (called : round.status call = .called)
      (resolve_eq : r.resolve call.specifier call.parent call.isEntry = .ok resolution)
      (unseen : resolution.url ∉ round.seen) (isFileUrl_eq : isFileUrl resolution.url = false) :
      Step files r round
        ({ round with
            session := round.session.note resolution
            seen := round.seen ++ [resolution.url] }.advance call (.returned resolution.url))
  /-- Its module is named for the first time and is on disk. -/
  | begin {call : Call} {resolution : Resolution} (mem : call ∈ round.made)
      (called : round.status call = .called)
      (resolve_eq : r.resolve call.specifier call.parent call.isEntry = .ok resolution)
      (unseen : resolution.url ∉ round.seen) (isFileUrl_eq : isFileUrl resolution.url = true) :
      Step files r round
        ({ round with
            session := { round.session.note resolution with
              found := round.session.found ++ [resolution.url] }
            seen := round.seen ++ [resolution.url] }.advance call (.reading resolution.url))
  /-- Its module cannot be read or analyzed. -/
  | unreadable {call : Call} {url : String} {error : Error}
      (reading : round.status call = .reading url)
      (readModule_eq : readModule files ⟨call.specifier, call.parent, url⟩ = .error error) :
      Step files r round (round.advance call (.raised error))
  /-- Its module has been read, and it makes the calls for the specifiers found there. -/
  | load {call : Call} {url : String} {specifiers : List String}
      (reading : round.status call = .reading url)
      (readModule_eq : readModule files ⟨call.specifier, call.parent, url⟩ = .ok specifiers) :
      Step files r round
        ({ round with loaded := ⟨call, url, specifiers⟩ :: round.loaded }.advance call .waiting)
  /-- The calls that it made have returned, and it traces its module. -/
  | close {m : LoadedModule} {dependencies : Dict String String} (mem : m ∈ round.loaded)
      (waiting : round.status m.call = .waiting) (keys_eq : dependencies.keys = m.specifiers)
      (returned : ∀ s url, dependencies.get? s = some url →
        round.status (m.inner s) = .returned url) :
      Step files r round
        ({ round with session := { round.session with
            trace := round.session.trace.insert m.url dependencies } }.advance m.call
          (.returned m.url))
  /-- A call that it made has failed. -/
  | fail {m : LoadedModule} {s : String} {error : Error} (mem : m ∈ round.loaded)
      (waiting : round.status m.call = .waiting) (mem_specifiers : s ∈ m.specifiers)
      (raised : round.status (m.inner s) = .raised error) :
      Step files r round (round.advance m.call (.raised error))

end Round

/-- The state of tracing several entry modules, one round each. -/
structure Tracing where
  /-- What has been found, except in a round that is under way. -/
  session : Session
  /-- The entry modules whose rounds have not begun. -/
  waiting : List String
  /-- The round that is under way. -/
  round? : Option Round
  /-- The entry modules that have been traced, with the modules that were read for them. -/
  done : List (String × List String)

namespace Tracing

/-- Nothing has been traced. -/
def start (entries : List String) : Tracing := ⟨.empty, entries, none, []⟩

/-- A round begins, proceeds or ends. -/
inductive Step (files : FileTree) (r : Resolver) (tracing : Tracing) : Tracing → Prop
  | enter {e : String} {more : List String} (round?_eq : tracing.round? = none)
      (waiting_eq : tracing.waiting = e :: more) :
      Step files r tracing { tracing with
        waiting := more
        round? := some (.start tracing.session (r.entryCall e)) }
  | go {round next : Round} (round?_eq : tracing.round? = some round)
      (step : round.Step files r next) : Step files r tracing { tracing with round? := some next }
  | leave {round : Round} {url : String} (round?_eq : tracing.round? = some round)
      (returned : round.status round.entry = .returned url) :
      Step files r tracing { tracing with
        session := round.session
        round? := none
        done := tracing.done ++
          [(round.entry.specifier, (round.loaded.map LoadedModule.url).reverse)] }

/-- All entry modules have been traced. -/
def Succeeded (tracing : Tracing) : Prop := tracing.round? = none ∧ tracing.waiting = []

/-- The call for an entry module has failed. -/
def Failed (tracing : Tracing) (error : Error) : Prop :=
  ∃ round, tracing.round? = some round ∧ round.status round.entry = .raised error

end Tracing

/-! ### What a step leaves alone -/

namespace Round

variable {files : FileTree} {r : Resolver} {round next : Round} {call other : Call}
  {progress : Progress}

@[simp, grind =] theorem entry_advance : (round.advance call progress).entry = round.entry := rfl

@[simp, grind =] theorem session_advance :
    (round.advance call progress).session = round.session := rfl

@[simp, grind =] theorem seen_advance : (round.advance call progress).seen = round.seen := rfl

@[simp, grind =] theorem loaded_advance : (round.advance call progress).loaded = round.loaded := rfl

@[grind =] theorem status_advance : (round.advance call progress).status other =
    if other = call then progress else round.status other :=
  Function.update_apply ..

@[simp] theorem status_advance_self : (round.advance call progress).status call = progress :=
  Function.update_self ..

theorem status_advance_of_ne (h : other ≠ call) :
    (round.advance call progress).status other = round.status other :=
  Function.update_of_ne h ..

/-- A call that is not where the one that proceeds has been stays as it was. -/
theorem status_advance_of_status {progress' : Progress} (hother : round.status other = progress')
    (hcall : round.status call ≠ progress') :
    (round.advance call progress).status other = progress' := by
  rw [status_advance_of_ne, hother]
  rintro rfl
  exact hcall hother

theorem mem_made_iff : call ∈ round.made ↔
    call = round.entry ∨ ∃ m ∈ round.loaded, ∃ s ∈ m.specifiers, call = m.inner s := by
  simp only [made, List.mem_cons, List.mem_flatMap, List.mem_map, eq_comm]

/-- What a step leaves alone: a round keeps its entry module, nothing that was named, read or
traced is lost, and calls that have ended do not go on. -/
structure Grows (round next : Round) : Prop where
  entry_eq : next.entry = round.entry
  seen_subset : round.seen ⊆ next.seen
  loaded_subset : round.loaded ⊆ next.loaded
  keys_subset : round.session.trace.keys ⊆ next.session.trace.keys
  returned : ∀ call url, round.status call = .returned url → next.status call = .returned url
  raised : ∀ call error, round.status call = .raised error → next.status call = .raised error

theorem Step.grows (h : round.Step files r next) : Grows round next := by
  cases h with
  | unresolved | again | unreadable | fail =>
      exact ⟨rfl, List.Subset.refl _, List.Subset.refl _, List.Subset.refl _, by grind, by grind⟩
  | elsewhere | begin =>
      exact ⟨rfl, List.subset_append_left _ _, List.Subset.refl _, List.Subset.refl _, by grind,
        by grind⟩
  | load =>
      exact ⟨rfl, List.Subset.refl _, List.subset_cons_self _ _, List.Subset.refl _, by grind,
        by grind⟩
  | close =>
      exact ⟨rfl, List.Subset.refl _, List.Subset.refl _,
        fun url hurl => Dict.mem_keys_insert.2 (Or.inr hurl), by grind, by grind⟩

theorem Grows.made_subset (h : Grows round next) : round.made ⊆ next.made := by
  intro call hcall
  rcases mem_made_iff.1 hcall with rfl | ⟨m, hm, hs⟩
  · exact mem_made_iff.2 (Or.inl h.entry_eq.symm)
  · exact mem_made_iff.2 (Or.inr ⟨m, h.loaded_subset hm, hs⟩)

end Round

end ImportAtlas
