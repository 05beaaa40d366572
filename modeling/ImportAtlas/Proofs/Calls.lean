import Mathlib.Data.List.Induction
import ImportAtlas.Trace.Run
import ImportAtlas.Proofs.Sufficiency

/-!
# Calls on one resolver

A session answers calls one after another and notes the entries that they went through. The map of
these entries answers every call that succeeded as the whole map did: an entry that is noted later
is one of the whole map, too, so it never stands in front of the entry that decided.

## Main results

* `Session.Answered.step`, `Session.answered_afterCalls`: what holds of a session while it answers.
* `Session.calls_replay`: the map of the entries that were used answers alike.
-/

namespace ImportAtlas

/-- A specifier that is to be resolved in a module. -/
structure Call where
  /-- The specifier. -/
  specifier : String
  /-- The module. -/
  parent : String
  /-- Whether the specifier names an entry module. -/
  isEntry : Bool
  deriving DecidableEq, Inhabited

/-- A call that has a resolution goes through an entry. -/
def Resolver.GoesThrough (r : Resolver) (call : Call) (entry : MapEntry) : Prop :=
  ∃ resolution, r.resolve call.specifier call.parent call.isEntry = .ok resolution ∧
    resolution.entry? = some entry

namespace Session

/-- The answer to a call, and what has been found after it. -/
def answer (r : Resolver) (session : Session) (call : Call) : Except Error String × Session :=
  session.resolve r call.specifier call.parent call.isEntry

/-- What has been found after several calls. -/
def afterCalls (r : Resolver) (session : Session) (calls : List Call) : Session :=
  calls.foldl (fun session call => (session.answer r call).2) session

/-- One of several calls was answered with a URL when its turn came. -/
def Succeeds (r : Resolver) (calls : List Call) (call : Call) (url : String) : Prop :=
  ∃ before after, calls = before ++ call :: after ∧
    ((empty.afterCalls r before).answer r call).1 = .ok url

variable {r : Resolver} {session : Session} {calls : List Call} {call : Call} {url : String}

/-! ### One call -/

theorem answer_of_resolve {resolution : Resolution}
    (h : r.resolve call.specifier call.parent call.isEntry = .ok resolution) :
    session.answer r call =
      (.ok resolution.url, { session with used := session.used.record resolution }) := by
  rw [answer, resolve, h]

/-- A call is answered with a URL when it has a resolution there. -/
theorem answer_eq_ok_iff :
    (session.answer r call).1 = .ok url ↔
      ∃ resolution, r.resolve call.specifier call.parent call.isEntry = .ok resolution ∧
        resolution.url = url := by
  cases h : r.resolve call.specifier call.parent call.isEntry with
  | error e => simp [answer, resolve, h]
  | ok resolution => simp [answer_of_resolve h]

/-- A call that fails leaves the session as it was. -/
theorem answer_of_error {error : Error} (h : (session.answer r call).1 = .error error) :
    (session.answer r call).2 = session := by
  cases hres : r.resolve call.specifier call.parent call.isEntry with
  | error e => rw [answer, resolve, hres]
  | ok resolution =>
      rw [answer_of_resolve hres] at h
      exact absurd h (by simp)

/-! ### Several calls -/

@[simp] theorem afterCalls_nil : session.afterCalls r [] = session := rfl

theorem afterCalls_concat :
    session.afterCalls r (calls ++ [call]) = ((session.afterCalls r calls).answer r call).2 := by
  rw [afterCalls, List.foldl_concat]
  rfl

theorem succeeds_concat_iff {other : Call} :
    Succeeds r (calls ++ [call]) other url ↔ Succeeds r calls other url ∨
      other = call ∧ ((empty.afterCalls r calls).answer r call).1 = .ok url := by
  constructor
  · rintro ⟨before, after, heq, hok⟩
    rcases List.eq_nil_or_concat' after with rfl | ⟨after, last, rfl⟩
    · obtain ⟨rfl, hcall⟩ := List.append_inj' heq rfl
      obtain rfl := List.singleton_inj.1 hcall
      exact Or.inr ⟨rfl, hok⟩
    · rw [← List.cons_append, ← List.append_assoc] at heq
      exact Or.inl ⟨before, after, (List.append_inj' heq rfl).1, hok⟩
  · rintro (⟨before, after, rfl, hok⟩ | ⟨rfl, hok⟩)
    · exact ⟨before, after ++ [call], by simp, hok⟩
    · exact ⟨calls, [], rfl, hok⟩

/-- **What is true of a session that has answered calls.** -/
structure Answered (r : Resolver) (calls : List Call) (session : Session) : Prop where
  /-- All entries are entries of the resolver's map. -/
  within : session.used.Within r
  /-- A call that succeeded has a resolution, and its entry is noted. -/
  noted : ∀ call url, Succeeds r calls call url →
    ∃ resolution, r.resolve call.specifier call.parent call.isEntry = .ok resolution ∧
      resolution.url = url ∧ session.used.Accounts resolution
  /-- Every entry that is noted decided about a call that succeeded. -/
  matched : ∀ entry, session.used.Has entry →
    ∃ call url, Succeeds r calls call url ∧ r.GoesThrough call entry

theorem answered_empty (r : Resolver) : Answered r [] empty where
  within := ImportMap.within_empty r
  noted := by
    rintro call url ⟨before, after, heq, -⟩
    exact absurd heq (by simp)
  matched := by
    intro entry he
    obtain ⟨scope?, key, target⟩ := entry
    replace he : Dict.get? ∅ key = some target := by cases scope? <;> exact he
    exact absurd he (by simp)

/-- **Answering one more call keeps the invariant.** -/
theorem Answered.step (h : Answered r calls (empty.afterCalls r calls)) (call : Call) :
    Answered r (calls ++ [call]) (empty.afterCalls r (calls ++ [call])) := by
  rw [afterCalls_concat]
  cases hres : r.resolve call.specifier call.parent call.isEntry with
  | error e =>
      have hfail : ((empty.afterCalls r calls).answer r call).1 = .error e := by
        rw [answer, resolve, hres]
      rw [answer_of_error hfail]
      refine ⟨h.within, fun other url hok => ?_, fun entry he => ?_⟩
      · rcases succeeds_concat_iff.1 hok with hold | ⟨rfl, hnew⟩
        · exact h.noted other url hold
        · rw [hfail] at hnew
          exact absurd hnew (by simp)
      · obtain ⟨other, url, hok, hthrough⟩ := h.matched entry he
        exact ⟨other, url, succeeds_concat_iff.2 (Or.inl hok), hthrough⟩
  | ok resolution =>
      have hanswer := @answer_of_resolve r (empty.afterCalls r calls) call resolution hres
      have hlast : Succeeds r (calls ++ [call]) call resolution.url :=
        succeeds_concat_iff.2 (Or.inr ⟨rfl, by rw [hanswer]⟩)
      rw [hanswer]
      refine ⟨h.within.record hres, fun other url hok => ?_, fun entry he => ?_⟩
      · rcases succeeds_concat_iff.1 hok with hold | ⟨rfl, hnew⟩
        · obtain ⟨resolution', hres', hurl, hacc⟩ := h.noted other url hold
          exact ⟨resolution', hres', hurl, fun entry he =>
            ImportMap.has_record h.within hres (hacc entry he)⟩
        · rw [hanswer] at hnew
          exact ⟨resolution, hres, Except.ok.inj hnew, ImportMap.accounts_record _ resolution⟩
      · by_cases hold : (empty.afterCalls r calls).used.Has entry
        · obtain ⟨other, url, hok, hthrough⟩ := h.matched entry hold
          exact ⟨other, url, succeeds_concat_iff.2 (Or.inl hok), hthrough⟩
        · -- An entry that is new is the one that this call has gone through.
          have hentry : resolution.entry? = some entry := by
            simp only [ImportMap.record] at he
            split at he
            · rename_i entry' he'
              rw [(ImportMap.has_of_has_addEntry he).resolve_right hold]
              exact he'
            · exact absurd he hold
          exact ⟨call, resolution.url, hlast, resolution, hres, hentry⟩

/-- **The invariant holds after any calls.** The induction is on the calls, the latest one last. -/
theorem answered_afterCalls (r : Resolver) (calls : List Call) :
    Answered r calls (empty.afterCalls r calls) := by
  induction calls using List.reverseRecOn with
  | nil => exact answered_empty r
  | append_singleton calls call ih => exact ih.step call

/-- **The entries that were used replay the session.** After any calls on a map, the map of the
entries that were used can be resolved through at the same place; it answers every call that
succeeded with the same URL, whatever has been asked of it before; each of its entries is an entry
of the whole map that decided about a call that succeeded; and a call that failed has added
nothing. -/
theorem calls_replay {map : ImportMap} {base : String} {relativeFallback : Bool}
    (h : Resolver.make map base relativeFallback = .ok r) (calls : List Call) :
    (∃ r', Resolver.make (empty.afterCalls r calls).used base relativeFallback = .ok r' ∧
      ∀ call url, Succeeds r calls call url →
        ∀ session : Session, (session.answer r' call).1 = .ok url) ∧
    (∀ entry, (empty.afterCalls r calls).used.Has entry → map.Has entry ∧
      ∃ call url, Succeeds r calls call url ∧ r.GoesThrough call entry) ∧
    ∀ before call after, calls = before ++ call :: after →
      ∀ error, ((empty.afterCalls r before).answer r call).1 = .error error →
        (empty.afterCalls r (before ++ [call])).used = (empty.afterCalls r before).used := by
  have hanswered := answered_afterCalls r calls
  obtain ⟨r', h'⟩ := Resolver.exists_make_of_within h hanswered.within
  refine ⟨⟨r', h', fun call url hok session => ?_⟩, fun entry he => ⟨?_, ?_⟩, ?_⟩
  · obtain ⟨resolution, hres, rfl, hacc⟩ := hanswered.noted call url hok
    have hsame := Resolver.url?_eq_of_has h hanswered.within h' hres hacc
    obtain ⟨resolution', hres', hurl⟩ := Resolver.url?_eq_some_iff.1
      (hsame.trans (Resolver.url?_eq_some_iff.2 ⟨resolution, hres, rfl⟩))
    exact answer_eq_ok_iff.2 ⟨resolution', hres', hurl⟩
  · rw [← Resolver.map_of_make h]
    exact hanswered.within.has entry he
  · exact hanswered.matched entry he
  · rintro before call after - error herror
    rw [afterCalls_concat, answer_of_error herror]

/-- A map with a scope in a scope; two of its prefixes denote one place. -/
def nestedScopes : ImportMap :=
  ⟨Dict.ofList [("a/", "./x/"), ("b", "./b.js")],
    Dict.ofList [("s/", Dict.ofList [("a/", "./w/")]),
      ("./s/", Dict.ofList [("a/", "./y/"), ("c/", "./c.js")]),
      ("./s/t/", Dict.ofList [("a", "./z.js")])]⟩

/-- The map in a folder. -/
def nestedResolver : Resolver :=
  ⟨nestedScopes, "file:///p/", true,
    Dict.ofList [("file:///p/s/", "./s/"), ("file:///p/s/t/", "./s/t/")]⟩

/-- Calls from three folders; the second one fails, since its target is no folder. -/
def nestedCalls : List Call := [
  ⟨"a/m.js", "file:///p/s/t/k.js", false⟩, ⟨"c/m.js", "file:///p/s/k.js", false⟩,
  ⟨"a/m.js", "file:///p/k.js", false⟩, ⟨"q.js", "file:///p/", true⟩]

/-- The entries that the calls went through lead to the same modules. -/
theorem calls_replay_nestedScopes :
    Resolver.make nestedScopes "file:///p/" true = .ok nestedResolver ∧
      ∃ r', Resolver.make (empty.afterCalls nestedResolver nestedCalls).used "file:///p/" true =
          .ok r' ∧
        (empty.answer r' ⟨"a/m.js", "file:///p/s/t/k.js", false⟩).1 = .ok "file:///p/y/m.js" ∧
        (empty.answer r' ⟨"a/m.js", "file:///p/k.js", false⟩).1 = .ok "file:///p/x/m.js" ∧
        (empty.answer r' ⟨"q.js", "file:///p/", true⟩).1 = .ok "file:///p/q.js" := by
  have hmake : Resolver.make nestedScopes "file:///p/" true = .ok nestedResolver :=
    Resolver.make_eq_ok_iff.2 ⟨[("file:///p/s/", "s/"), ("file:///p/s/", "./s/"),
      ("file:///p/s/t/", "./s/t/")], Resolver.eq_ok_of_toOption (by decide +kernel), rfl⟩
  obtain ⟨⟨r', h', hreplay⟩, -⟩ := calls_replay hmake nestedCalls
  refine ⟨hmake, r', h', hreplay _ _ ?_ _, hreplay _ _ ?_ _, hreplay _ _ ?_ _⟩
  · exact ⟨[], _, rfl, Resolver.eq_ok_of_toOption (by decide +kernel)⟩
  · exact ⟨nestedCalls.take 2, _, rfl, Resolver.eq_ok_of_toOption (by decide +kernel)⟩
  · exact ⟨nestedCalls.take 3, _, rfl, Resolver.eq_ok_of_toOption (by decide +kernel)⟩

end Session

end ImportAtlas
