import Mathlib.Data.Set.Finite.Basic
import Mathlib.Data.List.Dedup
import ImportAtlas.Proofs.Calls
import ImportAtlas.Proofs.Tracing

/-!
# What entry modules lead to

A call leads to the module that its specifier names. If that module is on disk, it leads on to the
modules that the specifiers found in it name. Nothing here depends on the order in which calls are
made.

## Summary

* `LedTo` are the modules that a call leads to, `Reachable` those that some entry modules lead to.
* `TraceableFrom` says that everything a call leads to can be read and resolved.
* `Trace.Faithful` says that what a trace holds is right, `Trace.Exact` that it holds what entry
  modules lead to and nothing else.

## Main results

* `specifies_iff`: what it takes for the specifiers of a module to be found.
* `Traceable.of_perm`, `Trace.Exact.of_perm`: the order of the entry modules does not matter.
* `Trace.Faithful.exact`: a trace that is right and misses nothing is exact.
-/

namespace ImportAtlas

/-! ### Calls -/

/-- A call names a module. -/
def Resolver.Leads (r : Resolver) (call : Call) (url : String) : Prop :=
  ∃ resolution, r.resolve call.specifier call.parent call.isEntry = .ok resolution ∧
    resolution.url = url

theorem Resolver.Leads.unique {r : Resolver} {call : Call} {url url' : String}
    (h : r.Leads call url) (h' : r.Leads call url') : url = url' := by
  obtain ⟨resolution, hok, rfl⟩ := h
  obtain ⟨resolution', hok', rfl⟩ := h'
  rw [Except.ok.inj (hok.symm.trans hok')]

/-- The call for an entry module. -/
def Resolver.entryCall (r : Resolver) (specifier : String) : Call := ⟨specifier, r.base, true⟩

/-- The call for a specifier of a module. -/
def innerCall (url specifier : String) : Call := ⟨specifier, url, false⟩

/-! ### The specifiers of a module -/

variable {files : FileTree} {r : Resolver} {call : Call} {url : String} {specifiers : List String}

/-- **The specifiers of a module are found** when its file is UTF-8 text that is analyzed without
fault: they are those of its declarations and of its calls with one plain text, each once. -/
theorem specifies_iff :
    Specifies files url specifiers ↔ ∃ path text, filePathOf url = .ok path ∧
      files.readText path = .ok text ∧ (Source.analyze text.toList).fault? = none ∧
      specifiers = ((Source.analyze text.toList).specifiers text.toList).eraseDups := by
  constructor
  · rintro ⟨v, rfl, h⟩
    rw [readModule] at h
    cases hp : filePathOf v.url with
    | error e => exact absurd h (by simp [hp, bind, Except.bind])
    | ok path =>
        rw [hp] at h
        simp only [bind, Except.bind] at h
        cases ht : files.readText path with
        | error fault =>
            rw [ht] at h
            cases fault
            case nulInPath => exact absurd h (by simp)
            all_goals cases hd : displayUrl v.parent <;> exact absurd h (by simp [hd])
        | ok text =>
            rw [ht] at h
            cases hf : (Source.analyze text.toList).fault? with
            | some fault => exact absurd h (by simp [hf])
            | none =>
                simp only [hf] at h
                exact ⟨path, text, rfl, ht, hf, (Except.ok.inj h).symm⟩
  · rintro ⟨path, text, hp, ht, hf, rfl⟩
    refine ⟨⟨"", "", url⟩, rfl, ?_⟩
    rw [readModule]
    simp only [hp, bind, Except.bind, ht, hf]
    rfl

theorem nodup_eraseDups (texts : List String) : texts.eraseDups.Nodup := by
  induction h : texts.length using Nat.strong_induction_on generalizing texts with
  | _ n ih =>
    cases texts with
    | nil => simp
    | cons text texts =>
        subst h
        rw [List.eraseDups_cons, List.nodup_cons]
        exact ⟨by simp, ih _ (Nat.lt_succ_of_le (List.length_filter_le ..)) _ rfl⟩

theorem Specifies.nodup (h : Specifies files url specifiers) : specifiers.Nodup := by
  obtain ⟨path, text, -, -, -, rfl⟩ := specifies_iff.1 h
  exact nodup_eraseDups _

theorem Specifies.readModule_eq (h : Specifies files url specifiers) {visit : Visit}
    (hurl : visit.url = url) : readModule files visit = .ok specifiers := by
  obtain ⟨visit', hv, hread⟩ := h
  exact readModule_eq_ok_of_url_eq hread (hurl.trans hv.symm)

/-! ### Modules -/

/-- The modules that a call leads to. -/
inductive LedTo (files : FileTree) (r : Resolver) (call : Call) : String → Prop
  | first {url : String} (leads : r.Leads call url) : LedTo files r call url
  | next {url next specifier : String} {specifiers : List String} (ledTo : LedTo files r call url)
      (isFileUrl_eq : isFileUrl url = true) (specifies : Specifies files url specifiers)
      (mem : specifier ∈ specifiers) (leads : r.Leads (innerCall url specifier) next) :
      LedTo files r call next

/-- The modules that some entry modules lead to. -/
def Reachable (files : FileTree) (r : Resolver) (entries : List String) (url : String) : Prop :=
  ∃ e ∈ entries, LedTo files r (r.entryCall e) url

/-- A module's specifiers are found, and all of them name modules. -/
def LeadsOn (files : FileTree) (r : Resolver) (url : String) : Prop :=
  ∃ specifiers, Specifies files url specifiers ∧
    ∀ s ∈ specifiers, ∃ next, r.Leads (innerCall url s) next

/-- A call names a module, and all modules on disk that it leads to lead on. -/
structure TraceableFrom (files : FileTree) (r : Resolver) (call : Call) : Prop where
  leads : ∃ url, r.Leads call url
  leadsOn : ∀ url, LedTo files r call url → isFileUrl url = true → LeadsOn files r url

/-- Every entry module is named, and all modules on disk that entry modules lead to lead on. -/
structure Traceable (files : FileTree) (r : Resolver) (entries : List String) : Prop where
  leads : ∀ e ∈ entries, ∃ url, r.Leads (r.entryCall e) url
  leadsOn : ∀ url, Reachable files r entries url → isFileUrl url = true → LeadsOn files r url

variable {entries entries' : List String}

theorem traceable_iff :
    Traceable files r entries ↔ ∀ e ∈ entries, TraceableFrom files r (r.entryCall e) := by
  constructor
  · exact fun h e he => ⟨h.leads e he, fun url hurl => h.leadsOn url ⟨e, he, hurl⟩⟩
  · exact fun h => ⟨fun e he => (h e he).leads, fun url ⟨e, he, hurl⟩ => (h e he).leadsOn url hurl⟩

theorem reachable_of_perm (h : entries.Perm entries') :
    Reachable files r entries url ↔ Reachable files r entries' url := by
  simp only [Reachable, h.mem_iff]

theorem Traceable.of_perm (h : entries.Perm entries') (ht : Traceable files r entries) :
    Traceable files r entries' :=
  traceable_iff.2 fun e he => traceable_iff.1 ht e (h.mem_iff.2 he)

/-! ### Traces -/

/-- What a trace holds is right: modules on disk that entry modules lead to, their distinct
specifiers in order, and the modules that these name. -/
structure Trace.Faithful (files : FileTree) (r : Resolver) (entries : List String) (trace : Trace) :
    Prop where
  reachable : ∀ url ∈ trace.keys, Reachable files r entries url ∧ isFileUrl url = true
  specifies : ∀ url dependencies, trace.get? url = some dependencies →
    Specifies files url dependencies.keys
  leads : ∀ url dependencies s next, trace.get? url = some dependencies →
    dependencies.get? s = some next → r.Leads (innerCall url s) next

/-- A trace is exact: it holds the modules on disk that entry modules lead to. For each of them it
lists the distinct specifiers, in order, with the modules that they name, and these are in the
trace, too, unless they are elsewhere. -/
structure Trace.Exact (files : FileTree) (r : Resolver) (entries : List String) (trace : Trace) :
    Prop where
  mem_keys_iff : ∀ url, url ∈ trace.keys ↔
    Reachable files r entries url ∧ isFileUrl url = true
  specifies : ∀ url dependencies, trace.get? url = some dependencies →
    Specifies files url dependencies.keys
  leads : ∀ url dependencies s next, trace.get? url = some dependencies →
    dependencies.get? s = some next → r.Leads (innerCall url s) next
  closed : ∀ url dependencies s next, trace.get? url = some dependencies →
    dependencies.get? s = some next → next ∈ trace.keys ∨ isFileUrl next = false

variable {trace : Trace}

theorem Trace.faithful_empty : Trace.Faithful files r entries ∅ where
  reachable := by
    intro url h
    exact absurd h List.not_mem_nil
  specifies := by
    intro url dependencies h
    exact absurd h (by simp)
  leads := by
    intro url dependencies s next h
    exact absurd h (by simp)

/-- What is right stays right when the dependencies of one more module are added. -/
theorem Trace.Faithful.insert {dependencies : Dict String String}
    (h : trace.Faithful files r entries) (hreach : Reachable files r entries url)
    (hfile : isFileUrl url = true) (hspec : Specifies files url dependencies.keys)
    (hleads : ∀ s next, dependencies.get? s = some next → r.Leads (innerCall url s) next) :
    Trace.Faithful files r entries (trace.insert url dependencies) where
  reachable := by
    intro url' hurl'
    rcases Dict.mem_keys_insert.1 hurl' with rfl | hold
    · exact ⟨hreach, hfile⟩
    · exact h.reachable url' hold
  specifies := by
    intro url' dependencies' hget
    rw [Dict.get?_insert] at hget
    split at hget
    · rename_i heq
      rw [heq, ← Option.some.inj hget]
      exact hspec
    · exact h.specifies url' dependencies' hget
  leads := by
    intro url' dependencies' s next hget hnext
    rw [Dict.get?_insert] at hget
    split at hget
    · rename_i heq
      rw [← Option.some.inj hget] at hnext
      rw [heq]
      exact hleads s next hnext
    · exact h.leads url' dependencies' s next hget hnext

theorem Reachable.next {s next : String} (h : Reachable files r entries url)
    (hfile : isFileUrl url = true) (hspec : Specifies files url specifiers) (hs : s ∈ specifiers)
    (hleads : r.Leads (innerCall url s) next) : Reachable files r entries next := by
  obtain ⟨e, he, hled⟩ := h
  exact ⟨e, he, hled.next hfile hspec hs hleads⟩

/-- Entry modules lead only to modules of a set that contains them and is closed under what its
modules lead to. -/
theorem Reachable.mem_of_closed {urls : Set String} (h : Reachable files r entries url)
    (hentries : ∀ e ∈ entries, ∀ url, r.Leads (r.entryCall e) url → url ∈ urls)
    (hclosed : ∀ url ∈ urls, isFileUrl url = true → ∀ specifiers, Specifies files url specifiers →
      ∀ s ∈ specifiers, ∀ next, r.Leads (innerCall url s) next → next ∈ urls) : url ∈ urls := by
  obtain ⟨e, he, hled⟩ := h
  induction hled with
  | first hleads => exact hentries e he _ hleads
  | next _ hfile hspec hs hleads ih => exact hclosed _ ih hfile _ hspec _ hs _ hleads

/-- What is right is exact when nothing is missing. -/
theorem Trace.Faithful.exact (h : trace.Faithful files r entries)
    (hall : ∀ url, Reachable files r entries url → isFileUrl url = true → url ∈ trace.keys) :
    trace.Exact files r entries where
  mem_keys_iff url := ⟨h.reachable url, fun ⟨hreach, hfile⟩ => hall url hreach hfile⟩
  specifies := h.specifies
  leads := h.leads
  closed := by
    intro url dependencies s next hget hnext
    cases hfile : isFileUrl next with
    | false => exact Or.inr rfl
    | true =>
        obtain ⟨hreach, hurl⟩ := h.reachable url (Dict.mem_keys_of_get? hget)
        exact Or.inl (hall next (hreach.next hurl (h.specifies _ _ hget)
          (Dict.mem_keys_of_get? hnext) (h.leads _ _ _ _ hget hnext)) hfile)

theorem Trace.Exact.of_perm (hperm : entries.Perm entries') (h : trace.Exact files r entries) :
    trace.Exact files r entries' where
  mem_keys_iff url := by rw [h.mem_keys_iff, reachable_of_perm hperm]
  specifies := h.specifies
  leads := h.leads
  closed := h.closed

/-- The modules on disk that a call leads to are read once each. -/
def ReadsOnce (files : FileTree) (r : Resolver) (call : Call) (reads : List String) : Prop :=
  reads.Nodup ∧ ∀ url, url ∈ reads ↔ LedTo files r call url ∧ isFileUrl url = true

end ImportAtlas
