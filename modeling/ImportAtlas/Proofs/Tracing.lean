import ImportAtlas.Trace.Run
import ImportAtlas.Proofs.Usage

/-!
# What a trace holds

Every module of a trace has been read, its specifiers are those that were found in it, and each of
them was resolved through an entry that has been noted. Conversely, a run that ends without fault
has traced every module that it has read: a module that is still open awaits a module that was
named later, and in the end none is left to be read.

## Main results

* `Run.Tended`: the invariant of a run. `Run.Tended.step` shows that it is kept by reading one
  module, `Run.tended_explore` by a whole run.
* `Session.sound_traceAll`: what tracing several entry modules leaves behind.
-/

namespace ImportAtlas

/-! ### The specifiers of a module -/

/-- The specifiers that are found in a module. -/
def Specifies (files : FileTree) (url : String) (specifiers : List String) : Prop :=
  ∃ visit : Visit, visit.url = url ∧ readModule files visit = .ok specifiers

/-- Where a module was named does not matter for its specifiers. -/
theorem readModule_eq_ok_of_url_eq {files : FileTree} {visit visit' : Visit}
    {specifiers : List String} (h : readModule files visit = .ok specifiers)
    (hurl : visit'.url = visit.url) : readModule files visit' = .ok specifiers := by
  rw [readModule] at h ⊢
  rw [hurl]
  cases hp : filePathOf visit.url with
  | error e => exact absurd h (by simp [hp, bind, Except.bind])
  | ok path =>
      rw [hp] at h
      simp only [bind, Except.bind] at h ⊢
      cases ht : files.readText path with
      | ok text => rw [ht] at h; exact h
      | error fault =>
          rw [ht] at h
          cases fault
          case nulInPath => exact absurd h (by simp)
          all_goals cases hd : displayUrl visit.parent <;> exact absurd h (by simp [hd])

theorem Specifies.unique {files : FileTree} {url : String} {specifiers specifiers' : List String}
    (h : Specifies files url specifiers) (h' : Specifies files url specifiers') :
    specifiers = specifiers' := by
  obtain ⟨visit, hv, hread⟩ := h
  obtain ⟨visit', hv', hread'⟩ := h'
  rw [readModule_eq_ok_of_url_eq hread' (hv.trans hv'.symm)] at hread
  exact (Except.ok.inj hread).symm

/-- The dependencies of a module are what its specifiers name, and the entries that they went
through have been noted. -/
def Accounted (files : FileTree) (r : Resolver) (used : ImportMap) (url : String)
    (dependencies : Dict String String) : Prop :=
  ∃ specifiers, Specifies files url specifiers ∧
    (∀ s ∈ specifiers, ∃ resolution, r.resolve s url false = .ok resolution ∧
      dependencies.get? s = some resolution.url ∧ used.Accounts resolution) ∧
    ∀ s ∈ dependencies.keys, s ∈ specifiers

theorem Accounted.mono {files : FileTree} {r : Resolver} {used used' : ImportMap} {url : String}
    {dependencies : Dict String String} (h : Accounted files r used url dependencies)
    (hle : ∀ entry, used.Has entry → used'.Has entry) :
    Accounted files r used' url dependencies := by
  obtain ⟨specifiers, hspec, hres, hkeys⟩ := h
  refine ⟨specifiers, hspec, fun s hs => ?_, hkeys⟩
  obtain ⟨resolution, hok, hget, hacc⟩ := hres s hs
  exact ⟨resolution, hok, hget, fun entry he => hle entry (hacc entry he)⟩

/-- What a session has found is still there in another one. -/
structure Session.Extends (session' session : Session) : Prop where
  has : ∀ entry, session.used.Has entry → session'.used.Has entry
  mem_keys : ∀ u ∈ session.trace.keys, u ∈ session'.trace.keys

theorem Session.Extends.refl (session : Session) : session.Extends session :=
  ⟨fun _ h => h, fun _ h => h⟩

theorem Session.Extends.trans {session session' session'' : Session}
    (h : session''.Extends session') (h' : session'.Extends session) : session''.Extends session :=
  ⟨fun entry he => h.has entry (h'.has entry he), fun u hu => h.mem_keys u (h'.mem_keys u hu)⟩

namespace Run

variable {files : FileTree} {r : Resolver} {run run' run'' : Run} {specifier parent url : String}
  {isEntry : Bool}

/-! ### One specifier -/

/-- What claiming specifiers leaves alone: it only adds modules to those that wait. -/
structure Grows (run run' : Run) : Prop where
  trace_eq : run'.session.trace = run.session.trace
  opened_eq : run'.opened = run.opened
  closed_eq : run'.closed = run.closed
  reads_eq : run'.reads = run.reads
  pending_eq : ∃ added, run'.pending = run.pending ++ added

theorem Grows.refl (run : Run) : Grows run run := ⟨rfl, rfl, rfl, rfl, [], by simp⟩

theorem Grows.trans (h : Grows run run') (h' : Grows run' run'') : Grows run run'' := by
  obtain ⟨added, hadded⟩ := h.pending_eq
  obtain ⟨added', hadded'⟩ := h'.pending_eq
  refine ⟨h'.trace_eq.trans h.trace_eq, h'.opened_eq.trans h.opened_eq,
    h'.closed_eq.trans h.closed_eq, h'.reads_eq.trans h.reads_eq, added ++ added', ?_⟩
  rw [hadded', hadded, List.append_assoc]

theorem grows_name (run : Run) (specifier parent url : String) :
    Grows run (run.name specifier parent url) := by
  rw [name]
  split
  · exact Grows.refl run
  · simp only
    split
    · exact ⟨rfl, rfl, rfl, rfl, _, rfl⟩
    · exact ⟨rfl, rfl, rfl, rfl, [], by simp⟩

theorem used_name (run : Run) (specifier parent url : String) :
    (run.name specifier parent url).session.used = run.session.used := by
  rw [name]
  split
  · rfl
  · simp only
    split <;> rfl

theorem fault?_name (run : Run) (specifier parent url : String) :
    (run.name specifier parent url).fault? = run.fault? := by
  rw [name]
  split
  · rfl
  · simp only
    split <;> rfl

/-- The run after a specifier of it was resolved. -/
def note (run : Run) (specifier parent : String) (resolution : Resolution) : Run :=
  name { run with session := { run.session with used := run.session.used.record resolution } }
    specifier parent resolution.url

theorem claim_of_resolve {resolution : Resolution}
    (h : r.resolve specifier parent isEntry = .ok resolution) (run : Run) :
    run.claim r isEntry parent specifier =
      (run.note specifier parent resolution, some resolution.url) := by
  rw [claim, h]
  rfl

theorem fault?_note (run : Run) (specifier parent : String) (resolution : Resolution) :
    (run.note specifier parent resolution).fault? = run.fault? := by
  rw [note, fault?_name]

theorem used_note (run : Run) (specifier parent : String) (resolution : Resolution) :
    (run.note specifier parent resolution).session.used = run.session.used.record resolution := by
  rw [note, used_name]

theorem grows_claim (run : Run) (specifier parent : String) :
    Grows run (run.claim r isEntry parent specifier).1 := by
  cases h : r.resolve specifier parent isEntry with
  | error e => rw [claim, h]; exact ⟨rfl, rfl, rfl, rfl, [], by simp [fail]⟩
  | ok resolution =>
      rw [claim_of_resolve h]
      have hname := grows_name { run with session :=
        { run.session with used := run.session.used.record resolution } } specifier parent
          resolution.url
      exact ⟨hname.trace_eq, hname.opened_eq, hname.closed_eq, hname.reads_eq, hname.pending_eq⟩

/-- A specifier is claimed without fault exactly when it has a resolution. -/
theorem fault?_claim_eq_none_iff :
    (run.claim r isEntry parent specifier).1.fault? = none ↔
      run.fault? = none ∧ ∃ resolution, r.resolve specifier parent isEntry = .ok resolution := by
  cases h : r.resolve specifier parent isEntry with
  | error e => rw [claim, h]; cases hf : run.fault? <;> simp [fail, hf]
  | ok resolution => rw [claim_of_resolve h, fault?_note]; simp

/-! ### The specifiers of one module -/

/-- The next specifier of a module. -/
def claimNext (r : Resolver) (parent : String) (state : Run × Dict String String)
    (specifier : String) : Run × Dict String String :=
  match state.1.claim r false parent specifier with
  | (run, some url) => (run, state.2.insert specifier url)
  | (run, none) => (run, state.2)

theorem claimAll_eq_foldl (r : Resolver) (parent : String) (run : Run)
    (specifiers : List String) :
    run.claimAll r parent specifiers = specifiers.foldl (claimNext r parent) (run, ∅) := rfl

theorem fst_claimNext (state : Run × Dict String String) :
    (claimNext r parent state specifier).1 = (state.1.claim r false parent specifier).1 := by
  rw [claimNext]
  split <;> rename_i h <;> rw [h]

theorem claimNext_of_resolve {resolution : Resolution}
    (h : r.resolve specifier parent false = .ok resolution) (state : Run × Dict String String) :
    claimNext r parent state specifier =
      (state.1.note specifier parent resolution, state.2.insert specifier resolution.url) := by
  rw [claimNext, claim_of_resolve h]

theorem grows_foldl_claimNext (specifiers : List String) (state : Run × Dict String String) :
    Grows state.1 (specifiers.foldl (claimNext r parent) state).1 := by
  induction specifiers generalizing state with
  | nil => exact Grows.refl _
  | cons s specifiers ih =>
      have hs : Grows state.1 (claimNext r parent state s).1 := by
        rw [fst_claimNext]
        exact grows_claim state.1 s parent
      exact hs.trans (ih _)

/-- If all specifiers of a module are claimed without fault, all of them have a resolution. -/
theorem fault?_foldl_claimNext_eq_none_iff {specifiers : List String}
    {state : Run × Dict String String} :
    (specifiers.foldl (claimNext r parent) state).1.fault? = none ↔
      state.1.fault? = none ∧
        ∀ s ∈ specifiers, ∃ resolution, r.resolve s parent false = .ok resolution := by
  induction specifiers generalizing state with
  | nil => simp
  | cons s specifiers ih =>
      rw [List.foldl_cons, ih, fst_claimNext, fault?_claim_eq_none_iff, List.forall_mem_cons,
        and_assoc]

/-- What the specifiers of a module name is noted with the entries that they went through, and
nothing that was noted before is lost. -/
theorem of_foldl_claimNext {specifiers : List String} {state : Run × Dict String String}
    (hw : state.1.session.used.Within r)
    (hres : ∀ s ∈ specifiers, ∃ resolution, r.resolve s parent false = .ok resolution) :
    (specifiers.foldl (claimNext r parent) state).1.session.used.Within r ∧
      (∀ entry, state.1.session.used.Has entry →
        (specifiers.foldl (claimNext r parent) state).1.session.used.Has entry) ∧
      (∀ s ∈ specifiers, ∃ resolution, r.resolve s parent false = .ok resolution ∧
        (specifiers.foldl (claimNext r parent) state).2.get? s = some resolution.url ∧
        (specifiers.foldl (claimNext r parent) state).1.session.used.Accounts resolution) ∧
      ∀ s ∉ specifiers,
        (specifiers.foldl (claimNext r parent) state).2.get? s = state.2.get? s := by
  induction specifiers generalizing state with
  | nil => exact ⟨hw, fun _ h => h, by simp, fun _ _ => rfl⟩
  | cons s specifiers ih =>
      rw [List.forall_mem_cons] at hres
      obtain ⟨⟨resolution, hok⟩, hrest⟩ := hres
      rw [List.foldl_cons, claimNext_of_resolve hok]
      have hw' : (state.1.note s parent resolution).session.used.Within r := by
        rw [used_note]
        exact hw.record hok
      obtain ⟨hwithin, hhas, hclaimed, hother⟩ :=
        @ih (state.1.note s parent resolution, state.2.insert s resolution.url) hw' hrest
      refine ⟨hwithin, fun entry he => hhas entry ?_, fun s' hs' => ?_, fun s' hs' => ?_⟩
      · rw [used_note]
        exact ImportMap.has_record hw hok he
      · by_cases hmem : s' ∈ specifiers
        · exact hclaimed s' hmem
        · obtain rfl := (List.mem_cons.1 hs').resolve_right hmem
          refine ⟨resolution, hok, ?_, fun entry he => hhas entry ?_⟩
          · rw [hother s' hmem, Dict.get?_insert, if_pos rfl]
          · rw [used_note]
            exact ImportMap.accounts_record _ resolution entry he
      · rw [List.mem_cons, not_or] at hs'
        rw [hother s' hs'.2, Dict.get?_insert, if_neg hs'.1]

/-! ### Modules that await others -/

/-- The modules that open ones await are known, or have been opened after them. -/
def Awaits (known : List String) : List OpenModule → Prop
  | [] => True
  | m :: ms => (∀ u ∈ m.awaited, u ∈ known) ∧ Awaits (m.url :: known) ms

theorem Awaits.mono {known known' : List String} {ms : List OpenModule} (h : Awaits known ms)
    (hle : ∀ u ∈ known, u ∈ known') : Awaits known' ms := by
  induction ms generalizing known known' with
  | nil => exact trivial
  | cons m ms ih =>
      refine ⟨fun u hu => hle u (h.1 u hu), ih h.2 fun u hu => ?_⟩
      rcases List.mem_cons.1 hu with rfl | hu
      · exact List.mem_cons_self
      · exact List.mem_cons_of_mem _ (hle u hu)

/-- An open module that becomes known may leave the others. -/
theorem Awaits.remove {known : List String} {before after : List OpenModule} {m : OpenModule}
    (h : Awaits known (before ++ m :: after)) : Awaits (m.url :: known) (before ++ after) := by
  induction before generalizing known with
  | nil => exact h.2
  | cons b before ih =>
      refine ⟨fun u hu => List.mem_cons_of_mem _ (h.1 u hu), (ih h.2).mono fun u hu => ?_⟩
      simp only [List.mem_cons] at hu ⊢
      tauto

/-! ### Closing modules -/

theorem settle_of_closed {m : OpenModule} (h : ∀ u ∈ m.awaited, u ∈ run.closed) :
    run.settle m = { run with
      closed := run.closed ++ [m.url]
      session := { run.session with trace := run.session.trace.insert m.url m.dependencies } } := by
  rw [settle, if_pos]
  rw [List.all_eq_true]
  exact fun u hu => List.contains_iff_mem.2 (h u hu)

theorem settle_of_not_closed {m : OpenModule} (h : ¬ ∀ u ∈ m.awaited, u ∈ run.closed) :
    run.settle m = { run with opened := run.opened ++ [m] } := by
  rw [settle, if_neg]
  rw [List.all_eq_true]
  exact fun hall => h fun u hu => List.contains_iff_mem.1 (hall u hu)

/-- What closing modules leaves alone: it only moves open ones to the trace. -/
structure Settles (run run' : Run) : Prop where
  used_eq : run'.session.used = run.session.used
  pending_eq : run'.pending = run.pending
  reads_eq : run'.reads = run.reads
  fault?_eq : run'.fault? = run.fault?
  mem_keys : ∀ u ∈ run.session.trace.keys, u ∈ run'.session.trace.keys

theorem settles_settle (run : Run) (m : OpenModule) : Settles run (run.settle m) := by
  rw [settle]
  split
  · exact ⟨rfl, rfl, rfl, rfl, fun u hu => Dict.mem_keys_insert.2 (Or.inr hu)⟩
  · exact ⟨rfl, rfl, rfl, rfl, fun _ hu => hu⟩

theorem settles_foldl_settle (ms : List OpenModule) (run : Run) :
    Settles run (ms.foldl settle run) := by
  induction ms generalizing run with
  | nil => exact ⟨rfl, rfl, rfl, rfl, fun _ hu => hu⟩
  | cons m ms ih =>
      have h := settles_settle run m
      have h' := ih (run.settle m)
      exact ⟨h'.used_eq.trans h.used_eq, h'.pending_eq.trans h.pending_eq,
        h'.reads_eq.trans h.reads_eq, h'.fault?_eq.trans h.fault?_eq,
        fun u hu => h'.mem_keys u (h.mem_keys u hu)⟩

theorem settles_settleAll (run : Run) : Settles run run.settleAll := by
  have h := settles_foldl_settle run.opened { run with opened := [] }
  exact ⟨h.used_eq, h.pending_eq, h.reads_eq, h.fault?_eq, h.mem_keys⟩

/-- With no module left to be read, every open module is closed: the latest one awaits none that
is open, and so on down to the first one. -/
theorem opened_foldl_settle_eq_nil {ms : List OpenModule} (hopen : run.opened = [])
    (h : Awaits run.closed ms) : (ms.foldl settle run).opened = [] := by
  induction ms generalizing run with
  | nil => exact hopen
  | cons m ms ih =>
      rw [List.foldl_cons, settle_of_closed h.1]
      refine ih hopen (h.2.mono fun u hu => ?_)
      simp only [List.mem_cons] at hu
      simp only [List.mem_append, List.mem_singleton]
      tauto

/-! ### The invariant -/

/-- **The invariant of a run**: what is traced or open is accounted for, open modules await only
what will be closed before them, and whatever was read is open or closed. -/
structure Tended (files : FileTree) (r : Resolver) (run : Run) : Prop where
  within : run.session.used.Within r
  traced : ∀ url dependencies, run.session.trace.get? url = some dependencies →
    Accounted files r run.session.used url dependencies
  opened : ∀ m ∈ run.opened, Accounted files r run.session.used m.url m.dependencies
  awaits : Awaits (run.closed ++ run.pending.map Visit.url) run.opened
  closed : ∀ u ∈ run.closed, u ∈ run.session.trace.keys
  reads : ∀ u ∈ run.reads, u ∈ run.closed ∨ u ∈ run.opened.map OpenModule.url

/-- Closing one module keeps the invariant; `ms` are the open modules that are still to be looked
at. -/
theorem Tended.settle {m : OpenModule} {ms : List OpenModule}
    (h : Tended files r { run with opened := run.opened ++ m :: ms }) :
    Tended files r { run.settle m with opened := (run.settle m).opened ++ ms } := by
  -- A module is closed when all that it awaits is; else nothing changes but its place.
  by_cases hc : ∀ u ∈ m.awaited, u ∈ run.closed
  · rw [settle_of_closed hc]
    constructor
    · exact h.within
    · intro url dependencies hget
      replace hget : (run.session.trace.insert m.url m.dependencies).get? url =
        some dependencies := hget
      rw [Dict.get?_insert] at hget
      split at hget
      · rename_i hurl
        obtain rfl := Option.some.inj hget
        rw [hurl]
        exact h.opened m (by simp)
      · exact h.traced url dependencies hget
    · intro m' hm'
      refine h.opened m' ?_
      simp only [List.mem_append, List.mem_cons] at hm' ⊢
      tauto
    · refine h.awaits.remove.mono fun u hu => ?_
      simp only [List.mem_cons, List.mem_append] at hu ⊢
      tauto
    · intro u hu
      refine Dict.mem_keys_insert.2 ?_
      rcases List.mem_append.1 hu with hold | hnew
      · exact Or.inr (h.closed u hold)
      · exact Or.inl (List.mem_singleton.1 hnew)
    · intro u hu
      have := h.reads u hu
      simp only [List.map_append, List.map_cons, List.mem_append, List.mem_cons,
        List.not_mem_nil, or_false] at this ⊢
      tauto
  · rw [settle_of_not_closed hc]
    simpa only [List.append_assoc, List.cons_append, List.nil_append] using h

theorem Tended.foldl_settle {ms : List OpenModule}
    (h : Tended files r { run with opened := run.opened ++ ms }) :
    Tended files r (ms.foldl Run.settle run) := by
  induction ms generalizing run with
  | nil =>
      rw [List.append_nil] at h
      exact h
  | cons m ms ih => exact ih h.settle

theorem Tended.settleAll (h : Tended files r run) : Tended files r run.settleAll :=
  @Tended.foldl_settle files r { run with opened := [] } run.opened h

theorem opened_settleAll_eq_nil (h : Tended files r run) (hp : run.pending = []) :
    run.settleAll.opened = [] := by
  refine opened_foldl_settle_eq_nil rfl ?_
  have ha := h.awaits
  rwa [hp, List.map_nil, List.append_nil] at ha

/-! ### One module -/

/-- The run after a module was read and its specifiers were claimed, before modules are closed. -/
def opening (r : Resolver) (run : Run) (v : Visit) (specifiers : List String) : Run :=
  let claimed := ({ run with reads := run.reads ++ [v.url] } : Run).claimAll r v.url specifiers
  { claimed.1 with
    opened := ⟨v.url, claimed.2, (claimed.1.pending.drop run.pending.length).map Visit.url⟩ ::
      claimed.1.opened }

theorem visit_of_resolve {v : Visit} {specifiers : List String} (hf : run.fault? = none)
    (hread : readModule files v = .ok specifiers)
    (hres : ∀ s ∈ specifiers, ∃ resolution, r.resolve s v.url false = .ok resolution) :
    run.visit files r v = (opening r run v specifiers).settleAll := by
  have hclaim : ¬ (({ run with reads := run.reads ++ [v.url] } : Run).claimAll r v.url
      specifiers).1.fault?.isSome = true := by
    rw [claimAll_eq_foldl, fault?_foldl_claimNext_eq_none_iff.2 ⟨hf, hres⟩]
    exact Bool.false_ne_true
  rw [visit, hread]
  exact if_neg hclaim

/-- A module that is read without fault is accepted, and all its specifiers are resolved. -/
theorem exists_of_fault?_visit {v : Visit} (h : (run.visit files r v).fault? = none) :
    run.fault? = none ∧ ∃ specifiers, readModule files v = .ok specifiers ∧
      ∀ s ∈ specifiers, ∃ resolution, r.resolve s v.url false = .ok resolution := by
  rw [visit] at h
  cases hread : readModule files v with
  | error e => rw [hread] at h; exact absurd h (by cases run.fault? <;> simp [fail])
  | ok specifiers =>
      rw [hread] at h
      simp only at h
      have hclaim : (({ run with reads := run.reads ++ [v.url] } : Run).claimAll r v.url
          specifiers).1.fault? = none := by
        split at h
        · exact h
        · rw [(settles_settleAll _).fault?_eq] at h
          exact h
      rw [claimAll_eq_foldl] at hclaim
      obtain ⟨hf, hres⟩ := fault?_foldl_claimNext_eq_none_iff.1 hclaim
      exact ⟨hf, specifiers, rfl, hres⟩

/-- Reading a module adds it to the open ones, with its specifiers accounted for. -/
theorem tended_opening {v : Visit} {rest : List Visit} {specifiers : List String}
    (h : Tended files r run) (hp : run.pending = v :: rest)
    (hread : readModule files v = .ok specifiers)
    (hres : ∀ s ∈ specifiers, ∃ resolution, r.resolve s v.url false = .ok resolution) :
    Tended files r (opening r { run with pending := rest } v specifiers) ∧
      (opening r { run with pending := rest } v specifiers).session.Extends run.session := by
  have hstate := @of_foldl_claimNext r v.url specifiers
    ({ run with pending := rest, reads := run.reads ++ [v.url] }, ∅) h.within hres
  have hgrows := @grows_foldl_claimNext r v.url specifiers
    ({ run with pending := rest, reads := run.reads ++ [v.url] }, ∅)
  rw [opening, claimAll_eq_foldl]
  -- From here on only what the fold keeps is used, not how it is computed.
  generalize specifiers.foldl (claimNext r v.url)
    ({ run with pending := rest, reads := run.reads ++ [v.url] }, ∅) = state at hstate hgrows
  obtain ⟨hwithin, hhas, hclaimed, hother⟩ := hstate
  obtain ⟨htrace, hopened, hclosed, hreads, added, hadded⟩ := hgrows
  simp only at htrace hopened hclosed hreads hadded
  refine ⟨⟨hwithin, ?_, ?_, ?_, ?_, ?_⟩, hhas, ?_⟩
  · intro url dependencies hget
    simp only [htrace] at hget
    exact (h.traced url dependencies hget).mono hhas
  · intro m hm
    rcases List.mem_cons.1 hm with rfl | hm
    · refine ⟨specifiers, ⟨v, rfl, hread⟩, hclaimed, fun s hs => ?_⟩
      by_contra hnot
      refine Dict.get?_eq_none_iff.1 ?_ hs
      rw [hother s hnot, Dict.get?_empty]
    · rw [hopened] at hm
      exact (h.opened m hm).mono hhas
  · have ha := h.awaits
    rw [hp] at ha
    simp only [hopened, hclosed, hadded, List.drop_left]
    refine ⟨fun u hu => ?_, ha.mono fun u hu => ?_⟩
    · rw [List.map_append, List.mem_append, List.mem_append]
      exact Or.inr (Or.inr hu)
    · simp only [List.map_cons, List.map_append, List.mem_append, List.mem_cons] at hu ⊢
      tauto
  · intro u hu
    simp only [hclosed] at hu
    simp only [htrace]
    exact h.closed u hu
  · intro u hu
    simp only [hreads, List.mem_append, List.mem_singleton] at hu
    simp only [hclosed, hopened, List.map_cons, List.mem_cons]
    rcases hu with hold | rfl
    · have := h.reads u hold
      tauto
    · exact Or.inr (Or.inl rfl)
  · intro u hu
    simp only [htrace]
    exact hu

/-- **Reading one module keeps the invariant**, and closes every open module if none is left to be
read. -/
theorem Tended.step {v : Visit} {rest : List Visit} (h : Tended files r run)
    (hp : run.pending = v :: rest)
    (hf : (visit files r { run with pending := rest } v).fault? = none) :
    Tended files r (visit files r { run with pending := rest } v) ∧
      (visit files r { run with pending := rest } v).session.Extends run.session ∧
      ((visit files r { run with pending := rest } v).pending = [] →
        (visit files r { run with pending := rest } v).opened = []) := by
  obtain ⟨hnone, specifiers, hread, hres⟩ := exists_of_fault?_visit hf
  rw [visit_of_resolve hnone hread hres]
  obtain ⟨htended, hextends⟩ := tended_opening h hp hread hres
  have hsettles := settles_settleAll (opening r { run with pending := rest } v specifiers)
  refine ⟨htended.settleAll, ⟨fun entry he => ?_, fun u hu => ?_⟩, fun hnil => ?_⟩
  · rw [hsettles.used_eq]
    exact hextends.has entry he
  · exact hsettles.mem_keys u (hextends.mem_keys u hu)
  · rw [hsettles.pending_eq] at hnil
    exact opened_settleAll_eq_nil htended hnil

theorem explore_of_pending_eq_nil (hp : run.pending = []) (budget : Nat) :
    explore files r budget run = run := by
  cases budget with
  | zero => rfl
  | succ budget => rw [explore, hp]; split <;> rfl

theorem explore_succ (files : FileTree) (r : Resolver) {v : Visit} {rest : List Visit}
    (hnone : run.fault? = none) (hp : run.pending = v :: rest) (budget : Nat) :
    explore files r (budget + 1) run =
      explore files r budget (visit files r { run with pending := rest } v) := by
  have hsome : ¬ run.fault?.isSome = true := by simp [hnone]
  rw [explore, if_neg hsome, hp]

/-- A run that goes on does not forget what went wrong. -/
theorem fault?_of_explore {budget : Nat} (h : (explore files r budget run).fault? = none) :
    run.fault? = none := by
  cases budget with
  | zero => exact h
  | succ budget =>
      rw [explore] at h
      split at h
      · rename_i hsome
        rw [h] at hsome
        exact absurd hsome (by simp)
      · rename_i hnone
        simpa using hnone

/-- **The invariant holds at the end of a run.** The induction is on the modules that may still be
read. -/
theorem tended_explore {budget : Nat} (h : Tended files r run)
    (hdone : run.pending = [] → run.opened = [])
    (hf : (explore files r budget run).fault? = none) :
    Tended files r (explore files r budget run) ∧
      (explore files r budget run).session.Extends run.session ∧
      ((explore files r budget run).pending = [] → (explore files r budget run).opened = []) := by
  induction budget generalizing run with
  | zero => exact ⟨h, Session.Extends.refl _, hdone⟩
  | succ budget ih =>
      cases hp : run.pending with
      | nil =>
          rw [explore_of_pending_eq_nil hp]
          exact ⟨h, Session.Extends.refl _, hdone⟩
      | cons v rest =>
          have hsucc := explore_succ files r (fault?_of_explore hf) hp budget
          rw [hsucc] at hf ⊢
          obtain ⟨hstep, hextends, hdone'⟩ := h.step hp (fault?_of_explore hf)
          obtain ⟨hend, hextends', hdone''⟩ := ih hstep hdone' hf
          exact ⟨hend, hextends'.trans hextends, hdone''⟩

theorem outcome_eq_ok_iff {url? : Option String} :
    run.outcome url? = .ok url ↔ run.fault? = none ∧ run.pending = [] ∧ url? = some url := by
  cases hf : run.fault? <;> cases hp : run.pending <;> cases url? <;> simp [outcome, hf, hp]

end Run

/-! ### Several entry modules -/

namespace Session

variable {files : FileTree} {r : Resolver} {session : Session} {specifier : String}

/-- **What is true of a session**: its entries are those of the resolver, and what it has traced is
accounted for. -/
structure Sound (files : FileTree) (r : Resolver) (session : Session) : Prop where
  within : session.used.Within r
  traced : ∀ url dependencies, session.trace.get? url = some dependencies →
    Accounted files r session.used url dependencies

theorem sound_empty (files : FileTree) (r : Resolver) : Sound files r empty :=
  ⟨ImportMap.within_empty r, fun _ _ h => absurd h (by simp [empty])⟩

/-- The run of an entry module after its specifier was resolved. -/
def entered (session : Session) (r : Resolver) (specifier : String) (resolution : Resolution) :
    Run := (Run.start session []).note specifier r.base resolution

theorem traceFrom_of_resolve {resolution : Resolution}
    (hres : r.resolve specifier r.base true = .ok resolution) (budget : Nat) :
    session.traceFrom files r budget specifier r.base none =
      (((session.entered r specifier resolution).explore files r budget).outcome
          (some resolution.url),
        ((session.entered r specifier resolution).explore files r budget).session) := by
  have hclaim := Run.claim_of_resolve hres (Run.start session [])
  rw [traceFrom]
  simp only [Option.getD_none, Option.isNone_none, hclaim]
  rfl

/-- An entry module is traced without fault when its specifier has a resolution and its run ends
without fault and with nothing left to be read. -/
theorem traceFrom_eq_ok {budget : Nat} {url : String}
    (h : (session.traceFrom files r budget specifier r.base none).1 = .ok url) :
    ∃ resolution, r.resolve specifier r.base true = .ok resolution ∧ resolution.url = url ∧
      ((session.entered r specifier resolution).explore files r budget).fault? = none ∧
      ((session.entered r specifier resolution).explore files r budget).pending = [] := by
  cases hres : r.resolve specifier r.base true with
  | error e =>
      have hclaim : (Run.start session []).claim r true r.base specifier =
          ((Run.start session []).fail e, none) := by rw [Run.claim, hres]
      rw [traceFrom] at h
      simp only [Option.getD_none, Option.isNone_none, hclaim] at h
      exact absurd (Run.outcome_eq_ok_iff.1 h).2.2 (by simp)
  | ok resolution =>
      rw [traceFrom_of_resolve hres] at h
      obtain ⟨hf, hp, hurl⟩ := Run.outcome_eq_ok_iff.1 h
      exact ⟨resolution, rfl, Option.some.inj hurl, hf, hp⟩

theorem tended_entered {resolution : Resolution} (hs : Sound files r session)
    (hres : r.resolve specifier r.base true = .ok resolution) :
    Run.Tended files r (session.entered r specifier resolution) ∧
      (session.entered r specifier resolution).session.Extends session ∧
      (session.entered r specifier resolution).opened = [] := by
  have hgrows := @Run.grows_claim r true (Run.start session []) specifier r.base
  rw [Run.claim_of_resolve hres] at hgrows
  have hused := Run.used_note (Run.start session []) specifier r.base resolution
  have hhas : ∀ entry, session.used.Has entry →
      (session.entered r specifier resolution).session.used.Has entry := by
    intro entry he
    rw [entered, hused]
    exact ImportMap.has_record hs.within hres he
  refine ⟨⟨?_, ?_, ?_, ?_, ?_, ?_⟩, ⟨hhas, ?_⟩, hgrows.opened_eq⟩
  · rw [entered, hused]
    exact hs.within.record hres
  · intro url dependencies hget
    rw [entered, hgrows.trace_eq] at hget
    exact (hs.traced url dependencies hget).mono hhas
  · intro m hm
    rw [entered, hgrows.opened_eq] at hm
    exact absurd hm List.not_mem_nil
  · rw [entered, hgrows.opened_eq]
    exact trivial
  · intro u hu
    rw [entered, hgrows.closed_eq] at hu
    exact absurd hu List.not_mem_nil
  · intro u hu
    rw [entered, hgrows.reads_eq] at hu
    exact absurd hu List.not_mem_nil
  · intro u hu
    rw [entered, hgrows.trace_eq]
    exact hu

/-- What the run of an entry module leaves behind: whatever it read has been traced. -/
theorem sound_traceFrom {budget : Nat} {resolution : Resolution} (hs : Sound files r session)
    (hres : r.resolve specifier r.base true = .ok resolution)
    (hf : ((session.entered r specifier resolution).explore files r budget).fault? = none)
    (hp : ((session.entered r specifier resolution).explore files r budget).pending = []) :
    Sound files r ((session.entered r specifier resolution).explore files r budget).session ∧
      ((session.entered r specifier resolution).explore files r budget).session.Extends session ∧
      ((session.entered r specifier resolution).explore files r budget).session.used.Accounts
        resolution ∧
      ∀ u ∈ ((session.entered r specifier resolution).explore files r budget).reads,
        u ∈ ((session.entered r specifier resolution).explore files r
          budget).session.trace.keys := by
  obtain ⟨htended, hextends, hopened⟩ := tended_entered hs hres
  obtain ⟨hend, hextends', hdone⟩ := Run.tended_explore htended (fun _ => hopened) hf
  refine ⟨⟨hend.within, hend.traced⟩, hextends'.trans hextends, fun entry he => ?_, fun u hu => ?_⟩
  · refine hextends'.has entry ?_
    rw [entered, Run.used_note]
    exact ImportMap.accounts_record _ resolution entry he
  · rcases hend.reads u hu with hc | ho
    · exact hend.closed u hc
    · rw [hdone hp] at ho
      exact absurd ho List.not_mem_nil

theorem traceAll_cons_eq_ok {budget : Nat} {more : List String}
    (h : (session.traceAll files r budget (specifier :: more)).1 = .ok ()) :
    ∃ url, (session.traceFrom files r budget specifier r.base none).1 = .ok url ∧
      session.traceAll files r budget (specifier :: more) =
        (session.traceFrom files r budget specifier r.base none).2.traceAll files r budget
          more := by
  rw [traceAll] at h ⊢
  cases hfrom : session.traceFrom files r budget specifier r.base none with
  | mk outcome session' =>
      cases outcome with
      | ok url => exact ⟨url, rfl, rfl⟩
      | error e =>
          rw [hfrom] at h
          exact absurd h (by simp)

/-- **What tracing several entry modules leaves behind**: a sound session, with the entries that
the entry modules went through. -/
theorem sound_traceAll {budget : Nat} {entries : List String} (hs : Sound files r session)
    (h : (session.traceAll files r budget entries).1 = .ok ()) :
    Sound files r (session.traceAll files r budget entries).2 ∧
      (session.traceAll files r budget entries).2.Extends session ∧
      ∀ e ∈ entries, ∃ resolution, r.resolve e r.base true = .ok resolution ∧
        (session.traceAll files r budget entries).2.used.Accounts resolution := by
  induction entries generalizing session with
  | nil => exact ⟨hs, Extends.refl _, by simp⟩
  | cons e entries ih =>
      obtain ⟨url, hfrom, hall⟩ := traceAll_cons_eq_ok h
      obtain ⟨resolution, hres, -, hf, hp⟩ := traceFrom_eq_ok hfrom
      obtain ⟨hsound, hextends, hacc, -⟩ := sound_traceFrom hs hres hf hp
      rw [hall, traceFrom_of_resolve hres] at h ⊢
      obtain ⟨hsound', hextends', hentries⟩ := ih hsound h
      refine ⟨hsound', hextends'.trans hextends, List.forall_mem_cons.2 ⟨?_, hentries⟩⟩
      exact ⟨resolution, hres, fun entry he => hextends'.has entry (hacc entry he)⟩

end Session

end ImportAtlas
