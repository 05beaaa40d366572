import ImportAtlas.Proofs.Tracing

/-!
# Tracing again through another map

What a run does depends on the map only through the URLs of the specifiers that it meets. If
another map gives these the same URLs, tracing through it goes through the same steps, and only
the entries that are noted may differ.

## Main results

* `Run.exists_explore_withUsed`: a run is repeated step by step.
* `Session.exists_traceAll_withUsed`: so is the tracing of several entry modules.
-/

namespace ImportAtlas

/-! ### Resolutions with one URL -/

theorem Resolver.exists_of_url?_eq {r r' : Resolver} {specifier parent : String} {isEntry : Bool}
    {resolution : Resolution} (h : r.resolve specifier parent isEntry = .ok resolution)
    (heq : r'.url? specifier parent isEntry = r.url? specifier parent isEntry) :
    ∃ resolution', r'.resolve specifier parent isEntry = .ok resolution' ∧
      resolution'.url = resolution.url := by
  rw [url?, url?, h] at heq
  cases h' : r'.resolve specifier parent isEntry with
  | ok resolution' =>
      rw [h'] at heq
      exact ⟨resolution', rfl, Option.some.inj (Except.ok.inj heq)⟩
  | error e =>
      rw [h'] at heq
      cases e <;> exact absurd heq (by simp [outcome])

/-- A session that has noted other entries. -/
def Session.withUsed (session : Session) (used : ImportMap) : Session := { session with used }

namespace Run

variable {files : FileTree} {r r' : Resolver} {run : Run} {used : ImportMap}

/-- A run that has noted other entries. -/
def withUsed (run : Run) (used : ImportMap) : Run :=
  { run with session := run.session.withUsed used }

theorem name_withUsed (run : Run) (used : ImportMap) (specifier parent url : String) :
    (run.withUsed used).name specifier parent url =
      (run.name specifier parent url).withUsed used := by
  rw [name, name, withUsed]
  split
  · rfl
  · simp only
    split <;> rfl

theorem note_withUsed {resolution resolution' : Resolution}
    (h : resolution'.url = resolution.url) (run : Run) (used : ImportMap)
    (specifier parent : String) :
    (run.withUsed used).note specifier parent resolution' =
      (run.note specifier parent resolution).withUsed (used.record resolution') := by
  have hname := name_withUsed { run with session :=
    { run.session with used := run.session.used.record resolution } } (used.record resolution')
      specifier parent resolution.url
  rw [note, note, h]
  exact hname

/-- The specifiers of a module are claimed alike if they have the same URLs. -/
theorem exists_foldl_claimNext_withUsed {parent : String} {specifiers : List String}
    (hres : ∀ s ∈ specifiers, ∃ resolution, r.resolve s parent false = .ok resolution)
    (hsame : ∀ s ∈ specifiers, r'.url? s parent false = r.url? s parent false)
    (state : Run × Dict String String) (used : ImportMap) :
    ∃ used', specifiers.foldl (claimNext r' parent) (state.1.withUsed used, state.2) =
      ((specifiers.foldl (claimNext r parent) state).1.withUsed used',
        (specifiers.foldl (claimNext r parent) state).2) := by
  induction specifiers generalizing state used with
  | nil => exact ⟨used, rfl⟩
  | cons s specifiers ih =>
      rw [List.forall_mem_cons] at hres hsame
      obtain ⟨⟨resolution, hok⟩, hrest⟩ := hres
      obtain ⟨resolution', hok', hurl⟩ := Resolver.exists_of_url?_eq hok hsame.1
      rw [List.foldl_cons, List.foldl_cons, claimNext_of_resolve hok, claimNext_of_resolve hok',
        note_withUsed hurl, hurl]
      exact ih hrest hsame.2 (_, _) _

theorem settle_withUsed (run : Run) (used : ImportMap) (m : OpenModule) :
    (run.withUsed used).settle m = (run.settle m).withUsed used := by
  rw [settle, settle, withUsed]
  split <;> rfl

theorem foldl_settle_withUsed (ms : List OpenModule) (run : Run) (used : ImportMap) :
    ms.foldl settle (run.withUsed used) = (ms.foldl settle run).withUsed used := by
  induction ms generalizing run with
  | nil => rfl
  | cons m ms ih => rw [List.foldl_cons, List.foldl_cons, settle_withUsed, ih]

theorem settleAll_withUsed (run : Run) (used : ImportMap) :
    (run.withUsed used).settleAll = run.settleAll.withUsed used :=
  foldl_settle_withUsed run.opened { run with opened := [] } used

/-- **A module is read alike** if its specifiers have the same URLs. -/
theorem exists_visit_withUsed {v : Visit} (hf : (run.visit files r v).fault? = none)
    (hsame : ∀ specifiers, Specifies files v.url specifiers → ∀ s ∈ specifiers,
      r'.url? s v.url false = r.url? s v.url false) (used : ImportMap) :
    ∃ used', (run.withUsed used).visit files r' v = (run.visit files r v).withUsed used' := by
  obtain ⟨hnone, specifiers, hread, hres⟩ := exists_of_fault?_visit hf
  have hsame' := hsame specifiers ⟨v, rfl, hread⟩
  have hres' : ∀ s ∈ specifiers, ∃ resolution, r'.resolve s v.url false = .ok resolution := by
    intro s hs
    obtain ⟨resolution, hok⟩ := hres s hs
    obtain ⟨resolution', hok', -⟩ := Resolver.exists_of_url?_eq hok (hsame' s hs)
    exact ⟨resolution', hok'⟩
  obtain ⟨used', hfold⟩ := exists_foldl_claimNext_withUsed hres hsame'
    ({ run with reads := run.reads ++ [v.url] }, ∅) used
  have hnone' : (run.withUsed used).fault? = none := hnone
  refine ⟨used', ?_⟩
  rw [visit_of_resolve hnone hread hres, visit_of_resolve hnone' hread hres',
    ← settleAll_withUsed]
  refine congrArg settleAll ?_
  rw [opening, opening, claimAll_eq_foldl, claimAll_eq_foldl]
  rw [show ({ run.withUsed used with reads := (run.withUsed used).reads ++ [v.url] } : Run) =
    ({ run with reads := run.reads ++ [v.url] } : Run).withUsed used from rfl, hfold]
  rfl

/-! ### Whole runs -/

theorem reads_visit (files : FileTree) (r : Resolver) (run : Run) (v : Visit) :
    (run.visit files r v).reads = run.reads ++ [v.url] := by
  rw [visit]
  cases readModule files v with
  | error e => rfl
  | ok specifiers =>
      have hgrows := @grows_foldl_claimNext r v.url specifiers
        ({ run with reads := run.reads ++ [v.url] }, ∅)
      simp only
      split
      · exact hgrows.reads_eq
      · rw [(settles_settleAll _).reads_eq]
        exact hgrows.reads_eq

/-- What has been read stays read. -/
theorem mem_reads_explore {budget : Nat} {url : String} (h : url ∈ run.reads)
    (hf : (explore files r budget run).fault? = none) :
    url ∈ (explore files r budget run).reads := by
  induction budget generalizing run with
  | zero => exact h
  | succ budget ih =>
      cases hp : run.pending with
      | nil => rwa [explore_of_pending_eq_nil hp]
      | cons v rest =>
          have hsucc := explore_succ files r (fault?_of_explore hf) hp budget
          rw [hsucc] at hf ⊢
          refine ih ?_ hf
          rw [reads_visit]
          exact List.mem_append_left _ h

/-- **A run is repeated step by step** through a map that gives the specifiers of all modules that
were read the same URLs. The induction is on the modules that may still be read. -/
theorem exists_explore_withUsed {budget : Nat}
    (hf : (explore files r budget run).fault? = none)
    (hsame : ∀ url ∈ (explore files r budget run).reads, ∀ specifiers,
      Specifies files url specifiers → ∀ s ∈ specifiers,
        r'.url? s url false = r.url? s url false) (used : ImportMap) :
    ∃ used', explore files r' budget (run.withUsed used) =
      (explore files r budget run).withUsed used' := by
  induction budget generalizing run used with
  | zero => exact ⟨used, rfl⟩
  | succ budget ih =>
      cases hp : run.pending with
      | nil =>
          have hp' : (run.withUsed used).pending = [] := hp
          rw [explore_of_pending_eq_nil hp, explore_of_pending_eq_nil hp']
          exact ⟨used, rfl⟩
      | cons v rest =>
          have hnone := fault?_of_explore hf
          have hsucc := explore_succ files r hnone hp budget
          have hsucc' := @explore_succ (run.withUsed used) files r' v rest hnone hp budget
          rw [hsucc] at hf hsame ⊢
          have hread : v.url ∈ (explore files r budget
              (visit files r { run with pending := rest } v)).reads := by
            refine mem_reads_explore ?_ hf
            rw [reads_visit]
            simp
          obtain ⟨used', hvisit⟩ := exists_visit_withUsed (fault?_of_explore hf)
            (hsame v.url hread) used
          obtain ⟨used'', hexplore⟩ := ih hf hsame used'
          refine ⟨used'', ?_⟩
          rw [hsucc', ← hexplore, ← hvisit]
          rfl

end Run

namespace Session

variable {files : FileTree} {r r' : Resolver} {session : Session}

/-- The run of an entry module is repeated through a map that gives the same URLs to its specifier
and to those of the modules that it reads. -/
theorem exists_traceFrom_withUsed {budget : Nat} {specifier url : String}
    (hs : Sound files r session) (hbase : r'.base = r.base)
    (h : (session.traceFrom files r budget specifier r.base none).1 = .ok url)
    (hentry : r'.url? specifier r.base true = r.url? specifier r.base true)
    (hsame : ∀ p ∈ (session.traceFrom files r budget specifier r.base none).2.trace.keys,
      ∀ specifiers, Specifies files p specifiers → ∀ s ∈ specifiers,
        r'.url? s p false = r.url? s p false) (used : ImportMap) :
    ∃ used', (session.withUsed used).traceFrom files r' budget specifier r'.base none =
      (.ok url, (session.traceFrom files r budget specifier r.base none).2.withUsed used') := by
  obtain ⟨resolution, hres, hurl, hf, hp⟩ := traceFrom_eq_ok h
  obtain ⟨resolution', hres', hurl'⟩ := Resolver.exists_of_url?_eq hres hentry
  obtain ⟨-, -, -, hreads⟩ := sound_traceFrom hs hres hf hp
  rw [traceFrom_of_resolve hres] at hsame
  obtain ⟨used', hexplore⟩ := Run.exists_explore_withUsed hf
    (fun p hread => hsame p (hreads p hread)) (used.record resolution')
  have hentered : (session.withUsed used).entered r' specifier resolution' =
      (session.entered r specifier resolution).withUsed (used.record resolution') := by
    rw [entered, hbase]
    exact Run.note_withUsed hurl' (Run.start session []) used specifier r.base
  rw [← hbase] at hres'
  refine ⟨used', ?_⟩
  rw [traceFrom_of_resolve hres', traceFrom_of_resolve hres, hentered, hexplore, hurl', hurl]
  exact congrArg (·, _) (Run.outcome_eq_ok_iff.2 ⟨hf, hp, rfl⟩)

/-- **Tracing several entry modules is repeated** through a map that gives the same URLs to their
specifiers and to those of all traced modules. -/
theorem exists_traceAll_withUsed {budget : Nat} {entries : List String}
    (hs : Sound files r session) (hbase : r'.base = r.base)
    (h : (session.traceAll files r budget entries).1 = .ok ())
    (hentries : ∀ e ∈ entries, r'.url? e r.base true = r.url? e r.base true)
    (hsame : ∀ p ∈ (session.traceAll files r budget entries).2.trace.keys,
      ∀ specifiers, Specifies files p specifiers → ∀ s ∈ specifiers,
        r'.url? s p false = r.url? s p false) (used : ImportMap) :
    ∃ used', (session.withUsed used).traceAll files r' budget entries =
      (.ok (), (session.traceAll files r budget entries).2.withUsed used') := by
  induction entries generalizing session used with
  | nil => exact ⟨used, rfl⟩
  | cons e entries ih =>
      obtain ⟨url, hfrom, hall⟩ := traceAll_cons_eq_ok h
      obtain ⟨resolution, hres, -, hf, hp⟩ := traceFrom_eq_ok hfrom
      have hsound : Sound files r (session.traceFrom files r budget e r.base none).2 := by
        rw [traceFrom_of_resolve hres]
        exact (sound_traceFrom hs hres hf hp).1
      rw [hall] at h hsame ⊢
      rw [List.forall_mem_cons] at hentries
      obtain ⟨-, hextends, -⟩ := sound_traceAll hsound h
      obtain ⟨used', hagain⟩ := exists_traceFrom_withUsed hs hbase hfrom hentries.1
        (fun p hp' => hsame p (hextends.mem_keys p hp')) used
      obtain ⟨used'', hrest⟩ := ih hsound h hentries.2 hsame used'
      refine ⟨used'', ?_⟩
      rw [traceAll, hagain, ← hrest]

end Session

end ImportAtlas
