import Mathlib.Data.Set.Finite.Lattice
import ImportAtlas.Proofs.FiniteProjects
import ImportAtlas.Proofs.TraceSchedules

/-!
# Where tracing ends

Tracing remembers modules by their URLs, while files are found by what the URLs read. A segment of a
URL that names nothing as it stands is dropped when a reference is followed, but one that spells a
dot with an escape stays. So one file may have infinitely many URLs, and a module that refers to
itself in this way leads on forever.

For a project with finitely many files this is the only way to go on forever: entry modules lead to
finitely many modules exactly when the segments with escapes in their URLs are bounded.

## Summary

* `EscapesBounded` bounds the segments with escapes in the URLs that entry modules lead to.
* `Bounds` bounds the texts that a project begins with.

## Main results

* `Bounds.tame`: entry modules lead to tame URLs only.
* `Tracing.ends_iff_escapesBounded`: when entry modules lead to finitely many modules, and what
  tracing does then and otherwise.
* `Tracing.escapedFiles_never_traced`: a project of one file that is never traced.
-/

namespace ImportAtlas

open Relation

variable {files : FileTree} {r : Resolver} {entries : List String} {url s next : String} {n : Nat}

/-! ### Modules that are read -/

theorem Resolver.finite_leads (r : Resolver) (call : Call) : {url | r.Leads call url}.Finite :=
  Set.Subsingleton.finite fun _ h _ h' => h.unique h'

/-- A module leads to finitely many others. -/
theorem finite_nexts (files : FileTree) (r : Resolver) (url : String) :
    {next | ∃ found, Specifies files url found ∧
      ∃ s ∈ found, r.Leads (innerCall url s) next}.Finite := by
  by_cases hread : ∃ found, Specifies files url found
  · obtain ⟨found, hfound⟩ := hread
    refine ((List.finite_toSet found).biUnion fun s _ =>
      r.finite_leads (innerCall url s)).subset ?_
    rintro next ⟨found', hfound', s, hs, hleads⟩
    obtain rfl := hfound.unique hfound'
    exact Set.mem_biUnion hs hleads
  · refine Set.finite_empty.subset ?_
    rintro next ⟨found, hfound, -⟩
    exact hread ⟨found, hfound⟩

/-- The modules that entry modules lead to and that are read. -/
def Readable (files : FileTree) (r : Resolver) (entries : List String) : Set String :=
  {url | Reachable files r entries url ∧ isFileUrl url = true ∧ ∃ found, Specifies files url found}

/-- Entry modules lead to finitely many modules if finitely many of these are read. -/
theorem finite_of_readable (h : (Readable files r entries).Finite) :
    {url | Reachable files r entries url}.Finite := by
  have hentries := (List.finite_toSet entries).biUnion fun e _ => r.finite_leads (r.entryCall e)
  refine (hentries.union (h.biUnion fun url _ => finite_nexts files r url)).subset ?_
  rintro url ⟨e, he, hled⟩
  cases hled with
  | first hleads => exact Or.inl (Set.mem_biUnion he hleads)
  | @next url _ s found hled hfile hspecifies hs hleads =>
      exact Or.inr (Set.mem_biUnion ⟨⟨e, he, hled⟩, hfile, found, hspecifies⟩
        ⟨found, hspecifies, s, hs, hleads⟩)

/-! ### Bounds -/

/-- No text is longer than `n` that a project begins with: the URLs of entry modules, the specifiers
in files, and the URLs that these have through the map. -/
structure Bounds (files : FileTree) (r : Resolver) (entries : List String) (n : Nat) : Prop where
  entry : ∀ e ∈ entries, ∀ url, r.Leads (r.entryCall e) url → url.toList.length ≤ n
  specifier : ∀ s ∈ files.specifiers, s.toList.length ≤ n
  mapped : ∀ entry, r.map.Has entry → ∀ s ∈ files.specifiers,
    (r.mapped entry s).toList.length ≤ n

/-- Finitely many files are bounded. -/
theorem FileTree.FinitelyMany.exists_bounds (h : files.FinitelyMany) (r : Resolver)
    (entries : List String) : ∃ n, Bounds files r entries n := by
  have hfinite := ((List.finite_toSet entries).biUnion fun e _ =>
    r.finite_leads (r.entryCall e)).union (h.specifiers.union (r.finite_mapped h.specifiers))
  obtain ⟨n, hn⟩ := (hfinite.image fun text => text.toList.length).bddAbove
  rw [mem_upperBounds, Set.forall_mem_image] at hn
  exact ⟨n, fun e he url hleads => hn (Or.inl (Set.mem_biUnion he hleads)),
    fun s hs => hn (Or.inr (Or.inl hs)),
    fun entry hentry s hs => hn (Or.inr (Or.inr (Set.mem_image2_of_mem hentry hs)))⟩

theorem joinChars?_of_joinUrl (h : joinUrl url s = .ok next) :
    Url.joinChars? url.toList s.toList = some next.toList := by
  rw [joinUrl, Url.join?] at h
  cases hjoin : Url.joinChars? url.toList s.toList with
  | none => exact absurd h (by simp [hjoin])
  | some cs =>
      rw [hjoin] at h
      rw [← Except.ok.inj h, String.toList_ofList]

theorem prefix_of_isFileUrl (h : isFileUrl url = true) : "file:".toList <+: url.toList :=
  List.isPrefixOf_iff_prefix.1 h

/-- What a specifier of a module leads to is named by a path, or by a text of bounded length. -/
theorem Bounds.leads_cases (h : Bounds files r entries n) (hs : s ∈ files.specifiers)
    (hleads : r.Leads (innerCall url s) next) :
    (isPathSpecifier s = true ∧ Url.joinChars? url.toList s.toList = some next.toList) ∨
      next.toList.length ≤ n := by
  obtain ⟨resolution, hresolve, rfl⟩ := hleads
  rcases Resolver.resolve_cases hresolve with
    ⟨hpath, hjoin⟩ | heq | ⟨entry, hhas, heq⟩ | ⟨hentry, -⟩
  · exact Or.inl ⟨hpath, joinChars?_of_joinUrl hjoin⟩
  · exact Or.inr (heq ▸ h.specifier s hs)
  · exact Or.inr (heq ▸ h.mapped entry hhas s hs)
  · exact absurd hentry (by simp [innerCall])

/-- **Entry modules lead to tame URLs only.** -/
theorem Bounds.tame (h : Bounds files r entries n) (hreach : Reachable files r entries url) :
    Url.Tame n url.toList := by
  refine (hreach.mem_of_closed (fun e he url hleads => Or.inl (h.entry e he url hleads))
    fun url htame hfile found hspecifies s hs next hleads => ?_ :
      url ∈ {url : String | Url.Tame n url.toList})
  have hmem : s ∈ files.specifiers := ⟨url, found, hspecifies, hs⟩
  rcases h.leads_cases hmem hleads with ⟨-, hjoin⟩ | hlength
  · exact htame.joinChars? (prefix_of_isFileUrl hfile) (h.specifier s hmem) hjoin
  · exact Or.inl hlength

/-- The segments with escapes in the URLs on disk that entry modules lead to are bounded. -/
def EscapesBounded (files : FileTree) (r : Resolver) (entries : List String) : Prop :=
  ∃ m, ∀ url, Reachable files r entries url → isFileUrl url = true → Url.escapes url.toList ≤ m

/-- **Bounded escapes leave finitely many modules**, since what is read has few names. -/
theorem EscapesBounded.finite (hfiles : files.FinitelyMany) (h : EscapesBounded files r entries) :
    {url | Reachable files r entries url}.Finite := by
  obtain ⟨n, hn⟩ := hfiles.exists_bounds r entries
  obtain ⟨m, hm⟩ := h
  refine finite_of_readable ((finite_length_le
    (3 * n + 9 + (n + 4 + m + (FileTree.longestPath + 1)) * (n + 1))).subset ?_)
  rintro url ⟨hreach, hfile, found, hspecifies⟩
  obtain ⟨p, hsplit, hnames⟩ := readNames_le_of_specifies hspecifies
  have hescapes := hm url hreach hfile
  calc url.toList.length
      ≤ 3 * n + 9 + (n + 4 + Url.escapes url.toList + Url.readNames p.path) * (n + 1) :=
        (hn.tame hreach).length_le (prefix_of_isFileUrl hfile) hsplit
    _ ≤ 3 * n + 9 + (n + 4 + m + (FileTree.longestPath + 1)) * (n + 1) :=
        Nat.add_le_add_left (Nat.mul_le_mul_right _ (by omega)) _

theorem escapesBounded_of_finite (h : {url | Reachable files r entries url}.Finite) :
    EscapesBounded files r entries := by
  obtain ⟨m, hm⟩ := (h.image fun url => Url.escapes url.toList).bddAbove
  rw [mem_upperBounds, Set.forall_mem_image] at hm
  exact ⟨m, fun url hreach _ => hm hreach⟩

/-- **Paths without percent signs keep escapes bounded.** -/
theorem escapesBounded_of_plain (hfiles : files.FinitelyMany)
    (hplain : ∀ url found, Reachable files r entries url → Specifies files url found →
      ∀ s ∈ found, isPathSpecifier s = true → '%' ∉ s.toList) :
    EscapesBounded files r entries := by
  obtain ⟨n, hn⟩ := hfiles.exists_bounds r entries
  have hshort : ∀ url : String, url.toList.length ≤ n → isFileUrl url = true →
      Url.escapes url.toList ≤ n + 1 := fun url hlength hfile =>
    Nat.le_trans (Url.escapes_le (prefix_of_isFileUrl hfile)) (Nat.succ_le_succ hlength)
  refine ⟨n + 1, fun url hreach => (hreach.mem_of_closed (fun e he url hleads => ?_)
    (fun url ⟨hurl, hle⟩ hfile found hspecifies s hs next hleads => ?_) : url ∈ {url : String |
      Reachable files r entries url ∧
        (isFileUrl url = true → Url.escapes url.toList ≤ n + 1)}).2⟩
  · exact ⟨⟨e, he, .first hleads⟩, hshort url (hn.entry e he url hleads)⟩
  · refine ⟨hurl.next hfile hspecifies hs hleads, fun hnext => ?_⟩
    have hmem : s ∈ files.specifiers := ⟨url, found, hspecifies, hs⟩
    rcases hn.leads_cases hmem hleads with ⟨hpath, hjoin⟩ | hlength
    · have hpercent := hplain url found hurl hspecifies s hs hpath
      exact Nat.le_trans (Url.escapes_joinChars?_le (hn.tame hurl) (prefix_of_isFileUrl hfile)
        (hn.specifier s hmem) hpercent hjoin (prefix_of_isFileUrl hnext)) (hle hfile)
    · exact hshort next hlength hnext

/-! ### Schedules -/

namespace Tracing

variable {state : Tracing}

/-- A schedule that has succeeded has met finitely many modules. -/
theorem finite_of_succeeded (h : ReflTransGen (Step files r) (start entries) state)
    (hend : state.Succeeded) : {url | Reachable files r entries url}.Finite := by
  have hexact := (sound_of_steps h).exact_of_succeeded hend
  refine finite_of_readable ((List.finite_toSet state.session.trace.keys).subset ?_)
  exact fun url ⟨hreach, hfile, _⟩ => (hexact.mem_keys_iff url).2 ⟨hreach, hfile⟩

/-- What can be traced but leads to infinitely many modules is never traced: every schedule can go
on, and the tracing that runs reads as many modules as it may. -/
theorem never_traced (htraceable : Traceable files r entries)
    (hinfinite : ¬ {url | Reachable files r entries url}.Finite) :
    (∀ state, ReflTransGen (Step files r) (start entries) state →
      ∃ next, state.Step files r next) ∧
    ∀ budget, traceModules files r budget entries = .error .budgetExhausted := by
  have hsucceeded : ∀ state, ReflTransGen (Step files r) (start entries) state →
      ¬ state.Succeeded := fun state hsteps hend => hinfinite (finite_of_succeeded hsteps hend)
  have hfailed : ∀ state, ReflTransGen (Step files r) (start entries) state →
      ∀ error, ¬ state.Failed error := fun state hsteps error hend =>
    (sound_of_steps hsteps).not_traceable_of_failed hend htraceable
  refine ⟨fun state hsteps => ?_, fun budget => ?_⟩
  · exact (sound_of_steps hsteps).exists_step (hsucceeded state hsteps) (hfailed state hsteps)
  · rcases @exists_steps_traceAll files r entries .empty entries [] budget
      (sound_start files r entries) (Session.sound_empty files r) with
      ⟨state, hsteps, ⟨hend, -⟩ | ⟨error, hend, -⟩⟩ | ⟨hbudget, -⟩
    · exact absurd hend (hsucceeded state hsteps)
    · exact absurd hend (hfailed state hsteps error)
    · rw [traceModules]
      simp only [hbudget]
      rfl

/-- **When tracing ends.** In a project with finitely many files, entry modules lead to finitely
many modules exactly when the segments with escapes in their URLs are bounded. This is so if no path
in a module that they lead to holds a percent sign. Then every schedule ends, and the tracing that
runs ends as a schedule does if it may read enough modules. Otherwise, if all can be read and
resolved, no schedule ends, and the tracing that runs reads as many modules as it may. -/
theorem ends_iff_escapesBounded (hfiles : files.FinitelyMany) :
    ({url | Reachable files r entries url}.Finite ↔ EscapesBounded files r entries) ∧
    ((∀ url found, Reachable files r entries url → Specifies files url found →
      ∀ s ∈ found, isPathSpecifier s = true → '%' ∉ s.toList) →
        EscapesBounded files r entries) ∧
    (EscapesBounded files r entries →
      (∃ bound, ∀ (states : Nat → Tracing) (n : Nat), states 0 = start entries →
        (∀ i < n, (states i).Step files r (states (i + 1))) → n ≤ bound) ∧
      ∃ bound, ∀ budget ≥ bound, ∃ state, ReflTransGen (Step files r) (start entries) state ∧
        ((state.Succeeded ∧ traceModules files r budget entries = .ok state.session.trace) ∨
          ∃ error, state.Failed error ∧ traceModules files r budget entries = .error error)) ∧
    (¬ EscapesBounded files r entries → Traceable files r entries →
      (∀ state, ReflTransGen (Step files r) (start entries) state →
        ∃ next, state.Step files r next) ∧
      ∀ budget, traceModules files r budget entries = .error .budgetExhausted) := by
  refine ⟨⟨escapesBounded_of_finite, fun h => h.finite hfiles⟩,
    escapesBounded_of_plain hfiles, fun h => ?_, fun h htraceable => ?_⟩
  · have hfinite := h.finite hfiles
    have hreach : ∀ url, Reachable files r entries url → url ∈ hfinite.toFinset :=
      fun url hurl => hfinite.mem_toFinset.2 hurl
    exact ⟨⟨_, fun states n => length_le hreach⟩, hfinite.toFinset.card + 1,
      fun budget hbudget => exists_steps_traceModules hreach (by omega)⟩
  · exact never_traced htraceable fun hfinite => h (escapesBounded_of_finite hfinite)

/-- Two modules that import each other by paths without percent signs are traced. -/
theorem ends_cyclicFiles : cyclicFiles.FinitelyMany ∧
    EscapesBounded cyclicFiles plainResolver ["./a.js", "./b.js"] ∧
    {url | Reachable cyclicFiles plainResolver ["./a.js", "./b.js"] url}.Finite ∧
    ∃ bound, ∀ (states : Nat → Tracing) (n : Nat), states 0 = start ["./a.js", "./b.js"] →
      (∀ i < n, (states i).Step cyclicFiles plainResolver (states (i + 1))) → n ≤ bound := by
  have hfiles : cyclicFiles.FinitelyMany := FileTree.finitelyMany_ofFiles ..
  obtain ⟨hiff, hplain, hends, -⟩ := @ends_iff_escapesBounded cyclicFiles plainResolver
    ["./a.js", "./b.js"] hfiles
  have hbounded : EscapesBounded cyclicFiles plainResolver ["./a.js", "./b.js"] := by
    refine hplain fun url found hreach hspecifies s hs _ => ?_
    rcases reachable_cyclicFiles hreach with rfl | rfl
    · obtain rfl := List.mem_singleton.1 (hspecifies.unique specifies_cyclicFiles.1 ▸ hs)
      decide
    · obtain rfl := List.mem_singleton.1 (hspecifies.unique specifies_cyclicFiles.2 ▸ hs)
      decide
  exact ⟨hfiles, hbounded, hiff.2 hbounded, (hends hbounded).1⟩

/-! ### A module with infinitely many URLs -/

/-- A module that refers to itself through a segment that spells a dot. -/
def escapedFiles : FileTree :=
  FileTree.ofFiles [] [sourceFile ["p", "a.js"] "import './%2e/a.js';"]

/-- The folder in which the module is looked for after `k` references. -/
def escapedFolder (k : Nat) : List Url.Segment := "p".toList :: List.replicate k "%2e".toList

/-- The path of the module after `k` references. -/
def escapedPath (k : Nat) : List Char :=
  ['/'].intercalate ([] :: (escapedFolder k ++ ["a.js".toList]))

/-- The URL of the module after `k` references. -/
def escapedUrl (k : Nat) : String := String.ofList ("file://".toList ++ escapedPath k)

theorem toList_escapedUrl (k : Nat) : (escapedUrl k).toList = "file://".toList ++ escapedPath k :=
  String.toList_ofList

theorem mem_escapedFolder {k : Nat} {seg : Url.Segment}
    (h : seg ∈ escapedFolder k ++ ["a.js".toList]) :
    seg = "p".toList ∨ seg = "%2e".toList ∨ seg = "a.js".toList := by
  rcases List.mem_append.1 h with hmem | hmem
  · exact (List.mem_cons.1 hmem).imp id fun hmem => Or.inl (List.eq_of_mem_replicate hmem)
  · exact Or.inr (Or.inr (List.mem_singleton.1 hmem))

theorem splitOn_escapedPath (k : Nat) :
    (escapedPath k).splitOn '/' = [] :: (escapedFolder k ++ ["a.js".toList]) := by
  refine List.splitOn_intercalate '/' (fun seg hseg => ?_) (by simp)
  rcases List.mem_cons.1 hseg with rfl | hmem
  · exact List.not_mem_nil
  · rcases mem_escapedFolder hmem with rfl | rfl | rfl <;> decide

theorem exists_escapedPath_eq (k : Nat) : ∃ rest, escapedPath k = '/' :: 'p' :: rest := by
  rw [escapedPath, escapedFolder, List.cons_append]
  exact @Url.exists_intercalate_eq 'p' [] _

theorem forall_mem_escapedPath (k : Nat) :
    ∀ c ∈ escapedPath k, c ≠ '?' ∧ c ≠ '#' ∧ Url.isBreak c = false := by
  refine (Url.forall_mem_segments_iff (by decide)).1 fun seg hseg => ?_
  rw [splitOn_escapedPath] at hseg
  rcases List.mem_cons.1 hseg with rfl | hmem
  · simp
  · rcases mem_escapedFolder hmem with rfl | rfl | rfl <;> simp [Url.isBreak]

theorem joinPaths_escapedPath (k : Nat) :
    Url.joinPaths (escapedPath k) "./%2e/a.js".toList = escapedPath (k + 1) := by
  have hpath : "./%2e/a.js".toList =
      ['/'].intercalate ([".".toList, "%2e".toList] ++ ["a.js".toList]) := rfl
  have hfolder : escapedFolder (k + 1) = escapedFolder k ++ ["%2e".toList] := by
    rw [escapedFolder, List.replicate_succ']
    rfl
  rw [hpath, escapedPath, Url.joinPaths_below, escapedPath, hfolder]
  · rfl
  · intro seg hseg
    rcases mem_escapedFolder hseg with rfl | rfl | rfl <;> simp [Url.NamesBelow]
  · intro hmem
    rcases mem_escapedFolder (List.mem_append_left _ hmem) with heq | heq | heq <;>
      exact absurd heq (by decide)
  · simp [Url.NamesBelow]
  · decide

theorem joinChars?_escapedUrl (k : Nat) :
    Url.joinChars? (escapedUrl k).toList "./%2e/a.js".toList =
      some (escapedUrl (k + 1)).toList := by
  obtain ⟨rest, hrest⟩ := exists_escapedPath_eq k
  obtain ⟨rest', hrest'⟩ := exists_escapedPath_eq (k + 1)
  have href : Url.split? "file".toList "./%2e/a.js".toList =
      some (Url.pathParts "./%2e/a.js".toList) := by decide
  rw [toList_escapedUrl, toList_escapedUrl,
    Url.joinChars?_path (forall_mem_escapedPath k) (by rw [hrest]; rfl) (by decide) href,
    joinPaths_escapedPath]
  · rw [joinPaths_escapedPath, hrest']
    rfl
  · rw [joinPaths_escapedPath, hrest']
    simp

theorem leads_escapedUrl (k : Nat) :
    plainResolver.Leads (innerCall (escapedUrl k) "./%2e/a.js") (escapedUrl (k + 1)) := by
  have hjoin : joinUrl (escapedUrl k) "./%2e/a.js" = .ok (escapedUrl (k + 1)) := by
    rw [joinUrl, Url.join?, joinChars?_escapedUrl, Option.map_some, String.ofList_toList]
  have hreference : referenceUrl? "./%2e/a.js" (escapedUrl k) =
      .ok (some (escapedUrl (k + 1))) := by
    rw [referenceUrl?, if_pos (by decide), hjoin]
    rfl
  refine ⟨⟨escapedUrl (k + 1), none⟩, ?_, rfl⟩
  rw [Resolver.resolve]
  simp only [innerCall, hreference]
  rfl

/-- Every reference to the module puts one more dot into the path that is read. -/
theorem decode_escapedPath (k : Nat) :
    Url.decode (escapedPath k) = ['/'].intercalate
      ([] :: "p".toList :: (List.replicate k ['.'] ++ ["a.js".toList])) := by
  have hnil : Url.decode [] = [] := Url.decode_eq_self (by decide)
  have hfolder : Url.decode "p".toList = "p".toList := Url.decode_eq_self (by decide)
  have hfile : Url.decode "a.js".toList = "a.js".toList := Url.decode_eq_self (by decide)
  have hdot : Url.decode "%2e".toList = ['.'] := by decide +kernel
  rw [escapedPath, Url.decode_intercalate, escapedFolder, List.map_cons, List.map_append,
    List.map_cons, List.map_replicate, List.map_singleton, hnil, hfolder, hfile, hdot]
  rfl

theorem filePathOf_escapedUrl (k : Nat) : filePathOf (escapedUrl k) = .ok "/p/a.js" := by
  obtain ⟨rest, hrest⟩ := exists_escapedPath_eq k
  have hsplit := Url.split?_path (forall_mem_escapedPath k) (by rw [hrest]; rfl) []
  have hsegments : Path.segments (Url.decode (escapedPath k)) =
      [] :: "p".toList :: (List.replicate k ['.'] ++ ["a.js".toList]) := by
    rw [decode_escapedPath]
    refine List.splitOn_intercalate '/' (fun seg hseg => ?_) (by simp)
    simp only [List.mem_cons, List.mem_append, List.not_mem_nil, or_false] at hseg
    rcases hseg with rfl | rfl | hseg | rfl
    · decide
    · decide
    · rw [List.eq_of_mem_replicate hseg]
      decide
    · decide
  have hparts : Path.parts (String.ofList (Url.decode (escapedPath k))) =
      ["p".toList, "a.js".toList] := by
    rw [Path.parts, String.toList_ofList, hsegments]
    simp [Path.here]
  have hroot : Path.rootSlashes (Url.decode (escapedPath k)) = 1 := by
    obtain ⟨rest, hrest⟩ := @Url.exists_intercalate_eq 'p' []
      (List.replicate k ['.'] ++ ["a.js".toList])
    rw [decode_escapedPath]
    exact hrest ▸ rfl
  rw [filePathOf, Url.filePath?, toList_escapedUrl, hsplit]
  simp only [Option.map_some, Url.pathParts, Path.squeeze, hparts, String.toList_ofList, hroot]
  rfl

theorem specifies_escapedUrl (k : Nat) :
    Specifies escapedFiles (escapedUrl k) ["./%2e/a.js"] := by
  have hfirst : Specifies escapedFiles "file:///p/a.js" ["./%2e/a.js"] :=
    ⟨⟨"", "", "file:///p/a.js"⟩, rfl, Resolver.eq_ok_of_toOption (by decide +kernel)⟩
  obtain ⟨path, text, hpath, htext⟩ := specifies_iff.1 hfirst
  have hzero : escapedUrl 0 = "file:///p/a.js" := by decide
  rw [← hzero, filePathOf_escapedUrl] at hpath
  exact specifies_iff.2 ⟨path, text, (filePathOf_escapedUrl k).trans hpath, htext⟩

theorem leads_entry : plainResolver.Leads (plainResolver.entryCall "./a.js") (escapedUrl 0) :=
  leads_of_url? (by decide +kernel)

/-- The module is named by each of its URLs, and no other is. -/
theorem reachable_escapedFiles :
    Reachable escapedFiles plainResolver ["./a.js"] url ↔ ∃ k, url = escapedUrl k := by
  constructor
  · intro hreach
    refine (hreach.mem_of_closed (fun e he url hleads => ?_)
      fun url ⟨k, hk⟩ _ found hspecifies s hs next hleads => ?_ :
        url ∈ {url : String | ∃ k, url = escapedUrl k})
    · obtain rfl := List.mem_singleton.1 he
      exact ⟨0, hleads.unique leads_entry⟩
    · subst hk
      obtain rfl := List.mem_singleton.1 (hspecifies.unique (specifies_escapedUrl k) ▸ hs)
      exact ⟨k + 1, hleads.unique (leads_escapedUrl k)⟩
  · rintro ⟨k, rfl⟩
    induction k with
    | zero => exact ⟨_, List.mem_singleton_self _, .first leads_entry⟩
    | succ k ih =>
        have hfile : isFileUrl (escapedUrl k) = true := by
          rw [isFileUrl, toList_escapedUrl]
          rfl
        exact ih.next hfile (specifies_escapedUrl k) (List.mem_singleton_self _)
          (leads_escapedUrl k)

theorem traceable_escapedFiles : Traceable escapedFiles plainResolver ["./a.js"] := by
  refine ⟨fun e he => ?_, fun url hreach _ => ?_⟩
  · exact ⟨_, List.mem_singleton.1 he ▸ leads_entry⟩
  · obtain ⟨k, rfl⟩ := reachable_escapedFiles.1 hreach
    exact ⟨_, specifies_escapedUrl k,
      fun s hs => ⟨_, List.mem_singleton.1 hs ▸ leads_escapedUrl k⟩⟩

theorem escapedUrl_injective : Function.Injective escapedUrl := by
  intro j k h
  have hpath : escapedPath j = escapedPath k :=
    List.append_cancel_left (String.ofList_injective h)
  have hsegments := congrArg (List.splitOn '/') hpath
  rw [splitOn_escapedPath, splitOn_escapedPath] at hsegments
  simpa [escapedFolder] using congrArg List.length hsegments

/-- **A project of one file that is never traced.** Its only module has infinitely many URLs. -/
theorem escapedFiles_never_traced :
    escapedFiles.FinitelyMany ∧ Resolver.make ⟨∅, ∅⟩ "file:///p/" false = .ok plainResolver ∧
      ¬ {url | Reachable escapedFiles plainResolver ["./a.js"] url}.Finite ∧
      (∀ state, ReflTransGen (Step escapedFiles plainResolver) (start ["./a.js"]) state →
        ∃ next, state.Step escapedFiles plainResolver next) ∧
      ∀ budget, traceModules escapedFiles plainResolver budget ["./a.js"] =
        .error .budgetExhausted := by
  have hinfinite : ¬ {url | Reachable escapedFiles plainResolver ["./a.js"] url}.Finite :=
    Set.infinite_of_injective_forall_mem escapedUrl_injective
      fun k => reachable_escapedFiles.2 ⟨k, rfl⟩
  exact ⟨FileTree.finitelyMany_ofFiles .., rfl, hinfinite,
    never_traced traceable_escapedFiles hinfinite⟩

end Tracing

end ImportAtlas
