import ImportAtlas.Proofs.Cleaning
import ImportAtlas.Proofs.Replay
import ImportAtlas.Proofs.Sufficiency

/-!
# When a filtered map traces alike

Filtering keeps the entries that a trace went through and cleans the map of these. A specifier
whose entry stays finds the same URL: all that is gone are entries that did not decide about it.
So only the specifiers whose entry was redundant among those that were used may go astray, and the
trace is the same exactly when they do not.

## Main results

* `Resolver.url?_eq_of_accounts`: a specifier whose entry stays finds the same URL.
* `traceModules_filterMap_iff`: when tracing through a filtered map gives the same trace.
* `filterMap_changes_trace`: a trace that is lost.
-/

namespace ImportAtlas

/-! ### Entries that stay -/

namespace ImportMap

/-- The entries of a clean map are those of the map that are not redundant in what is left of
their scope. -/
theorem has_clean_iff {map : ImportMap} {entry : MapEntry} :
    map.clean.Has entry ↔ map.Has entry ∧ ∀ q, entry.scope? = some q →
      ¬ map.Redundant q (map.cleanScope q (map.scope q)) entry.key entry.target := by
  obtain ⟨scope?, key, target⟩ := entry
  cases scope? with
  | none =>
      show map.clean.imports.get? key = some target ↔ map.imports.get? key = some target ∧ _
      rw [get?_imports_clean]
      simp
  | some q =>
      show (map.clean.scope q).get? key = some target ↔ (map.scope q).get? key = some target ∧ _
      rw [get?_scope_clean, get?_cleanScope_eq_some_iff]
      simp

/-- A clean part of a map is a part of it. -/
theorem Within.clean {used : ImportMap} {r : Resolver} (h : used.Within r) :
    used.clean.Within r where
  has entry he := h.has entry (has_clean_iff.1 he).1
  counts q hq := h.counts q (mem_keys_scopes_of_clean hq)

end ImportMap

theorem Resolver.exists_make_clean_of_within {map used : ImportMap} {base : String}
    {relativeFallback : Bool} {r : Resolver} (h : Resolver.make map base relativeFallback = .ok r)
    (hw : used.Within r) : ∃ r', Resolver.make used.clean base relativeFallback = .ok r' :=
  Resolver.exists_make_of_within h hw.clean

/-! ### Filtering -/

/-- A specifier went through an entry that is redundant among the entries that were used. -/
def Resolver.LosesEntry (r : Resolver) (used : ImportMap) (specifier parent : String)
    (isEntry : Bool) : Prop :=
  ∃ resolution q key target, r.resolve specifier parent isEntry = .ok resolution ∧
    resolution.entry? = some ⟨some q, key, target⟩ ∧
    used.Redundant q (used.cleanScope q (used.scope q)) key target

/-- The specifiers of traced modules find the same URLs when their entry is gone. -/
def Resolver.KeepsDependencies (r r' : Resolver) (used : ImportMap) (trace : Trace) : Prop :=
  ∀ url dependencies, trace.get? url = some dependencies → ∀ s ∈ dependencies.keys,
    r.LosesEntry used s url false → r'.url? s url false = r.url? s url false

/-- The specifiers of entry modules find the same URLs when their entry is gone. -/
def Resolver.KeepsEntries (r r' : Resolver) (used : ImportMap) (entries : List String) : Prop :=
  ∀ e ∈ entries, r.LosesEntry used e r.base true → r'.url? e r.base true = r.url? e r.base true

section Filtering

variable {files : FileTree} {map used : ImportMap} {base : String} {relativeFallback : Bool}
  {r r' : Resolver} {budget : Nat} {entries : List String} {trace : Trace}

theorem traceModules_eq_ok_iff :
    traceModules files r budget entries = .ok trace ↔
      (Session.empty.traceAll files r budget entries).1 = .ok () ∧
        (Session.empty.traceAll files r budget entries).2.trace = trace := by
  rw [traceModules]
  cases hall : Session.empty.traceAll files r budget entries with
  | mk outcome session => cases outcome <;> simp [Except.map]

theorem filterMap_eq_ok (h : (Session.empty.traceAll files r budget entries).1 = .ok ()) :
    filterMap files r budget entries =
      .ok (Session.empty.traceAll files r budget entries).2.used.clean := by
  rw [filterMap]
  simp only [h]
  rfl

/-- A specifier whose entry was noted finds the same URL through a clean map, unless its entry is
gone. -/
theorem Resolver.url?_eq_of_accounts (h : make map base relativeFallback = .ok r)
    (hw : used.Within r) (h' : make used.clean base relativeFallback = .ok r')
    {specifier parent : String} {isEntry : Bool} {resolution : Resolution}
    (hres : r.resolve specifier parent isEntry = .ok resolution)
    (hacc : used.Accounts resolution)
    (hkeeps : r.LosesEntry used specifier parent isEntry →
      r'.url? specifier parent isEntry = r.url? specifier parent isEntry) :
    r'.url? specifier parent isEntry = r.url? specifier parent isEntry := by
  by_cases hlost : r.LosesEntry used specifier parent isEntry
  · exact hkeeps hlost
  · refine url?_eq_of_has h hw.clean h' hres fun entry he => ?_
    refine ImportMap.has_clean_iff.2 ⟨hacc entry he, fun q hq hred => hlost ?_⟩
    obtain ⟨scope?, key, target⟩ := entry
    obtain rfl : scope? = some q := hq
    exact ⟨resolution, q, key, target, hres, he, hred⟩

/-- Maps that give one trace find the same URLs for the specifiers in it. -/
theorem Session.Sound.url?_eq {session session' : Session} (hs : session.Sound files r)
    (hs' : session'.Sound files r') (htrace : session'.trace = session.trace) {url : String}
    {dependencies : Dict String String} (hget : session.trace.get? url = some dependencies)
    {s : String} (hmem : s ∈ dependencies.keys) :
    r'.url? s url false = r.url? s url false := by
  obtain ⟨specifiers, -, hres, hkeys⟩ := hs.traced url dependencies hget
  rw [← htrace] at hget
  obtain ⟨specifiers', -, hres', hkeys'⟩ := hs'.traced url dependencies hget
  obtain ⟨resolution, hok, hurl, -⟩ := hres s (hkeys s hmem)
  obtain ⟨resolution', hok', hurl', -⟩ := hres' s (hkeys' s hmem)
  rw [hurl] at hurl'
  rw [Resolver.url?, Resolver.url?, hok, hok', Resolver.outcome, Resolver.outcome,
    Option.some.inj hurl']

/-- **When tracing through a filtered map gives the same trace.** If a trace succeeds, so does the
filtering; and the filtered map gives the same trace, with the same entry modules, exactly when the
specifiers that lose their entry find the same URLs without it. For the trace alone the condition
on the specifiers in it is necessary. -/
theorem traceModules_filterMap_iff (h : Resolver.make map base relativeFallback = .ok r)
    (htrace : traceModules files r budget entries = .ok trace) :
    ∃ used r', filterMap files r budget entries = .ok used.clean ∧
      Resolver.make used.clean base relativeFallback = .ok r' ∧
      ((traceModules files r' budget entries = .ok trace ∧
          ∀ e ∈ entries, r'.url? e r.base true = r.url? e r.base true) ↔
        r.KeepsEntries r' used entries ∧ r.KeepsDependencies r' used trace) ∧
      (traceModules files r' budget entries = .ok trace →
        r.KeepsDependencies r' used trace) := by
  obtain ⟨hall, rfl⟩ := traceModules_eq_ok_iff.1 htrace
  obtain ⟨hsound, -, hentries⟩ := Session.sound_traceAll (Session.sound_empty files r) hall
  obtain ⟨r', h'⟩ := Resolver.exists_make_clean_of_within h hsound.within
  have hneeded : traceModules files r' budget entries =
      .ok (Session.empty.traceAll files r budget entries).2.trace →
      ∀ url dependencies,
        (Session.empty.traceAll files r budget entries).2.trace.get? url = some dependencies →
        ∀ s ∈ dependencies.keys, r'.url? s url false = r.url? s url false := by
    intro hagain url dependencies hget s hs
    obtain ⟨hall', htrace'⟩ := traceModules_eq_ok_iff.1 hagain
    have hsound' := (Session.sound_traceAll (Session.sound_empty files r') hall').1
    exact hsound.url?_eq hsound' htrace' hget hs
  refine ⟨_, r', filterMap_eq_ok hall, h', ⟨?_, ?_⟩, ?_⟩
  · rintro ⟨hagain, hsame⟩
    exact ⟨fun e he _ => hsame e he, fun url dependencies hget s hs _ =>
      hneeded hagain url dependencies hget s hs⟩
  · rintro ⟨hkeepsEntries, hkeeps⟩
    have hsame : ∀ e ∈ entries, r'.url? e r.base true = r.url? e r.base true := by
      intro e he
      obtain ⟨resolution, hres, hacc⟩ := hentries e he
      exact Resolver.url?_eq_of_accounts h hsound.within h' hres hacc (hkeepsEntries e he)
    refine ⟨?_, hsame⟩
    have hbase : r'.base = r.base := by
      rw [Resolver.base_of_make h', Resolver.base_of_make h]
    have hdeps : ∀ url ∈ (Session.empty.traceAll files r budget entries).2.trace.keys,
        ∀ specifiers, Specifies files url specifiers → ∀ s ∈ specifiers,
          r'.url? s url false = r.url? s url false := by
      intro url hurl specifiers hspec s hs
      obtain ⟨dependencies, hget⟩ := Dict.mem_keys_iff.1 hurl
      obtain ⟨specifiers', hspec', hres, -⟩ := hsound.traced url dependencies hget
      rw [hspec.unique hspec'] at hs
      obtain ⟨resolution, hok, hurl', hacc⟩ := hres s hs
      exact Resolver.url?_eq_of_accounts h hsound.within h' hok hacc
        (hkeeps url dependencies hget s (Dict.mem_keys_of_get? hurl'))
    obtain ⟨used', hagain⟩ := Session.exists_traceAll_withUsed (Session.sound_empty files r) hbase
      hall hsame hdeps ∅
    have hempty : Session.empty.withUsed ∅ = Session.empty := rfl
    rw [hempty] at hagain
    refine traceModules_eq_ok_iff.2 ?_
    rw [hagain]
    exact ⟨rfl, rfl⟩
  · exact fun hagain url dependencies hget s hs _ => hneeded hagain url dependencies hget s hs

end Filtering

/-- A file, by the names on the way to it and its text. -/
def sourceFile (names : List String) (text : String) : List Path.Segment × List UInt8 :=
  (names.map String.toList, Utf8.encode text)

/-- Two modules, the second one in the folder of a scope. -/
def coveredFiles : FileTree := FileTree.ofFiles [] [
  sourceFile ["p", "main.js"] "import 'a/c';", sourceFile ["p", "s", "m.js"] "import 'a/b';",
  sourceFile ["p", "x", "b"] "", sourceFile ["p", "x", "c"] ""]

/-- What the two modules lead to. -/
def coveredTrace : Trace := Dict.ofList [
  ("file:///p/x/c", ∅), ("file:///p/main.js", Dict.ofList [("a/c", "file:///p/x/c")]),
  ("file:///p/x/b", ∅), ("file:///p/s/m.js", Dict.ofList [("a/b", "file:///p/x/b")])]

theorem traceModules_coveredFiles :
    traceModules coveredFiles Resolver.coveredResolver visitLimit ["./main.js", "./s/m.js"] =
      .ok coveredTrace :=
  Resolver.eq_ok_of_toOption (by decide +kernel)

theorem filterMap_coveredFiles :
    filterMap coveredFiles Resolver.coveredResolver visitLimit ["./main.js", "./s/m.js"] =
      .ok Resolver.coveredMap.clean := by
  have hused : (Session.empty.traceAll coveredFiles Resolver.coveredResolver visitLimit
      ["./main.js", "./s/m.js"]).2.used = Resolver.coveredMap := by decide +kernel
  rw [filterMap_eq_ok (traceModules_eq_ok_iff.1 traceModules_coveredFiles).1, hused]

/-- A filtered map that has lost its scope gives the same trace. -/
theorem traceModules_filterMap_coveredFiles :
    ∃ filtered r', filterMap coveredFiles Resolver.coveredResolver visitLimit
        ["./main.js", "./s/m.js"] = .ok filtered ∧
      Resolver.make filtered "file:///p/" false = .ok r' ∧
      traceModules coveredFiles r' visitLimit ["./main.js", "./s/m.js"] = .ok coveredTrace := by
  obtain ⟨used, r', hfilter, h', hiff, -⟩ :=
    traceModules_filterMap_iff Resolver.make_coveredMap traceModules_coveredFiles
  refine ⟨used.clean, r', hfilter, h', (hiff.2 ⟨fun e he _ => ?_, ?_⟩).1⟩
  · have hbare : ∀ e ∈ ["./main.js", "./s/m.js"], isBareSpecifier e = false := by decide +kernel
    exact Resolver.url?_of_not_bare (hbare e he) _ r' _ true
  · rw [filterMap_coveredFiles] at hfilter
    rw [← Except.ok.inj hfilter, Resolver.make_clean_coveredMap] at h'
    obtain rfl := Except.ok.inj h'
    intro url dependencies hget s hs _
    have hall : ∀ m ∈ coveredTrace.entries, ∀ s ∈ m.2.keys, ∀ u ∈ m.2.get? s,
        (Resolver.url? ⟨⟨Resolver.coveredMap.imports, ∅⟩, "file:///p/", false, ∅⟩ s m.1
            false).toOption = some (some u) ∧
          (Resolver.coveredResolver.url? s m.1 false).toOption = some (some u) := by
      decide +kernel
    obtain ⟨u, hu⟩ := Dict.mem_keys_iff.1 hs
    obtain ⟨hafter, hbefore⟩ := hall (url, dependencies) (Dict.get?_eq_some_iff.1 hget) s hs u hu
    rw [Resolver.eq_ok_of_toOption hafter, Resolver.eq_ok_of_toOption hbefore]

/-- A map with a folder in a scope, a longer key in that folder at the top level, and a different
target for it. -/
def maskingModules : ImportMap :=
  ⟨Dict.ofList [("d/", "./x/"), ("d/e.js", "./y.js")],
    Dict.ofList [("./s/", Dict.ofList [("d/", "./x/")])]⟩

/-- A module that goes through both entries at the top level, and one that goes through the entry
of the scope. -/
def maskingFiles : FileTree := FileTree.ofFiles [] [
  sourceFile ["p", "main.js"] "import 'd/f.js';\nimport 'd/e.js';\n",
  sourceFile ["p", "s", "a.js"] "import 'd/e.js';\n", sourceFile ["p", "x", "e.js"] "",
  sourceFile ["p", "x", "f.js"] "", sourceFile ["p", "y.js"] ""]

/-- **Filtering may change a trace**: the folder of the scope is redundant, and without it the
module in the scope is sent to another file. -/
theorem filterMap_changes_trace :
    ∃ r r' filtered trace trace', Resolver.make maskingModules "file:///p/" false = .ok r ∧
      traceModules maskingFiles r visitLimit ["./main.js", "./s/a.js"] = .ok trace ∧
      filterMap maskingFiles r visitLimit ["./main.js", "./s/a.js"] = .ok filtered ∧
      Resolver.make filtered "file:///p/" false = .ok r' ∧
      traceModules maskingFiles r' visitLimit ["./main.js", "./s/a.js"] = .ok trace' ∧
      trace.get? "file:///p/s/a.js" = some (Dict.ofList [("d/e.js", "file:///p/x/e.js")]) ∧
      trace'.get? "file:///p/s/a.js" = some (Dict.ofList [("d/e.js", "file:///p/y.js")]) := by
  have hused : (Session.empty.traceAll maskingFiles ⟨maskingModules, "file:///p/", false,
      Dict.ofList [("file:///p/s/", "./s/")]⟩ visitLimit ["./main.js", "./s/a.js"]).2.used =
        maskingModules := by decide +kernel
  have hclean : maskingModules.clean = ⟨maskingModules.imports, ∅⟩ := by
    refine ImportMap.clean_eq_of_cleanScope_eq_empty (by decide +kernel) ?_
    rw [ImportMap.cleanScope, ImportMap.keysByLength_of_pairwise (by decide)]
    decide +kernel
  have htrace : traceModules maskingFiles ⟨maskingModules, "file:///p/", false,
      Dict.ofList [("file:///p/s/", "./s/")]⟩ visitLimit ["./main.js", "./s/a.js"] =
        .ok (Dict.ofList [("file:///p/x/f.js", ∅), ("file:///p/y.js", ∅),
          ("file:///p/main.js", Dict.ofList [("d/f.js", "file:///p/x/f.js"),
            ("d/e.js", "file:///p/y.js")]),
          ("file:///p/x/e.js", ∅),
          ("file:///p/s/a.js", Dict.ofList [("d/e.js", "file:///p/x/e.js")])]) :=
    Resolver.eq_ok_of_toOption (by decide +kernel)
  refine ⟨_, ⟨⟨maskingModules.imports, ∅⟩, "file:///p/", false, ∅⟩, _, _,
    Dict.ofList [("file:///p/x/f.js", ∅), ("file:///p/y.js", ∅),
      ("file:///p/main.js", Dict.ofList [("d/f.js", "file:///p/x/f.js"),
        ("d/e.js", "file:///p/y.js")]),
      ("file:///p/s/a.js", Dict.ofList [("d/e.js", "file:///p/y.js")])],
    Resolver.make_eq_ok_iff.2 ⟨_, Resolver.eq_ok_of_toOption (by decide +kernel), rfl⟩, htrace,
    filterMap_eq_ok (traceModules_eq_ok_iff.1 htrace).1, ?_,
    Resolver.eq_ok_of_toOption (by decide +kernel), by decide +kernel, by decide +kernel⟩
  rw [hused, hclean]
  exact Resolver.make_eq_ok_iff.2 ⟨[], rfl, rfl⟩

end ImportAtlas
