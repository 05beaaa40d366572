import ImportAtlas.Resolver.Basic
import ImportAtlas.Source.Scan

/-!
# Tracing modules

A trace lists, for every module that entry modules lead to, the modules that its specifiers name.
Modules on disk are read and analysed; any other module is only named.

## Summary

* `Session` is what tracing has found so far: the trace and the entries of the map that were used.
* `Run` is the tracing from one entry module. `Run.claim` resolves one specifier,
  `Run.visit` reads one module, and `Run.explore` reads all that wait.
* `Session.traceAll` traces several entry modules, each in a run of its own.

## Conventions

All specifiers of a module are resolved before any of the modules that they name is read. The
first fault ends a run. A module is part of the trace once all modules that it was the first to
name are. The URLs that modules lead to need not be finitely many, so a run has a budget of
modules to read.
-/

namespace ImportAtlas

/-- The URLs of modules, with the URLs that their specifiers name. -/
abbrev Trace := Dict String (Dict String String)

/-- What tracing has found. -/
structure Session where
  /-- The modules that have been traced, in the order in which their tracing ended. -/
  trace : Trace
  /-- The entries of the map that specifiers went through. -/
  used : ImportMap
  /-- The modules on disk that specifiers led to, once for every run that reaches them. -/
  found : List String
  deriving Inhabited

/-- A module that waits to be read, and where it was named first. -/
structure Visit where
  /-- The specifier that named it. -/
  specifier : String
  /-- The module in which the specifier stands. -/
  parent : String
  /-- The module. -/
  url : String
  deriving DecidableEq, Inhabited

/-- A module that has been read while modules that it named are still to be traced. -/
structure OpenModule where
  /-- The module. -/
  url : String
  /-- Its specifiers with the modules that they name. -/
  dependencies : Dict String String
  /-- The modules that have to be traced before it. -/
  awaited : List String
  deriving Inhabited

/-- The tracing from one entry module. -/
structure Run where
  /-- What has been found, in this run and before. -/
  session : Session
  /-- The modules that have been named in this run. -/
  seen : List String
  /-- The modules that are still to be read, in the order in which they were named. -/
  pending : List Visit
  /-- The modules that have been read but not traced, latest first. -/
  opened : List OpenModule
  /-- The modules that have been traced in this run. -/
  closed : List String
  /-- The modules that have been read in this run, in order. -/
  reads : List String
  /-- What went wrong first. -/
  fault? : Option Error
  deriving Inhabited

/-- The greatest number of modules that a run may read. -/
def visitLimit : Nat := 1000000

namespace Run

/-- The run of a session that has not begun; modules in `seen` count as named. -/
def start (session : Session) (seen : List String) : Run := ⟨session, seen, [], [], [], [], none⟩

/-- Notes what went wrong, unless something did before. -/
def fail (run : Run) (error : Error) : Run := { run with fault? := run.fault? <|> some error }

/-- Notes that a specifier names a module. A module on disk that is named for the first time
waits to be read. -/
def name (run : Run) (specifier parent url : String) : Run :=
  if run.seen.contains url then run
  else
    let run := { run with seen := run.seen ++ [url] }
    if isFileUrl url then
      { run with
        pending := run.pending ++ [⟨specifier, parent, url⟩]
        session := { run.session with found := run.session.found ++ [url] } }
    else run

/-- Resolves a specifier of a module. -/
def claim (r : Resolver) (isEntry : Bool) (parent : String) (run : Run) (specifier : String) :
    Run × Option String :=
  match r.resolve specifier parent isEntry with
  | .error error => (run.fail error, none)
  | .ok resolution =>
    let session := { run.session with used := run.session.used.record resolution }
    (name { run with session } specifier parent resolution.url, some resolution.url)

/-- Resolves the specifiers of a module, in order, and lists what they name. -/
def claimAll (r : Resolver) (parent : String) (run : Run) (specifiers : List String) :
    Run × Dict String String :=
  specifiers.foldl (fun (run, dependencies) specifier =>
    match run.claim r false parent specifier with
    | (run, some url) => (run, dependencies.insert specifier url)
    | (run, none) => (run, dependencies)) (run, ∅)

/-- Moves a module that awaits nothing more to the trace. -/
def settle (run : Run) (m : OpenModule) : Run :=
  if m.awaited.all run.closed.contains then
    { run with
      closed := run.closed ++ [m.url]
      session := { run.session with trace := run.session.trace.insert m.url m.dependencies } }
  else { run with opened := run.opened ++ [m] }

/-- Moves all modules that await nothing more to the trace, those read last first. -/
def settleAll (run : Run) : Run := run.opened.foldl settle { run with opened := [] }

end Run

/-- The specifiers of the module at a URL. The visit tells who asked for it. -/
def readModule (files : FileTree) (visit : Visit) : Except Error (List String) := do
  let path ← filePathOf visit.url
  match files.readText path with
  | .error .nulInPath => .error .malformedPath
  | .error fault =>
    let parent ← displayUrl visit.parent
    .error (.load visit.specifier parent fault)
  | .ok text =>
    let source := text.toList
    let analysis := Source.analyze source
    match analysis.fault? with
    | some fault => .error (.analysis path fault.position)
    | none => pure (analysis.specifiers source).eraseDups

namespace Run

/-- Reads a module and resolves its specifiers. -/
def visit (files : FileTree) (r : Resolver) (run : Run) (v : Visit) : Run :=
  let run := { run with reads := run.reads ++ [v.url] }
  match readModule files v with
  | .error error => run.fail error
  | .ok specifiers =>
    let before := run.pending.length
    let (run, dependencies) := run.claimAll r v.url specifiers
    let awaited := (run.pending.drop before).map Visit.url
    if run.fault?.isSome then run
    else settleAll { run with opened := ⟨v.url, dependencies, awaited⟩ :: run.opened }

/-- Reads the modules that wait, in the order in which they were named, until none is left, one is
at fault, or the budget is spent. -/
def explore (files : FileTree) (r : Resolver) : Nat → Run → Run
  | 0, run => run
  | budget + 1, run =>
    if run.fault?.isSome then run
    else match run.pending with
      | [] => run
      | v :: rest => explore files r budget (visit files r { run with pending := rest } v)

/-- What a run that has ended found out: its entry module, or what went wrong. -/
def outcome (run : Run) (url? : Option String) : Except Error String :=
  match run.fault?, run.pending, url? with
  | some error, _, _ => .error error
  | none, [], some url => .ok url
  | none, _, _ => .error .budgetExhausted

end Run

namespace Session

/-- The session that has found nothing. -/
def empty : Session := ⟨∅, ∅, []⟩

/-- Resolves a specifier without reading its module. -/
def resolve (r : Resolver) (session : Session) (specifier parent : String) (isEntry : Bool) :
    Except Error String × Session :=
  match r.resolve specifier parent isEntry with
  | .ok resolution => (.ok resolution.url, { session with used := session.used.record resolution })
  | .error error => (.error error, session)

/-- Resolves a specifier and traces the module that it names. Without a list of modules that have
been named before, it is an entry module. -/
def traceFrom (files : FileTree) (r : Resolver) (budget : Nat) (session : Session)
    (specifier parent : String) (seen? : Option (List String)) : Except Error String × Session :=
  let run := Run.start session (seen?.getD [])
  let (run, url?) := run.claim r seen?.isNone parent specifier
  let run := run.explore files r budget
  (run.outcome url?, run.session)

/-- Traces entry modules, each in a run of its own, until one is at fault. -/
def traceAll (files : FileTree) (r : Resolver) (budget : Nat) :
    Session → List String → Except Error Unit × Session
  | session, [] => (.ok (), session)
  | session, specifier :: more =>
    match session.traceFrom files r budget specifier r.base none with
    | (.ok _, session) => traceAll files r budget session more
    | (.error error, session) => (.error error, session)

end Session

/-- The trace of entry modules. -/
def traceModules (files : FileTree) (r : Resolver) (budget : Nat) (entries : List String) :
    Except Error Trace :=
  let (outcome, session) := Session.empty.traceAll files r budget entries
  outcome.map fun _ => session.trace

/-- The part of the map that the trace of entry modules needs. -/
def filterMap (files : FileTree) (r : Resolver) (budget : Nat) (entries : List String) :
    Except Error ImportMap :=
  let (outcome, session) := Session.empty.traceAll files r budget entries
  outcome.map fun _ => session.used.clean

end ImportAtlas
