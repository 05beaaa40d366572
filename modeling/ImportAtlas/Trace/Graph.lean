import ImportAtlas.Data.Digraph
import ImportAtlas.Trace.Run

/-!
# Module graphs

A trace as a graph: modules are nodes, and a module has an edge to every module that it names.

## Summary

* `Trace.graph` is the graph of a trace. A node is marked if the module has been traced, and an
  edge is labelled with the specifier; of several specifiers for one module the last counts.
-/

namespace ImportAtlas.Trace

/-- Adds a module and the modules that it names. -/
def addModule (g : Digraph Bool String) (m : String × Dict String String) : Digraph Bool String :=
  m.2.entries.foldl (fun g (specifier, target) => g.addEdge false m.1 target specifier)
    (g.addNode m.1 true)

/-- The graph of a trace. -/
def graph (trace : Trace) : Digraph Bool String := trace.entries.foldl addModule Digraph.empty

end ImportAtlas.Trace
