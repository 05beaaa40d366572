import ImportAtlas.Json.Printer
import ImportAtlas.Trace.Graph

/-!
# Trace documents

The written forms of a trace: an object of objects in JSON, and its graph in JSON or in the DOT
language.

## Summary

* `Trace.toValue` and `Trace.toJson` write the trace itself; the latter sorts all keys.
* `Trace.graphJson` writes nodes and edges with their attributes.
* `Trace.dot` writes the graph for graph drawing programs.
-/

namespace ImportAtlas.Trace

/-! ### JSON -/

/-- The trace as an object. -/
def toValue (trace : Trace) : Value :=
  .object (trace.entries.map fun (url, dependencies) =>
    (url, .object (dependencies.entries.map fun (specifier, target) =>
      (specifier, .string target))))

/-- The trace with its URLs and the specifiers of every module in order. -/
def inOrder (trace : Trace) : Trace :=
  Dict.sorted (Dict.map (fun _ dependencies => dependencies.sorted) trace)

/-- The trace as a JSON text with sorted keys. -/
def toJson (trace : Trace) : String := Json.pretty trace.inOrder.toValue

/-- A node as an object. -/
def nodeValue (node : String × Bool) : Value :=
  .object [("traced", .bool node.2), ("id", .string node.1)]

/-- An edge as an object. -/
def edgeValue (edge : String × String × String) : Value :=
  .object [("specifier", .string edge.2.2), ("source", .string edge.1),
    ("target", .string edge.2.1)]

/-- The graph of a trace as an object. -/
def graphValue (trace : Trace) : Value :=
  .object [
    ("directed", .bool true),
    ("multigraph", .bool false),
    ("graph", .object []),
    ("nodes", .array (trace.graph.nodes.entries.map nodeValue)),
    ("edges", .array (trace.graph.edges.map edgeValue))]

/-- The graph of a trace as a JSON text. -/
def graphJson (trace : Trace) : String := Json.pretty trace.graphValue

/-! ### DOT -/

/-- Whether a text is an identifier of the DOT language. -/
def isDotName (s : String) : Bool :=
  match s.toList with
  | [] => false
  | c :: rest => (c == '_' || c.isAlpha) && rest.all fun c => c == '_' || c.isAlphanum

/-- A name in the DOT language, between quotes unless it is an identifier. -/
def dotName (s : String) : String := if isDotName s then s else "\"" ++ s ++ "\""

/-- The line of a node. -/
def dotNode (node : String × Bool) : String :=
  dotName node.1 ++ " [traced=" ++ (if node.2 then "True" else "False") ++ "];\n"

/-- The line of an edge. -/
def dotEdge (edge : String × String × String) : String :=
  dotName edge.1 ++ " -> " ++ dotName edge.2.1 ++ " [specifier=" ++ dotName edge.2.2 ++ "];\n"

/-- The graph of a trace in the DOT language. A graph without loops is said to be strict. -/
def dot (trace : Trace) : String :=
  (if trace.graph.hasLoop then "digraph \x7b\n" else "strict digraph \x7b\n") ++
    String.join (trace.graph.nodes.entries.map dotNode) ++
    String.join (trace.graph.edges.map dotEdge) ++ "\x7d\n"

end ImportAtlas.Trace
