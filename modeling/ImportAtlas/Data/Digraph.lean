import ImportAtlas.Data.Dict

/-!
# Directed graphs

Graphs with named nodes, a mark on every node, and a label on every edge. There is at most one
edge from a node to another; nodes and edges keep the order in which they were added first.

## Summary

* `Digraph.addNode` and `Digraph.addEdge` build a graph; an edge brings its ends with it.
* `Digraph.edges` lists the edges by source node.
* `Digraph.cycles` lists the elementary cycles, each from its smallest name on.
-/

namespace ImportAtlas

/-- A directed graph with marks on nodes and labels on edges. -/
structure Digraph (α β : Type) where
  /-- The nodes with their marks. -/
  nodes : Dict String α
  /-- The edges out of each node: their targets with their labels. -/
  out : Dict String (Dict String β)

namespace Digraph

variable {α β : Type}

/-- The graph without nodes. -/
def empty : Digraph α β := ⟨∅, ∅⟩

/-- Whether a node is there. -/
def hasNode (g : Digraph α β) (name : String) : Bool := g.nodes.contains name

/-- Adds a node, or gives a node that is there another mark. -/
def addNode (g : Digraph α β) (name : String) (mark : α) : Digraph α β :=
  { g with nodes := g.nodes.insert name mark }

/-- Adds a node unless it is there. -/
def ensureNode (g : Digraph α β) (name : String) (mark : α) : Digraph α β :=
  if g.hasNode name then g else g.addNode name mark

/-- The targets of a node with the labels of the edges to them. -/
def targets (g : Digraph α β) (name : String) : Dict String β := g.out.getD name ∅

/-- Adds an edge, or gives an edge that is there another label. Ends that are missing are added
with the mark `mark`. -/
def addEdge (g : Digraph α β) (mark : α) (source target : String) (label : β) : Digraph α β :=
  let g := (g.ensureNode source mark).ensureNode target mark
  { g with out := g.out.insert source ((g.targets source).insert target label) }

/-- The edges, by source in the order of the nodes. -/
def edges (g : Digraph α β) : List (String × String × β) :=
  g.nodes.keys.flatMap fun source =>
    (g.targets source).entries.map fun (target, label) => (source, target, label)

/-- Whether some node has an edge to itself. -/
def hasLoop (g : Digraph α β) : Bool := g.nodes.keys.any fun name => (g.targets name).contains name

/-! ### Cycles -/

/-- The nodes among `allowed` from which one of `found` is reached along edges within `allowed`,
after `rounds` rounds of the search. -/
def reaching (g : Digraph α β) (allowed : List String) : Nat → List String → List String
  | 0, found => found
  | rounds + 1, found =>
    let more := allowed.filter fun name =>
      !found.contains name && (g.targets name).keys.any found.contains
    if more.isEmpty then found else reaching g allowed rounds (found ++ more)

/-- Extends a path, latest node first, in all ways that return to `start` within `allowed`, and
adds the cycles to `found`; the search ends once there are `limit` of them. The budget is the
number of nodes that a path may still visit. -/
def closePaths (g : Digraph α β) (allowed : List String) (start : String) (limit : Option Nat) :
    Nat → List String → List (List String) → List (List String)
  | 0, _, found => found
  | budget + 1, path, found =>
    (g.targets (path.head?.getD start)).keys.foldl (fun found target =>
      if limit.any (· ≤ found.length) then found
      else if target == start then found ++ [path.reverse]
      else if allowed.contains target && !path.contains target then
        closePaths g allowed start limit budget (target :: path) found
      else found) found

/-- The elementary cycles whose smallest node is `start`, added to `found`. -/
def cyclesFrom (g : Digraph α β) (limit : Option Nat) (found : List (List String))
    (start : String) : List (List String) :=
  let later := g.nodes.keys.filter fun name => start ≤ name
  let allowed := g.reaching later later.length [start]
  g.closePaths allowed start limit allowed.length [start] found

/-- The elementary cycles, at most `limit` of them, each from its smallest name on. -/
def cycles (g : Digraph α β) (limit : Option Nat) : List (List String) :=
  g.nodes.keys.foldl (g.cyclesFrom limit) []

end Digraph

end ImportAtlas
