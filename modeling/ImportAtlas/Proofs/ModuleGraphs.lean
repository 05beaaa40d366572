import ImportAtlas.Proofs.Dict
import ImportAtlas.Trace.Graph

/-!
# What the graph of a trace keeps

The graph of a trace has a node for every module that occurs in it, marked if it has been traced,
whether it was met as a module or as a target first. It has at most one edge from a module to
another, so that of several specifiers for one module the last one is kept. Nothing is lost exactly
if no module names another one by two specifiers; then the trace can be read off its graph.

## Summary

* `Digraph.label?` is the label of the edge from a node to another.
* `Trace.HasImport`, `Trace.LastImport`: what a trace says of a specifier, and what its graph keeps.
* `Trace.ofGraph` reads a trace off a graph.

## Main results

* `Trace.get?_nodes_graph`, `Trace.label?_graph`: the nodes and the edges of the graph of a trace.
* `Trace.graph_keeps_imports_iff`: the graph is exact, and keeps every import exactly if the
  specifiers of a module lead to distinct modules.
* `Trace.graph_loses_import`: a trace of which it does not.
-/

namespace ImportAtlas

namespace Dict

variable {α β : Type} [DecidableEq β]

/-- The values of a dictionary with the last key of each. -/
def inverse (d : Dict α β) : Dict β α :=
  (ofList (d.entries.map fun e => (e.2, e))).map fun _ e => e.1

theorem get?_inverse_eq_some_iff {d : Dict α β} {k : α} {v : β} :
    d.inverse.get? v = some k ↔
      ∃ before after, d.entries = before ++ (k, v) :: after ∧ ∀ later ∈ after, later.2 ≠ v := by
  rw [inverse, get?_map, Option.map_eq_some_iff]
  simp only [get?_ofList_map_eq_some_iff]
  constructor
  · rintro ⟨e, ⟨hlast, rfl⟩, rfl⟩
    exact hlast
  · exact fun hlast => ⟨(k, v), ⟨hlast, rfl⟩, rfl⟩

variable [DecidableEq α]

/-- A key that is last for its value has it. -/
theorem get?_of_get?_inverse {d : Dict α β} {k : α} {v : β} (h : d.inverse.get? v = some k) :
    d.get? k = some v := by
  obtain ⟨before, after, hentries, -⟩ := get?_inverse_eq_some_iff.1 h
  rw [get?_eq_some_iff, hentries]
  simp

theorem exists_get?_inverse {d : Dict α β} {k : α} {v : β} (h : d.get? k = some v) :
    ∃ last, d.inverse.get? v = some last := by
  rw [← mem_keys_iff, inverse, keys_map, mem_keys_ofList, List.map_map]
  exact List.mem_map.2 ⟨(k, v), get?_eq_some_iff.1 h, rfl⟩

/-- A dictionary whose keys have distinct values is the inverse of its inverse. -/
theorem get?_inverse_iff_of_injective {d : Dict α β}
    (h : ∀ k k' v, d.get? k = some v → d.get? k' = some v → k = k') {k : α} {v : β} :
    d.inverse.get? v = some k ↔ d.get? k = some v := by
  refine ⟨get?_of_get?_inverse, fun hk => ?_⟩
  obtain ⟨last, hlast⟩ := exists_get?_inverse hk
  rw [hlast, h last k v (get?_of_get?_inverse hlast) hk]

end Dict

/-! ### Nodes and labels -/

namespace Digraph

variable {α β : Type} (g : Digraph α β)

/-- The label of the edge from a node to another. -/
def label? (source target : String) : Option β := (g.targets source).get? target

@[simp] theorem get?_nodes_addNode (name : String) (mark : α) (x : String) :
    (g.addNode name mark).nodes.get? x = if x = name then some mark else g.nodes.get? x :=
  Dict.get?_insert _ _ _ _

@[simp] theorem label?_addNode (name : String) (mark : α) (source target : String) :
    (g.addNode name mark).label? source target = g.label? source target := rfl

theorem get?_nodes_ensureNode (name : String) (mark : α) (x : String) :
    (g.ensureNode name mark).nodes.get? x =
      (g.nodes.get? x).or (if x = name then some mark else none) := by
  rw [ensureNode]
  split
  · rename_i hnode
    obtain ⟨old, hold⟩ := Dict.contains_iff.1 hnode
    by_cases hx : x = name
    · subst hx
      rw [hold, Option.some_or]
    · rw [if_neg hx, Option.or_none]
  · rename_i hnode
    rw [get?_nodes_addNode]
    by_cases hx : x = name
    · subst hx
      have hnone : g.nodes.get? x = none := by
        rw [← Option.not_isSome_iff_eq_none, ← Dict.contains_eq_isSome]
        exact hnode
      rw [if_pos rfl, if_pos rfl, hnone, Option.none_or]
    · rw [if_neg hx, if_neg hx, Option.or_none]

theorem label?_ensureNode (name : String) (mark : α) (source target : String) :
    (g.ensureNode name mark).label? source target = g.label? source target := by
  rw [ensureNode]
  split <;> rfl

/-- An edge brings its ends with it. -/
@[simp] theorem get?_nodes_addEdge (mark : α) (source target : String) (label : β) (x : String) :
    (g.addEdge mark source target label).nodes.get? x =
      (g.nodes.get? x).or (if x = source ∨ x = target then some mark else none) := by
  show ((g.ensureNode source mark).ensureNode target mark).nodes.get? x = _
  rw [get?_nodes_ensureNode, get?_nodes_ensureNode, Option.or_assoc]
  by_cases hsource : x = source <;> simp [hsource]

/-- An edge is added with its label, all others keep theirs. -/
@[simp] theorem label?_addEdge (mark : α) (source target : String) (label : β) (x y : String) :
    (g.addEdge mark source target label).label? x y =
      if x = source ∧ y = target then some label else g.label? x y := by
  have hends := (label?_ensureNode (g.ensureNode source mark) target mark x y).trans
    (label?_ensureNode g source mark x y)
  rw [← hends]
  rw [label?, targets, addEdge, Dict.getD_eq, Dict.get?_insert]
  by_cases hx : x = source
  · subst hx
    rw [if_pos rfl, Option.getD_some, Dict.get?_insert]
    simp only [true_and]
    rfl
  · rw [if_neg hx, if_neg fun h => hx h.1]
    rfl

/-- The edges of a graph are its labels, if the source of each is a node. -/
theorem mem_edges_iff (h : ∀ source target label, g.label? source target = some label →
      source ∈ g.nodes.keys) {source target : String} {label : β} :
    (source, target, label) ∈ g.edges ↔ g.label? source target = some label := by
  rw [label?, Dict.get?_eq_some_iff, edges, List.mem_flatMap]
  constructor
  · rintro ⟨node, -, hmem⟩
    obtain ⟨e, he, heq⟩ := List.mem_map.1 hmem
    obtain ⟨rfl, rfl⟩ : node = source ∧ e = (target, label) := by simpa using heq
    exact he
  · intro he
    exact ⟨source, h source target label (Dict.get?_eq_some_iff.2 he),
      List.mem_map.2 ⟨(target, label), he, rfl⟩⟩

/-- There is at most one edge from a node to another. -/
theorem nodup_edges : (g.edges.map fun edge => (edge.1, edge.2.1)).Nodup := by
  rw [edges, List.map_flatMap]
  refine List.nodup_flatMap.2 ⟨fun source _ => ?_, g.nodes.nodup_keys.imp fun hne => ?_⟩
  · have htargets := (g.targets source).nodup_keys.map (Prod.mk_right_injective source)
    rw [List.map_map] at htargets ⊢
    exact htargets
  · refine List.disjoint_left.2 fun pair hpair hpair' => ?_
    simp only [List.map_map, List.mem_map, Function.comp_apply] at hpair hpair'
    obtain ⟨e, -, rfl⟩ := hpair
    obtain ⟨e', -, heq⟩ := hpair'
    exact hne (congrArg Prod.fst heq).symm

end Digraph

/-! ### The graph of a trace -/

namespace Trace

variable {trace : Trace} {url specifier target : String}

/-- A specifier of a module names another one. -/
def HasImport (trace : Trace) (url specifier target : String) : Prop :=
  ∃ dependencies, trace.get? url = some dependencies ∧ dependencies.get? specifier = some target

/-- A specifier is the last one by which a module names another one. -/
def LastImport (trace : Trace) (url specifier target : String) : Prop :=
  ∃ dependencies, trace.get? url = some dependencies ∧
    ∃ before after, dependencies.entries = before ++ (specifier, target) :: after ∧
      ∀ later ∈ after, later.2 ≠ target

/-- A module occurs in a trace: it has been traced, or it is named. -/
def Mentions (trace : Trace) (url : String) : Prop :=
  url ∈ trace.keys ∨ ∃ parent specifier, trace.HasImport parent specifier url

/-- No module names another one by two specifiers. -/
def Distinct (trace : Trace) : Prop :=
  ∀ url specifier specifier' target, trace.HasImport url specifier target →
    trace.HasImport url specifier' target → specifier = specifier'

/-- Two traces say the same, in whatever order. -/
structure SameImports (trace trace' : Trace) : Prop where
  keys : ∀ url, url ∈ trace.keys ↔ url ∈ trace'.keys
  imports : ∀ url specifier target,
    trace.HasImport url specifier target ↔ trace'.HasImport url specifier target

/-- The trace that a graph shows: its marked nodes, with the labels of their edges. -/
def ofGraph (g : Digraph Bool String) : Trace :=
  (g.nodes.filter fun _ traced => traced).map fun url _ => (g.targets url).inverse

/-! #### One module -/

section Module

variable (g : Digraph Bool String) {dependencies : Dict String String}

/-- A graph with the edges for some imports of a module. -/
def addImports (url : String) (imports : List (String × String)) : Digraph Bool String :=
  imports.foldl (fun g (specifier, target) => g.addEdge false url target specifier) g

theorem addImports_cons (e : String × String) (imports : List (String × String)) :
    addImports g url (e :: imports) = addImports (g.addEdge false url e.2 e.1) url imports := rfl

theorem get?_nodes_addImports {mark : Bool} (h : g.nodes.get? url = some mark)
    (imports : List (String × String)) (x : String) :
    (addImports g url imports).nodes.get? x =
      (g.nodes.get? x).or (if x ∈ imports.map Prod.snd then some false else none) := by
  induction imports generalizing g with
  | nil => simp [addImports]
  | cons e imports ih =>
      have hnode : (g.addEdge false url e.2 e.1).nodes.get? url = some mark := by
        rw [Digraph.get?_nodes_addEdge, h, Option.some_or]
      rw [addImports_cons, ih _ hnode, Digraph.get?_nodes_addEdge, Option.or_assoc]
      by_cases hx : x = url
      · rw [hx, h, Option.some_or, Option.some_or]
      · by_cases he : x = e.2 <;> simp only [hx, he, List.map_cons, List.mem_cons, or_self, true_or,
          false_or, if_true, if_false, Option.none_or, or_true, Option.some_or]

theorem label?_addImports (imports : List (String × String)) (x y : String) :
    (addImports g url imports).label? x y =
      if x = url then ((imports.map Prod.swap).reverse.lookup y).or (g.label? x y)
      else g.label? x y := by
  induction imports generalizing g with
  | nil => simp [addImports]
  | cons e imports ih =>
      obtain ⟨specifier, target⟩ := e
      rw [addImports_cons, ih, Digraph.label?_addEdge, List.map_cons, List.reverse_cons,
        List.lookup_append, Prod.swap_prod_mk, List.lookup_cons]
      by_cases hx : x = url
      · rw [if_pos hx, if_pos hx, Option.or_assoc]
        refine congrArg _ ?_
        by_cases hy : y = target
        · simp [hx, hy]
        · simp [hy, beq_eq_false_iff_ne.2 hy]
      · rw [if_neg hx, if_neg hx, if_neg fun h => hx h.1]

/-- A module is marked, whatever it was before, and the modules that it names are nodes. -/
theorem get?_nodes_addModule (x : String) :
    (addModule g (url, dependencies)).nodes.get? x = if x = url then some true else
      (g.nodes.get? x).or (if x ∈ dependencies.values then some false else none) := by
  have hnode : (g.addNode url true).nodes.get? url = some true := by simp
  refine (get?_nodes_addImports _ hnode dependencies.entries x).trans ?_
  rw [Digraph.get?_nodes_addNode]
  by_cases hx : x = url
  · rw [if_pos hx, if_pos hx, Option.some_or]
  · rw [if_neg hx, if_neg hx]
    rfl

/-- Of several specifiers of a module for one target the last one becomes the label. -/
theorem label?_addModule (x y : String) :
    (addModule g (url, dependencies)).label? x y =
      if x = url then (dependencies.inverse.get? y).or (g.label? x y) else g.label? x y := by
  refine (label?_addImports _ dependencies.entries x y).trans ?_
  rw [Digraph.label?_addNode, Dict.inverse, Dict.map_ofList, List.map_map, Dict.get?_ofList]
  rfl

end Module

/-! #### All modules -/

theorem get?_nodes_addModules (modules : List (String × Dict String String))
    (g : Digraph Bool String) (x : String) :
    (modules.foldl addModule g).nodes.get? x = if x ∈ modules.map Prod.fst then some true else
      (g.nodes.get? x).or
        (if x ∈ modules.flatMap fun m => m.2.values then some false else none) := by
  induction modules generalizing g with
  | nil => simp
  | cons m modules ih =>
      obtain ⟨url, dependencies⟩ := m
      rw [List.foldl_cons, ih, get?_nodes_addModule]
      simp only [List.map_cons, List.mem_cons, List.flatMap_cons, List.mem_append]
      by_cases hkey : x ∈ modules.map Prod.fst
      · rw [if_pos hkey, if_pos (Or.inr hkey)]
      · by_cases hurl : x = url
        · rw [if_neg hkey, if_pos hurl, if_pos (Or.inl hurl), Option.some_or]
        · rw [if_neg hkey, if_neg hurl, if_neg (not_or.2 ⟨hurl, hkey⟩), Option.or_assoc]
          by_cases hvalue : x ∈ dependencies.values <;>
            simp only [hvalue, true_or, false_or, if_true, if_false, Option.some_or, Option.none_or]

theorem label?_addModules {modules : List (String × Dict String String)}
    (hmodules : (modules.map Prod.fst).Nodup) (g : Digraph Bool String) (x y : String) :
    (modules.foldl addModule g).label? x y =
      ((modules.lookup x).bind fun dependencies => dependencies.inverse.get? y).or
        (g.label? x y) := by
  induction modules generalizing g with
  | nil => rfl
  | cons m modules ih =>
      obtain ⟨url, dependencies⟩ := m
      obtain ⟨hurl, hmodules⟩ := List.nodup_cons.1 hmodules
      rw [List.foldl_cons, ih hmodules, label?_addModule, List.lookup_cons]
      by_cases hx : x = url
      · subst hx
        have hnone : modules.lookup x = none := List.lookup_eq_none_iff.2 fun m hm =>
          bne_iff_ne.2 fun heq => hurl (List.mem_map.2 ⟨m, hm, heq.symm⟩)
        rw [if_pos rfl, hnone, beq_self_eq_true, Option.bind_none, Option.none_or, Option.bind_some]
      · rw [if_neg hx, beq_eq_false_iff_ne.2 hx]

/-- **The nodes of the graph of a trace**: the modules that have been traced are marked, and those
that are only named are not. -/
theorem get?_nodes_graph (trace : Trace) (url : String) :
    trace.graph.nodes.get? url = if url ∈ trace.keys then some true else
      if url ∈ trace.entries.flatMap fun m => m.2.values then some false else none :=
  (get?_nodes_addModules trace.entries Digraph.empty url).trans (by rw [Digraph.empty]; rfl)

/-- **The edges of the graph of a trace** have the last specifier that leads to their targets. -/
theorem label?_graph (trace : Trace) (url target : String) :
    trace.graph.label? url target =
      (trace.get? url).bind fun dependencies => dependencies.inverse.get? target :=
  (label?_addModules trace.nodup_keys Digraph.empty url target).trans (Option.or_none)

theorem mem_values_iff :
    (target ∈ trace.entries.flatMap fun m => m.2.values) ↔
      ∃ parent specifier, trace.HasImport parent specifier target := by
  rw [List.mem_flatMap]
  constructor
  · rintro ⟨⟨parent, dependencies⟩, hm, hvalue⟩
    obtain ⟨⟨specifier, target'⟩, he, rfl⟩ := List.mem_map.1 hvalue
    exact ⟨parent, specifier, dependencies, Dict.get?_eq_some_iff.2 hm, Dict.get?_eq_some_iff.2 he⟩
  · rintro ⟨parent, specifier, dependencies, hm, he⟩
    exact ⟨(parent, dependencies), Dict.get?_eq_some_iff.1 hm,
      List.mem_map.2 ⟨_, Dict.get?_eq_some_iff.1 he, rfl⟩⟩

theorem mem_keys_nodes_graph_iff : url ∈ trace.graph.nodes.keys ↔ trace.Mentions url := by
  rw [Dict.mem_keys_iff, get?_nodes_graph, Mentions, ← mem_values_iff]
  by_cases hkey : url ∈ trace.keys
  · simp [hkey]
  · by_cases hvalue : url ∈ trace.entries.flatMap fun m => m.2.values
    · rw [if_neg hkey, if_pos hvalue]
      exact iff_of_true ⟨false, rfl⟩ (Or.inr hvalue)
    · rw [if_neg hkey, if_neg hvalue]
      exact iff_of_false (by simp) (not_or.2 ⟨hkey, hvalue⟩)

theorem get?_nodes_graph_eq_true_iff :
    trace.graph.nodes.get? url = some true ↔ url ∈ trace.keys := by
  rw [get?_nodes_graph]
  split_ifs with hkey hvalue <;> simp [hkey]

theorem label?_graph_eq_some_iff :
    trace.graph.label? url target = some specifier ↔ trace.LastImport url specifier target := by
  rw [label?_graph, Option.bind_eq_some_iff]
  simp only [Dict.get?_inverse_eq_some_iff]
  rfl

theorem lastImport_iff : trace.LastImport url specifier target ↔ ∃ dependencies,
    trace.get? url = some dependencies ∧ dependencies.inverse.get? target = some specifier := by
  simp only [LastImport, Dict.get?_inverse_eq_some_iff]

theorem LastImport.imports (h : trace.LastImport url specifier target) :
    trace.HasImport url specifier target := by
  obtain ⟨dependencies, hurl, hlast⟩ := lastImport_iff.1 h
  exact ⟨dependencies, hurl, Dict.get?_of_get?_inverse hlast⟩

/-- Every import has a last one with its target. -/
theorem HasImport.exists_lastImport (h : trace.HasImport url specifier target) :
    ∃ last, trace.LastImport url last target := by
  obtain ⟨dependencies, hurl, himport⟩ := h
  obtain ⟨last, hlast⟩ := Dict.exists_get?_inverse himport
  exact ⟨last, lastImport_iff.2 ⟨dependencies, hurl, hlast⟩⟩

theorem mem_edges_graph_iff :
    (url, target, specifier) ∈ trace.graph.edges ↔ trace.LastImport url specifier target := by
  rw [Digraph.mem_edges_iff, label?_graph_eq_some_iff]
  intro source target label hlabel
  obtain ⟨dependencies, hsource, -⟩ := label?_graph_eq_some_iff.1 hlabel
  exact mem_keys_nodes_graph_iff.2 (Or.inl (Dict.mem_keys_of_get? hsource))

/-- **Every import is a last one exactly if no module names another one twice.** -/
theorem forall_lastImport_iff :
    (∀ url specifier target, trace.HasImport url specifier target →
      trace.LastImport url specifier target) ↔ trace.Distinct := by
  constructor
  · intro h url specifier specifier' target himport himport'
    have hlabel := label?_graph_eq_some_iff.2 (h url specifier target himport)
    have hlabel' := label?_graph_eq_some_iff.2 (h url specifier' target himport')
    exact Option.some.inj (hlabel.symm.trans hlabel')
  · intro h url specifier target himport
    obtain ⟨last, hlast⟩ := himport.exists_lastImport
    rwa [h url specifier last target himport hlast.imports]

/-! #### Reading a trace off a graph -/

theorem get?_ofGraph (g : Digraph Bool String) (url : String) :
    (ofGraph g).get? url =
      if g.nodes.get? url = some true then some (g.targets url).inverse else none := by
  rw [ofGraph, Dict.get?_map, Dict.get?_filter]
  cases g.nodes.get? url with
  | none => rfl
  | some traced => cases traced <;> rfl

/-- The modules that are read off the graph of a trace are those that have been traced. -/
theorem mem_keys_ofGraph_graph : url ∈ (ofGraph trace.graph).keys ↔ url ∈ trace.keys := by
  rw [← @get?_nodes_graph_eq_true_iff trace, Dict.mem_keys_iff, get?_ofGraph]
  by_cases htraced : trace.graph.nodes.get? url = some true <;> simp [htraced]

/-- A specifier of a module leads to one target, so that an edge is found by its label. -/
theorem get?_inverse_targets_graph :
    (trace.graph.targets url).inverse.get? specifier = some target ↔
      trace.LastImport url specifier target := by
  rw [← label?_graph_eq_some_iff]
  refine Dict.get?_inverse_iff_of_injective fun target target' specifier h h' => ?_
  obtain ⟨dependencies, hurl, himport⟩ := (label?_graph_eq_some_iff.1 h).imports
  obtain ⟨dependencies', hurl', himport'⟩ := (label?_graph_eq_some_iff.1 h').imports
  obtain rfl := Option.some.inj (hurl.symm.trans hurl')
  exact Option.some.inj (himport.symm.trans himport')

/-- **What is read off the graph of a trace** are the last imports. -/
theorem imports_ofGraph_graph :
    (ofGraph trace.graph).HasImport url specifier target ↔
      trace.LastImport url specifier target := by
  rw [← get?_inverse_targets_graph, HasImport, get?_ofGraph]
  constructor
  · rintro ⟨dependencies, hurl, himport⟩
    obtain ⟨-, heq⟩ := Option.ite_none_right_eq_some.1 hurl
    rwa [Option.some.inj heq]
  · intro himport
    obtain ⟨dependencies, hurl, -⟩ := get?_inverse_targets_graph.1 himport
    have htraced := get?_nodes_graph_eq_true_iff.2 (Dict.mem_keys_of_get? hurl)
    exact ⟨_, if_pos htraced, himport⟩

theorem sameImports_ofGraph_graph_iff :
    SameImports (ofGraph trace.graph) trace ↔ trace.Distinct := by
  rw [← forall_lastImport_iff]
  constructor
  · intro h url specifier target himport
    exact imports_ofGraph_graph.1 ((h.imports url specifier target).2 himport)
  · intro h
    exact ⟨fun _ => mem_keys_ofGraph_graph, fun url specifier target =>
      imports_ofGraph_graph.trans ⟨LastImport.imports, h url specifier target⟩⟩

/-- **What the graph of a trace keeps.** It has one node for every module that occurs in the trace,
marked exactly if the module has been traced; and at most one edge from a module to another, with
the last specifier for it. So it keeps every import, and the trace can be read off it, exactly if no
module names another one by two specifiers. -/
theorem graph_keeps_imports_iff (trace : Trace) :
    (trace.graph.nodes.keys.Nodup ∧ ∀ url, url ∈ trace.graph.nodes.keys ↔ trace.Mentions url) ∧
    (∀ url, trace.graph.nodes.get? url = some true ↔ url ∈ trace.keys) ∧
    ((trace.graph.edges.map fun edge => (edge.1, edge.2.1)).Nodup ∧ ∀ url target specifier,
      (url, target, specifier) ∈ trace.graph.edges ↔ trace.LastImport url specifier target) ∧
    ((∀ url specifier target, trace.HasImport url specifier target →
      (url, target, specifier) ∈ trace.graph.edges) ↔ trace.Distinct) ∧
    (SameImports (ofGraph trace.graph) trace ↔ trace.Distinct) := by
  refine ⟨⟨trace.graph.nodes.nodup_keys, fun url => mem_keys_nodes_graph_iff⟩,
    fun url => get?_nodes_graph_eq_true_iff,
    ⟨Digraph.nodup_edges _, fun url target specifier => mem_edges_graph_iff⟩, ?_,
    sameImports_ofGraph_graph_iff⟩
  simp only [mem_edges_graph_iff]
  exact forall_lastImport_iff

/-- A module that names another one by a path and by a bare specifier. -/
def twiceNamed : Trace :=
  Dict.ofList [("file:///p/a.js",
    Dict.ofList [("./b.js", "file:///p/b.js"), ("b", "file:///p/b.js")])]

/-- **An import may be lost.** The path is not in the graph, neither of the trace that is read off
it. -/
theorem graph_loses_import :
    twiceNamed.HasImport "file:///p/a.js" "./b.js" "file:///p/b.js" ∧
      twiceNamed.graph.edges = [("file:///p/a.js", "file:///p/b.js", "b")] ∧
      ofGraph twiceNamed.graph =
        Dict.ofList [("file:///p/a.js", Dict.ofList [("b", "file:///p/b.js")])] := by
  exact ⟨⟨_, rfl, by decide +kernel⟩, by decide +kernel, by decide +kernel⟩

end Trace

end ImportAtlas
