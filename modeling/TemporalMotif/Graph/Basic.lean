import TemporalMotif.Time.Index

/-! # Temporal graphs

A temporal graph is a labelled multigraph, directed or not, whose edges carry a timestamp and a
label. Edges are kept in arrival order and named by their position. Each node has time indices
of its links: outgoing and incoming ones in a directed graph, reciprocal ones in an undirected
graph. Adding a node creates its indices; adding an edge creates the indices of its ends as
needed, so an edge may name a node that was never added: it has links but no label. -/

namespace TemporalMotif

/-- The side of a node that a link is seen from. -/
inductive Direction where
  | outgoing
  | incoming
  | reciprocal
deriving DecidableEq, Repr

namespace Direction

/-- The three directions in their fixed order. -/
def all : List Direction := [outgoing, incoming, reciprocal]

/-- The same link seen from its other end. -/
def reversed : Direction → Direction
  | outgoing => incoming
  | incoming => outgoing
  | reciprocal => reciprocal

/-- The direction's name: `OUT`, `IN` or `RECIP`. -/
def name : Direction → String
  | outgoing => "OUT"
  | incoming => "IN"
  | reciprocal => "RECIP"

@[simp] theorem reversed_reversed (d : Direction) : d.reversed.reversed = d := by
  cases d <;> rfl

end Direction

/-- A timestamped, labelled edge. -/
structure Edge where
  source : Nat
  dest : Nat
  time : Int
  label : Nat
deriving DecidableEq, Repr

/-- Time indices by node, in the order the nodes were first seen. -/
abbrev IndexTable := List (Nat × TimeIndex)

namespace IndexTable

/-- The index of `node`, if it has one. -/
def get? (tb : IndexTable) (node : Nat) : Option TimeIndex := tb.lookup node

/-- Gives `node` an empty index unless it has one. -/
def touch (tb : IndexTable) (node : Nat) : IndexTable :=
  if tb.any (·.1 == node) then tb else tb ++ [(node, TimeIndex.empty)]

/-- Records at `owner` a link to `nbr` through edge `e` at time `t`. -/
def link : IndexTable → Nat → Int → Nat → Nat → IndexTable
  | [], owner, t, nbr, e => [(owner, TimeIndex.empty.link t nbr e)]
  | (n, ix) :: tb, owner, t, nbr, e =>
    if n = owner then (n, ix.link t nbr e) :: tb else (n, ix) :: link tb owner t nbr e

end IndexTable

/-- A temporal graph: labelled nodes in insertion order, the edges in arrival order, and the
time indices of every node. -/
structure Graph where
  directed : Bool
  nodes : List (Nat × Nat) := []
  edges : Array Edge := #[]
  outgoing : IndexTable := []
  incoming : IndexTable := []
  reciprocal : IndexTable := []

namespace Graph

/-- The empty graph. -/
def empty (directed : Bool) : Graph := { directed }

/-- The label of `node`, if it was added. -/
def label? (g : Graph) (node : Nat) : Option Nat := g.nodes.lookup node

/-- Whether `node` was added. -/
def containsNode (g : Graph) (node : Nat) : Bool := g.nodes.any (·.1 == node)

/-- The number of nodes. -/
def nodeCount (g : Graph) : Nat := g.nodes.length

/-- The number of edges. -/
def edgeCount (g : Graph) : Nat := g.edges.size

/-- Adds `node` with `label`; a node that is there keeps its first label. -/
def addNode (g : Graph) (node label : Nat) : Graph :=
  let g := if g.containsNode node then g else { g with nodes := g.nodes ++ [(node, label)] }
  if g.directed then
    { g with outgoing := g.outgoing.touch node, incoming := g.incoming.touch node }
  else
    { g with reciprocal := g.reciprocal.touch node }

/-- Appends an edge and links its ends; the new edge's id is the old edge count. -/
def addEdge (g : Graph) (source dest : Nat) (time : Int) (label : Nat) : Graph :=
  let e := g.edges.size
  let g := { g with edges := g.edges.push ⟨source, dest, time, label⟩ }
  if g.directed then
    { g with
      outgoing := g.outgoing.link source time dest e
      incoming := g.incoming.link dest time source e }
  else
    { g with reciprocal := (g.reciprocal.link source time dest e).link dest time source e }

/-- The time index of `node` in direction `d`, if the node has one. -/
def adjacency (g : Graph) (node : Nat) : Direction → Option TimeIndex
  | .outgoing => g.outgoing.get? node
  | .incoming => g.incoming.get? node
  | .reciprocal => g.reciprocal.get? node

/-- The time index of `node` in direction `d`, empty if it has none. -/
def indexOf (g : Graph) (node : Nat) (d : Direction) : TimeIndex :=
  (g.adjacency node d).getD TimeIndex.empty

/-- Some link of `a`, in any direction and at any time, goes to `b`. -/
def areNeighbours (g : Graph) (a b : Nat) : Bool :=
  Direction.all.any fun d => (g.indexOf a d).hasNeighbour b

/-- How many members of `set` are neighbours of `node`, a repeated member counting each time. -/
def relativeDegree (g : Graph) (node : Nat) (set : List Nat) : Nat :=
  set.countP (g.areNeighbours node)

/-- The direction in which an edge is looked up from its source. -/
def forward (g : Graph) : Direction := if g.directed then .outgoing else .reciprocal

/-- The edge that `source` links to `dest` at time `t` in direction `d`, if any. -/
def linkAt? (g : Graph) (source : Nat) (d : Direction) (t : Int) (dest : Nat) : Option Nat := do
  let m ← (g.indexOf source d).at? t
  m.links.edgeTo? dest

/-- The ids of the edges that a later parallel edge with the same timestamp has replaced in
the indices. -/
def shadowed (g : Graph) : List Nat :=
  (List.range g.edges.size).filter fun i =>
    match g.edges[i]? with
    | some e => g.linkAt? e.source g.forward e.time e.dest != some i
    | none => false

/-- The labels of the nodes, each once, in first-seen order. -/
def nodeLabels (g : Graph) : List Nat := (g.nodes.map (·.2)).eraseDups

/-- The labels of the edges, each once, in first-seen order. -/
def edgeLabels (g : Graph) : List Nat := (g.edges.toList.map (·.label)).eraseDups

/-- The ends of an edge as shown: an undirected edge shows its smaller end first. -/
def shownEnds (g : Graph) (e : Edge) : Nat × Nat :=
  if g.directed || decide (e.source < e.dest) then (e.source, e.dest) else (e.dest, e.source)

/-- The graph's own text: a `NODES:` section of `id:label` lines and an `EDGES:` section of
`(source,dest,time:label)` lines. -/
def display (g : Graph) : String :=
  let nodes := g.nodes.foldl (fun s (n, l) => s ++ s!"{n}:{l}\n") "NODES:\n"
  let edge := fun (s : String) (e : Edge) =>
    let (a, b) := g.shownEnds e
    let t := e.time
    let l := e.label
    s ++ s!"({a},{b},{t}:{l})\n"
  g.edges.foldl edge (nodes ++ "\nEDGES:\n")

/-- Builds a graph by adding the nodes, then the edges, in order. -/
def build (directed : Bool) (nodes : List (Nat × Nat)) (edges : List Edge) : Graph :=
  let g := nodes.foldl (fun g (n, l) => g.addNode n l) (empty directed)
  edges.foldl (fun g e => g.addEdge e.source e.dest e.time e.label) g

end Graph

end TemporalMotif
