import TemporalMotif.Match.Search

/-! # Occurrences

A complete assignment read as an occurrence: the target node of each query node in query
order, the target edge of each query edge in query edge order, and the occurrence's own graph
(directed as the target is), holding those target nodes that have a label and those target
edges in that order. -/

namespace TemporalMotif

/-- One occurrence of the query in the target. -/
structure Occurrence where
  nodes : List (Nat × Nat)
  edges : List (Nat × Nat)
  graph : Graph

namespace SearchSpace

/-- The occurrence given by a complete assignment, with query positions `pos`. -/
def occurrence (sp : SearchSpace) (pos : Positions) (a : Assignment) : Occurrence :=
  let bound := sp.order.nodes.zipIdx.filterMap fun (p, s) =>
    (a.nodeAt? s).map fun t => (p, pos.node p, t)
  let nodes := bound.mergeSort fun x y => x.1 ≤ y.1
  let edges := (sp.order.edges.zip a.edges.toList).map fun (oe, t) => (oe.edge, t)
  let edges := edges.mergeSort fun x y => x.1 < y.1 || (x.1 == y.1 && x.2 ≤ y.2)
  let addNode := fun (g : Graph) (x : Nat × Nat × Nat) =>
    match sp.target.label? x.2.2 with
    | some l => g.addNode x.2.2 l
    | none => g
  let addEdge := fun (g : Graph) (x : Nat × Nat) =>
    match sp.target.edges[x.2]? with
    | some e => g.addEdge e.source e.dest e.time e.label
    | none => g
  let g := edges.foldl addEdge (nodes.foldl addNode (Graph.empty sp.target.directed))
  ⟨nodes.map fun (_, q, t) => (q, t), edges, g⟩

end SearchSpace

end TemporalMotif
