import TemporalMotif.Graph.Basic
import TemporalMotif.Text.Labels

/-! # Writing a graph as text

The text form numbers the nodes `0, 1, …` in insertion order. It holds the node count, a line
`i<TAB>label` per node, then the edges as `i<TAB>j<TAB>time:label` lines: for each node in
order, each time in increasing order, the links to numbered nodes sorted by number and then by
edge. An undirected edge is written once, from its smaller-numbered end; a self-loop of an
undirected graph is not written. Labels are written by name where the table has one. -/

namespace TemporalMotif

namespace Graph

/-- The edge lines of node number `i` with id `id`. -/
def writtenEdges (g : Graph) (names : LabelTable) (ids : List Nat) (i id : Nat) : List String :=
  (g.indexOf id g.forward).moments.flatMap fun m =>
    let row := m.links.filterMap fun (nbr, e) =>
      match ids.idxOf? nbr with
      | some j => if g.directed || decide (i < j) then some (j, e) else none
      | none => none
    let sorted := row.mergeSort fun a b => a.1 < b.1 || (a.1 == b.1 && a.2 ≤ b.2)
    sorted.map fun (j, e) =>
      let t := m.time
      let name := names.edgeName ((g.edges[e]?.map (·.label)).getD 0)
      s!"{i}\t{j}\t{t}:{name}"

/-- The text form of `g`, naming labels through `names`. -/
def render (g : Graph) (names : LabelTable) : String :=
  let ids := g.nodes.map (·.1)
  let nodeLines := g.nodes.zipIdx.map fun ((_, l), i) =>
    let name := names.nodeName l
    s!"{i}\t{name}"
  let edgeLines := ids.zipIdx.flatMap fun (id, i) => g.writtenEdges names ids i id
  String.join ((toString ids.length :: nodeLines ++ edgeLines).map (· ++ "\n"))

end Graph

end TemporalMotif
