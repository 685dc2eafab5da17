import TemporalMotif.Graph.Basic
import TemporalMotif.Text.Labels

/-! # One-line layout of a small graph

A graph, usually one occurrence, on one line: its nodes as `(id:label)` joined by commas, a
tab, then its edges as `(source,dest,time:label)` joined by commas. An undirected edge shows
its smaller end first. Labels are shown by name when a label table is given and names them,
else by number. -/

namespace TemporalMotif

namespace Graph

/-- The one-line layout of `g`, naming labels through `names` if given. -/
def layout (g : Graph) (names : Option LabelTable) : String :=
  let nodeName := fun l => match names with | some tb => tb.nodeName l | none => toString l
  let edgeName := fun l => match names with | some tb => tb.edgeName l | none => toString l
  let nodes := g.nodes.map fun (n, l) =>
    let name := nodeName l
    s!"({n}:{name})"
  let edges := g.edges.toList.map fun e =>
    let (a, b) := g.shownEnds e
    let t := e.time
    let name := edgeName e.label
    s!"({a},{b},{t}:{name})"
  ",".intercalate nodes ++ "\t" ++ ",".intercalate edges

end Graph

end TemporalMotif
