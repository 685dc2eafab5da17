import TemporalMotif.Text.LoadError
import TemporalMotif.Text.Numeral

/-! # Label names

Text graphs name their labels; inside a graph a label is an unsigned 32-bit number. The label
table numbers the node label names and the edge label names separately, each in the order first
seen. A name whose number would pass the largest label is refused, and the table is left as it
was. -/

namespace TemporalMotif

/-- Node and edge label names, each numbered by first appearance. -/
structure LabelTable where
  nodeNames : Array String := #[]
  edgeNames : Array String := #[]
deriving Repr

namespace LabelTable

/-- The number of `name` in `names`, adding it at the end if it is new. -/
def internIn (names : Array String) (name : String) : Nat × Array String :=
  match names.idxOf? name with
  | some i => (i, names)
  | none => (names.size, names.push name)

/-- The number of `name` in `names` as a label of `kind`, adding it if it is new; refused when
that number passes the largest label. -/
def internChecked (kind : String) (names : Array String) (name : String) :
    Except LoadError (Nat × Array String) :=
  let (i, ns) := internIn names name
  if i ≤ Numeral.u32Max then .ok (i, ns) else .error (.tooManyLabels kind)

/-- The number of node label `name`, added if new. -/
def internNode (tb : LabelTable) (name : String) : Except LoadError (Nat × LabelTable) :=
  (internChecked "node" tb.nodeNames name).map fun (i, ns) => (i, { tb with nodeNames := ns })

/-- The number of edge label `name`, added if new. -/
def internEdge (tb : LabelTable) (name : String) : Except LoadError (Nat × LabelTable) :=
  (internChecked "edge" tb.edgeNames name).map fun (i, ns) => (i, { tb with edgeNames := ns })

/-- The name of node label `l`, or its number if it has none. -/
def nodeName (tb : LabelTable) (l : Nat) : String := tb.nodeNames.getD l (toString l)

/-- The name of edge label `l`, or its number if it has none. -/
def edgeName (tb : LabelTable) (l : Nat) : String := tb.edgeNames.getD l (toString l)

end LabelTable

end TemporalMotif
