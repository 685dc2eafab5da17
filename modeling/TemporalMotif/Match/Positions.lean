import TemporalMotif.Graph.Basic

/-! # Query positions

The query's nodes are numbered by position, in the order they were added. A position carries
the node's id and label; an id that names no query node has no position. -/

namespace TemporalMotif

/-- The query's nodes by position. -/
structure Positions where
  ids : Array Nat
  labels : Array Nat
deriving Repr

namespace Positions

/-- The positions of a query graph's nodes, in insertion order. -/
def ofGraph (q : Graph) : Positions := ⟨(q.nodes.map (·.1)).toArray, (q.nodes.map (·.2)).toArray⟩

/-- The number of positions. -/
def size (p : Positions) : Nat := p.ids.size

/-- The query node at position `pos`. -/
def node (p : Positions) (pos : Nat) : Nat := p.ids.getD pos 0

/-- The label at position `pos`. -/
def label (p : Positions) (pos : Nat) : Nat := p.labels.getD pos 0

/-- The position of query node `id`, if it is one. -/
def position? (p : Positions) (id : Nat) : Option Nat := p.ids.findIdx? (· == id)

end Positions

end TemporalMotif
