import TemporalMotif.Match.Positions

/-! # The matching order

The search binds query nodes one at a time, each new node linked to one already bound. The
first node is the one with most neighbours in the whole query; each next node is, among the
nodes next to the bound ones, the one with most neighbours already bound. Ties go to the
smaller domain, then to the earlier candidate. A node's parent is the bound node (and the
direction) through which it was first reached.

The edge states follow from the node order: for each node state `i`, for each earlier state
`j`, every query edge between the two, seen from state `i` in each direction and at each time.
There is no order for a query without nodes or edges, or one that is not connected. -/

namespace TemporalMotif

/-- The node state through which a node was first reached, and the direction of that link as
seen from the parent. -/
structure ParentLink where
  state : Nat
  dir : Direction
deriving DecidableEq, Repr

/-- One edge state: a query edge between node states `source` and `dest < source`, in
direction `dir` as seen from `source`. -/
structure OrderedEdge where
  edge : Nat
  source : Nat
  dest : Nat
  dir : Direction
deriving DecidableEq, Repr

/-- The node states (query positions), their parents and the edge states. -/
structure MatchingOrder where
  nodes : List Nat
  parents : List (Option ParentLink)
  edges : List OrderedEdge
deriving Repr

namespace MatchingOrder

/-- The partly built order: the bound positions in order, the frontier of positions next to
them in the order they were reached, the positions not reached yet, and the parents so far. -/
structure Growth where
  ordered : List Nat
  frontier : List Nat
  unseen : List Nat
  parent : List (Nat × ParentLink)

/-- The member of `pool` with most neighbours among the nodes at `reference`; a tie goes to
the smaller domain, then to the earlier member. -/
def pick (q : Graph) (pos : Positions) (sizes : List Nat) (pool reference : List Nat) :
    Option Nat :=
  let refIds := reference.map pos.node
  let better := fun (best : Option (Nat × Nat)) (p : Nat) =>
    let d := q.relativeDegree (pos.node p) refIds
    match best with
    | none => some (p, d)
    | some (b, bd) =>
      if bd < d || (d == bd && decide (sizes.getD p 0 < sizes.getD b 0)) then some (p, d)
      else best
  (pool.foldl better none).map (·.1)

/-- Moves the unseen neighbours of position `p`, bound at `state`, to the frontier. -/
def reach (q : Graph) (pos : Positions) (state p : Nat) (g : Growth) : Growth :=
  let visit := fun (g : Growth) (d : Direction) (nbr : Nat) =>
    match pos.position? nbr with
    | some r =>
      if g.unseen.contains r then
        { g with unseen := g.unseen.erase r, frontier := g.frontier ++ [r]
                 parent := (r, ⟨state, d⟩) :: g.parent }
      else g
    | none => g
  Direction.all.foldl (fun g d =>
    (q.indexOf (pos.node p) d).moments.foldl (fun g m =>
      m.links.foldl (fun g (nbr, _) => visit g d nbr) g) g) g

/-- Binds the next node state. -/
def grow (q : Graph) (pos : Positions) (sizes : List Nat) (g : Growth) (state : Nat) :
    Option Growth := do
  let (pool, reference) := if state = 0 then (g.unseen, g.unseen) else (g.frontier, g.ordered)
  let p ← pick q pos sizes pool reference
  let g := { g with ordered := g.ordered ++ [p], unseen := g.unseen.erase p,
                    frontier := g.frontier.erase p }
  some (reach q pos state p g)

/-- The edge states for the node order `nodes`. -/
def edgeStates (q : Graph) (pos : Positions) (nodes : List Nat) : List OrderedEdge :=
  nodes.zipIdx.flatMap fun (sp, i) =>
    (nodes.take i).zipIdx.flatMap fun (dp, j) =>
      Direction.all.flatMap fun d =>
        (q.indexOf (pos.node sp) d).moments.filterMap fun m =>
          (m.links.edgeTo? (pos.node dp)).map fun e => ⟨e, i, j, d⟩

/-- The matching order of query `q` with domain sizes `sizes`, if `q` has one. -/
def build (q : Graph) (pos : Positions) (sizes : List Nat) : Option MatchingOrder :=
  if pos.size = 0 then none
  else do
    let g ← (List.range pos.size).foldlM (grow q pos sizes) ⟨[], [], List.range pos.size, []⟩
    let edges := edgeStates q pos g.ordered
    if edges.isEmpty then none
    else some ⟨g.ordered, g.ordered.map (List.lookup · g.parent), edges⟩

/-- The query position bound at node state `s`. -/
def nodeAt (o : MatchingOrder) (s : Nat) : Nat := o.nodes.getD s 0

end MatchingOrder

end TemporalMotif
