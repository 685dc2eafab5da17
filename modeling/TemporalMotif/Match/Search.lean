import TemporalMotif.Match.Domain
import TemporalMotif.Match.Order
import TemporalMotif.Match.Bounds

/-! # Depth-first search for occurrences

The search binds the edge states in order. The first binds a target edge at a root, the target
node of node state 0, and so binds node states 0 and 1; each later state either binds a new
node together with its edge (extend) or only an edge between two bound nodes (close). A
candidate edge has the query edge's label and direction, is not bound yet, and has its time in
the window that the state's time bound and the maximum span leave open; a new node is unbound
and in its position's domain. Occurrences come out in depth-first order: roots in domain
order, candidates in the order of the target's time indices. -/

namespace TemporalMotif

/-- The fixed inputs of a search. -/
structure SearchSpace where
  query : Graph
  target : Graph
  span : MaxSpan
  domains : Domains
  order : MatchingOrder
  bounds : Array TimeBound

/-- A candidate for the next edge state: the first edge with its two ends, an edge that brings
a new node, or an edge between bound nodes. -/
inductive Candidate where
  | start (edge root far : Nat)
  | extend (edge node : Nat)
  | close (edge : Nat)
deriving DecidableEq, Repr

/-- The target edge of a candidate. -/
def Candidate.edge : Candidate → Nat
  | start e _ _ => e
  | extend e _ => e
  | close e => e

/-- A partial occurrence: the target node of each node state (if bound yet), and the target
edges of the edge states bound so far with their times. -/
structure Assignment where
  nodes : Array (Option Nat)
  edges : Array Nat
  times : Array Int
deriving Repr

namespace Assignment

/-- Nothing bound, with `n` node states. -/
def init (n : Nat) : Assignment := ⟨Array.replicate n none, #[], #[]⟩

/-- The target node at node state `s`, if bound. -/
def nodeAt? (a : Assignment) (s : Nat) : Option Nat := (a.nodes[s]?).bind id

/-- Whether `node` is bound to some node state. -/
def usesNode (a : Assignment) (node : Nat) : Bool := a.nodes.contains (some node)

/-- Whether `edge` is bound to some edge state. -/
def usesEdge (a : Assignment) (edge : Nat) : Bool := a.edges.contains edge

/-- The time bound to edge state `s`. -/
def timeAt (a : Assignment) (s : Nat) : Int := a.times.getD s 0

/-- The earliest and latest bound times, if any edge is bound. -/
def span? (a : Assignment) : Option (Int × Int) := do
  let lo ← a.times.toList.min?
  let hi ← a.times.toList.max?
  some (lo, hi)

/-- Binds candidate `c`, with time `t`, to the next edge state `oe`. -/
def bind (a : Assignment) (oe : OrderedEdge) (c : Candidate) (t : Int) : Assignment :=
  let nodes := match c with
    | .start _ root far => (a.nodes.setIfInBounds oe.dest (some root)).setIfInBounds oe.source (some far)
    | .extend _ node => a.nodes.setIfInBounds oe.source (some node)
    | .close _ => a.nodes
  ⟨nodes, a.edges.push c.edge, a.times.push t⟩

end Assignment

/-- What the candidates of an edge state read of the states bound so far: the target node of each
node state, whether a target node or edge is bound, the time of each edge state, and the earliest
and latest bound time. -/
structure Bindings where
  nodeAt? : Nat → Option Nat
  usesNode : Nat → Bool
  usesEdge : Nat → Bool
  timeAt : Nat → Int
  span? : Option (Int × Int)

/-- The bindings an assignment holds, all read off its arrays. -/
def Assignment.bindings (a : Assignment) : Bindings :=
  ⟨a.nodeAt?, a.usesNode, a.usesEdge, a.timeAt, a.span?⟩

namespace Assignment

variable (a : Assignment)

@[simp] theorem bindings_nodeAt? : a.bindings.nodeAt? = a.nodeAt? := rfl
@[simp] theorem bindings_usesNode : a.bindings.usesNode = a.usesNode := rfl
@[simp] theorem bindings_usesEdge : a.bindings.usesEdge = a.usesEdge := rfl
@[simp] theorem bindings_timeAt : a.bindings.timeAt = a.timeAt := rfl
@[simp] theorem bindings_span? : a.bindings.span? = a.span? := rfl

end Assignment

namespace SearchSpace

/-- The label of query edge `e`. -/
def queryLabel? (sp : SearchSpace) (e : Nat) : Option Nat := (sp.query.edges[e]?).map (·.label)

/-- The label of target edge `e`. -/
def targetLabel? (sp : SearchSpace) (e : Nat) : Option Nat := (sp.target.edges[e]?).map (·.label)

/-- The time of target edge `e`. -/
def targetTime (sp : SearchSpace) (e : Nat) : Int := ((sp.target.edges[e]?).map (·.time)).getD 0

/-- The window in which edge state `s` may find its time, given the bindings. -/
def windowOf (sp : SearchSpace) (b : Bindings) (s : Nat) : Window :=
  match b.span? with
  | none => Window.all
  | some (lo, hi) =>
    let slack := sp.span.slack lo hi
    let earliest := match slack with
      | none => Endpoint.unbounded
      | some k => .included (Stamp.subSat lo k)
    let latest := match slack with
      | none => Endpoint.unbounded
      | some k => .included (Stamp.addSat hi k)
    let bound := sp.bounds.getD s ⟨none, none⟩
    match bound.lower, bound.upper with
    | some l, some u =>
      if l = u then Window.exactly (b.timeAt l)
      else Window.strictlyBetween (b.timeAt l) (b.timeAt u)
    | none, some u => ⟨earliest, .excluded (b.timeAt u)⟩
    | some l, none => ⟨.excluded (b.timeAt l), latest⟩
    | none, none => ⟨earliest, latest⟩

/-- The window of edge state `s` over the states that `a` binds. -/
def window (sp : SearchSpace) (a : Assignment) (s : Nat) : Window := sp.windowOf a.bindings s

@[simp] theorem windowOf_bindings (sp : SearchSpace) (a : Assignment) (s : Nat) :
    sp.windowOf a.bindings s = sp.window a s := rfl

/-- The candidates for the first edge state at `root`: the root's links, seen from the root,
to another node of the far end's domain, through an edge of the first query edge's label. -/
def starts (sp : SearchSpace) (root : Nat) : List Candidate :=
  match sp.order.edges with
  | [] => []
  | first :: _ =>
    let farPos := sp.order.nodeAt first.source
    let label := sp.queryLabel? first.edge
    (sp.target.indexOf root first.dir.reversed).moments.flatMap fun m =>
      m.links.filterMap fun (far, e) =>
        if far != root && sp.domains.allows farPos far && sp.targetLabel? e == label then
          some (.start e root far)
        else none

/-- The candidates for edge state `s`, given the bindings. -/
def extensionsOf (sp : SearchSpace) (b : Bindings) (s : Nat) (oe : OrderedEdge) :
    List Candidate :=
  let label := sp.queryLabel? oe.edge
  match b.nodeAt? oe.dest with
  | none => []
  | some dest =>
    let moments := (sp.target.indexOf dest oe.dir.reversed).slice (sp.windowOf b s)
    match b.nodeAt? oe.source with
    | some src =>
      (moments.filterMap fun m => m.links.edgeTo? src).filterMap fun e =>
        if !b.usesEdge e && sp.targetLabel? e == label then some (.close e) else none
    | none =>
      let srcPos := sp.order.nodeAt oe.source
      moments.flatMap fun m =>
        m.links.filterMap fun (n, e) =>
          if !b.usesNode n && sp.domains.allows srcPos n && !b.usesEdge e &&
              sp.targetLabel? e == label then
            some (.extend e n)
          else none

/-- The candidates for edge state `s` over the states that `a` binds. -/
def extensions (sp : SearchSpace) (a : Assignment) (s : Nat) (oe : OrderedEdge) :
    List Candidate :=
  sp.extensionsOf a.bindings s oe

/-- Binds `c` to edge state `oe`. -/
def bindCandidate (sp : SearchSpace) (a : Assignment) (oe : OrderedEdge) (c : Candidate) :
    Assignment :=
  a.bind oe c (sp.targetTime c.edge)

/-- The complete assignments that extend `a` over the remaining edge states, in depth-first
order. -/
def explore (sp : SearchSpace) : List (Nat × OrderedEdge) → Assignment → List Assignment
  | [], a => [a]
  | (s, oe) :: rest, a =>
    (sp.extensions a s oe).flatMap fun c => explore sp rest (sp.bindCandidate a oe c)

/-- The edge states with their numbers. -/
def states (sp : SearchSpace) : List (Nat × OrderedEdge) :=
  sp.order.edges.zipIdx.map fun (oe, s) => (s, oe)

/-- The complete assignments whose node state 0 is `root`, in depth-first order. -/
def fromRoot (sp : SearchSpace) (root : Nat) : List Assignment :=
  match sp.order.edges with
  | [] => []
  | first :: _ =>
    (sp.starts root).flatMap fun c =>
      sp.explore sp.states.tail (sp.bindCandidate (Assignment.init sp.order.nodes.length) first c)

/-- The complete assignments over the given roots, root by root. -/
def search (sp : SearchSpace) (roots : List Nat) : List Assignment := roots.flatMap sp.fromRoot

end SearchSpace

end TemporalMotif
