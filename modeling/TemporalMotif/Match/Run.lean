import Std.Data.HashSet
import TemporalMotif.Match.Search
import TemporalMotif.Time.Multiset

/-! # The backtracking loop

The search runs as one loop over a single context. The context holds the bound assignment, the
sets of target nodes and edges it uses and the multiset of its times, the candidate bound at each
edge state, and each edge state's candidate list with a cursor into it. Binding and unbinding
update the arrays, the sets and the multiset together; the candidates read the nodes and the times
off the arrays, whether a node or an edge is taken off the sets, and the span off the multiset.
Taking the next candidate of state `s` binds it; a bound last state is an occurrence, handed on
and undone at once, and any other bound state loads the candidates of state `s + 1` and
descends. An exhausted state climbs back to `s - 1` and unbinds it; an exhausted state 0 loads
the next root that has start candidates, and the search ends when none is left.

The cancellation flag is read before each root is tried and every `checkInterval` steps. The
progress counters count the roots tried and the occurrences found. -/

namespace TemporalMotif

/-- How a search ended: the occurrences it found, and whether it was cancelled. -/
structure SearchSummary where
  occurrences : Nat
  cancelled : Bool
deriving DecidableEq, Repr

namespace SearchSummary

/-- The summary of a search over no root. -/
def empty : SearchSummary := ⟨0, false⟩

/-- The summary of two searches over disjoint ranges of roots. -/
def merge (a b : SearchSummary) : SearchSummary :=
  ⟨a.occurrences + b.occurrences, a.cancelled || b.cancelled⟩

end SearchSummary

/-- The counters a search reports while it runs: the roots it has, the roots it has tried and
the occurrences it has found. -/
structure Progress where
  totalRoots : Nat
  scannedRoots : Nat
  occurrences : Nat
deriving DecidableEq, Repr

namespace MatchingOrder

/-- The edge state at position `s`. -/
def edgeAt (o : MatchingOrder) (s : Nat) : OrderedEdge := o.edges.getD s ⟨0, 0, 0, .outgoing⟩

end MatchingOrder

namespace Assignment

/-- Undoes the binding of candidate `c` to the last bound edge state `oe`: the node states that
`c` bound are unbound, and the last edge and time are dropped. -/
def unbind (a : Assignment) (oe : OrderedEdge) (c : Candidate) : Assignment :=
  let nodes := match c with
    | .start .. => (a.nodes.setIfInBounds oe.source none).setIfInBounds oe.dest none
    | .extend .. => a.nodes.setIfInBounds oe.source none
    | .close _ => a.nodes
  ⟨nodes, a.edges.pop, a.times.pop⟩

/-- Drops from `m` the target node that node state `ns` holds, if it holds one. -/
def release (a : Assignment) (m : Std.HashSet Nat) (ns : Nat) : Std.HashSet Nat :=
  match a.nodeAt? ns with
  | some n => m.erase n
  | none => m

end Assignment

/-- The mutable state of one search: the bound assignment, the target nodes and edges it uses
and the multiset of its times, the candidate bound at each edge state, and each edge state's
candidate list with the position of the next one to try. -/
structure SearchContext where
  bound : Assignment
  matchedNodes : Std.HashSet Nat
  matchedEdges : Std.HashSet Nat
  times : TimeMultiset
  active : Array (Option Candidate)
  candidates : Array (List Candidate)
  cursors : Array Nat

namespace SearchContext

/-- Nothing bound and no candidates, for the given numbers of node and edge states. -/
def new (numNodeStates numEdgeStates : Nat) : SearchContext :=
  ⟨Assignment.init numNodeStates, ∅, ∅, TimeMultiset.empty, Array.replicate numEdgeStates none,
    Array.replicate numEdgeStates [], Array.replicate numEdgeStates 0⟩

/-- What the candidates read of the context: the nodes and the times off the arrays, whether a
node or an edge is bound off the matched sets, and the span off the multiset of times. -/
def bindings (ctx : SearchContext) : Bindings :=
  ⟨ctx.bound.nodeAt?, ctx.matchedNodes.contains, ctx.matchedEdges.contains, ctx.bound.timeAt,
    ctx.times.span⟩

/-- Gives edge state `s` the candidates `cs`, from the first. -/
def load (ctx : SearchContext) (s : Nat) (cs : List Candidate) : SearchContext :=
  { ctx with candidates := ctx.candidates.setIfInBounds s cs,
             cursors := ctx.cursors.setIfInBounds s 0 }

/-- The next candidate of edge state `s`, moving its cursor past it. -/
def nextCandidate (ctx : SearchContext) (s : Nat) : Option (Candidate × SearchContext) :=
  ((ctx.candidates.getD s [])[ctx.cursors.getD s 0]?).map fun c =>
    (c, { ctx with cursors := ctx.cursors.modify s (· + 1) })

/-- Binds candidate `c`, with time `t`, to edge state `s`, which is `oe`: its nodes and its edge
join the matched sets and its time the multiset. -/
def bind (ctx : SearchContext) (s : Nat) (oe : OrderedEdge) (c : Candidate) (t : Int) :
    SearchContext :=
  let matchedNodes := match c with
    | .start _ root far => (ctx.matchedNodes.insert root).insert far
    | .extend _ node => ctx.matchedNodes.insert node
    | .close _ => ctx.matchedNodes
  { ctx with bound := ctx.bound.bind oe c t, matchedNodes,
             matchedEdges := ctx.matchedEdges.insert c.edge, times := ctx.times.insert t,
             active := ctx.active.setIfInBounds s (some c) }

/-- Undoes the binding of edge state `s`, which is `oe`, if it is bound. The nodes and the edge
that leave the matched sets are the ones the arrays hold at the candidate's node states and at
`s`, and the time that leaves the multiset is the one held at `s`. -/
def unbind (ctx : SearchContext) (s : Nat) (oe : OrderedEdge) : SearchContext :=
  match ctx.active.getD s none with
  | none => ctx
  | some c =>
    -- a start's two node states are read before either is cleared; were they one, the second
    -- release would drop the same node again, which changes nothing
    let matchedNodes := match c with
      | .start .. => ctx.bound.release (ctx.bound.release ctx.matchedNodes oe.source) oe.dest
      | .extend .. => ctx.bound.release ctx.matchedNodes oe.source
      | .close _ => ctx.matchedNodes
    let matchedEdges := match ctx.bound.edges[s]? with
      | some e => ctx.matchedEdges.erase e
      | none => ctx.matchedEdges
    { ctx with bound := ctx.bound.unbind oe c, matchedNodes, matchedEdges,
               times := (ctx.times.remove (ctx.bound.timeAt s)).2,
               active := ctx.active.setIfInBounds s none }

end SearchContext

/-- The state of the search loop: the context, the edge state it works on, the roots not tried
yet, what it has handed on so far, its summary and counters, and the steps it has taken. -/
structure SearchLoop where
  ctx : SearchContext
  state : Nat
  roots : List Nat
  found : List Assignment
  summary : SearchSummary
  progress : Progress
  steps : Nat

/-- The moments and links of a time index. -/
def TimeIndex.size (ix : TimeIndex) : Nat :=
  ix.moments.length + (ix.moments.map (·.links.length)).foldr (· + ·) 0

/-- The moments and links of all the time indices of `g`. -/
def Graph.indexSize (g : Graph) : Nat :=
  ((g.outgoing ++ g.incoming ++ g.reciprocal).map (·.2.size)).foldr (· + ·) 0

/-- Whether the loop goes on after a step. -/
inductive Flow where
  | more (l : SearchLoop)
  | done (l : SearchLoop)

/-- What a search hands back: the complete assignments in the order it found them, its summary
and its counters. -/
structure SearchRun where
  found : List Assignment
  summary : SearchSummary
  progress : Progress

/-- The loop reads the cancellation flag once in this many steps. -/
def checkInterval : Nat := 1024

namespace SearchSpace

/-- Tries `roots` in order until one has start candidates and loads them into state 0, counting
each root tried; false when the roots run out, or when the search is cancelled, before the next
root is tried. -/
def loadRoot (sp : SearchSpace) (cancelled : Bool) : List Nat → SearchLoop → Bool × SearchLoop
  | [], l => (false, { l with roots := [] })
  | root :: rest, l =>
    if cancelled then
      (false, { l with roots := root :: rest, summary := { l.summary with cancelled := true } })
    else
      let l := { l with roots := rest,
                        progress := { l.progress with scannedRoots := l.progress.scannedRoots + 1 } }
      match sp.starts root with
      | [] => sp.loadRoot cancelled rest l
      | cs => (true, { l with ctx := l.ctx.load 0 cs })

/-- One turn of the loop. -/
def step (sp : SearchSpace) (cancelled : Bool) (l : SearchLoop) : Flow :=
  let l := { l with steps := l.steps + 1 }
  if l.steps % checkInterval = 0 && cancelled then
    .done { l with summary := { l.summary with cancelled := true } }
  else
    match l.ctx.nextCandidate l.state with
    | none =>
      if l.state = 0 then
        match sp.loadRoot cancelled l.roots l with
        | (true, l) => .more l
        | (false, l) => .done l
      else
        let s := l.state - 1
        .more { l with state := s, ctx := l.ctx.unbind s (sp.order.edgeAt s) }
    | some (c, ctx) =>
      let oe := sp.order.edgeAt l.state
      let ctx := ctx.bind l.state oe c (sp.targetTime c.edge)
      if l.state = sp.order.edges.length - 1 then
        .more { l with ctx := ctx.unbind l.state oe, found := l.found ++ [ctx.bound],
                       summary := { l.summary with occurrences := l.summary.occurrences + 1 },
                       progress := { l.progress with occurrences := l.progress.occurrences + 1 } }
      else
        let s := l.state + 1
        .more { l with ctx := ctx.load s (sp.extensionsOf ctx.bindings s (sp.order.edgeAt s)),
                       state := s }

/-- Runs the loop for at most `fuel` turns. -/
def loop (sp : SearchSpace) (cancelled : Bool) : Nat → SearchLoop → SearchLoop
  | 0, l => l
  | fuel + 1, l =>
    match sp.step cancelled l with
    | .more l => sp.loop cancelled fuel l
    | .done l => l

/-- A bound on the turns of the loop over `roots`: each edge state tries at most
`target.indexSize` candidates, the moments or the links of one time index. -/
def stepBound (sp : SearchSpace) (roots : List Nat) : Nat :=
  roots.length * Nat.pow (sp.target.indexSize + 2) sp.order.edges.length + 1

/-- The search from the roots `roots`, in order, as one loop over one context; `cancelled` is the
state of the cancellation flag, and `progress` the counters before the search. -/
def run (sp : SearchSpace) (roots : List Nat) (cancelled : Bool) (progress : Progress) :
    SearchRun :=
  let l : SearchLoop := ⟨SearchContext.new sp.order.nodes.length sp.order.edges.length, 0, roots,
    [], ⟨0, false⟩, progress, 0⟩
  let l := match sp.loadRoot cancelled roots l with
    | (false, l) => l
    | (true, l) => sp.loop cancelled (sp.stepBound roots) l
  ⟨l.found, l.summary, l.progress⟩

/-- A search split by root, as several threads run it: each root searched on its own, from the
same counters. -/
def runEach (sp : SearchSpace) (roots : List Nat) (cancelled : Bool) (progress : Progress) :
    List SearchRun :=
  roots.map fun root => sp.run [root] cancelled progress

/-- The summaries of a split search, merged in root order. -/
def splitSummary (sp : SearchSpace) (roots : List Nat) (cancelled : Bool) (progress : Progress) :
    SearchSummary :=
  ((sp.runEach roots cancelled progress).map (·.summary)).foldr SearchSummary.merge
    SearchSummary.empty

/-- The occurrences of a split search, joined in root order. -/
def splitFound (sp : SearchSpace) (roots : List Nat) (cancelled : Bool) (progress : Progress) :
    List Assignment :=
  ((sp.runEach roots cancelled progress).map (·.found)).flatten

end SearchSpace

end TemporalMotif
