import TemporalMotif.Match.Occurrence
import TemporalMotif.Match.Run

/-! # Matching a query against a target

A match first checks that the query, the target and the requested kind of graph agree on
directedness. It then plans: query positions, domains, matching order and time bounds. There is
no plan for a negative maximum span, a query without edges, or a query that is not connected.
The search runs over the roots, the domain of node state 0, unless there is no plan or some
domain is empty; the counters start from the number of roots. A search cancelled before it
starts scans no root.

Split by root, a search runs each root on its own; the number of occurrences is read off the
summaries merged in root order (`countParallel`), and the occurrences are joined in root order
(`enumerateParallel`). -/

namespace TemporalMotif

/-- Why a match cannot start. -/
inductive MatchError where
  | directednessMismatch (query target : Bool)
  | configDirectedness (config graphs : Bool)
deriving DecidableEq, Repr

namespace MatchError

/-- The word for a kind of graph: `directed` or `undirected`. -/
def kind (directed : Bool) : String := if directed then "directed" else "undirected"

/-- The error's text. -/
def message : MatchError → String
  | directednessMismatch q t =>
    let a := kind q
    let b := kind t
    s!"query is {a} but target is {b}"
  | configDirectedness c g =>
    let a := kind c
    let b := kind g
    s!"configuration expects {a} graphs but the inputs are {b}"

end MatchError

/-- Everything the search needs to know before it starts. -/
structure MatchPlan where
  positions : Positions
  domains : Domains
  order : MatchingOrder
  bounds : List TimeBound
deriving Repr

namespace MatchPlan

/-- The plan for matching `q` in `target` with maximum span `span`, if there is one. -/
def build (q target : Graph) (span : MaxSpan) : Option MatchPlan :=
  if q.edges.size = 0 then none
  else
    let pos := Positions.ofGraph q
    let domains := Domains.build q target pos span
    (MatchingOrder.build q pos domains.sizes).map fun order =>
      let times := order.edges.map fun oe => ((q.edges[oe.edge]?).map (·.time)).getD 0
      ⟨pos, domains, order, TimeBound.table times⟩

/-- The plan, unless the maximum span is negative. -/
def ofSpan? (q target : Graph) (span : MaxSpan) : Option MatchPlan :=
  match span with
  | .within v => if v < 0 then none else build q target span
  | .unbounded => build q target span

/-- The target nodes tried for node state 0, in domain order. -/
def roots (p : MatchPlan) : List Nat := p.domains.getD (p.order.nodeAt 0) []

/-- The search over this plan. -/
def space (p : MatchPlan) (q target : Graph) (span : MaxSpan) : SearchSpace :=
  ⟨q, target, span, p.domains, p.order, p.bounds.toArray⟩

end MatchPlan

/-- The result of a match: the plan, the complete assignments in discovery order, whether the
search was cancelled, and how many roots there were and were scanned. -/
structure MatchRun where
  plan : Option MatchPlan
  space : Option SearchSpace
  found : List Assignment
  cancelled : Bool
  totalRoots : Nat
  scannedRoots : Nat

namespace MatchRun

/-- The number of occurrences found. -/
def count (r : MatchRun) : Nat := r.found.length

/-- The occurrences found, in discovery order. -/
def occurrences (r : MatchRun) : List Occurrence :=
  match r.space, r.plan with
  | some sp, some p => r.found.map (sp.occurrence p.positions)
  | _, _ => []

end MatchRun

/-- Matches `q` in `target` as graphs of kind `directed`, with maximum span `span`; `cancelled`
stops the search before it starts. -/
def matchGraphs (q target : Graph) (directed : Bool) (span : MaxSpan) (cancelled : Bool) :
    Except MatchError MatchRun :=
  if q.directed != target.directed then .error (.directednessMismatch q.directed target.directed)
  else if directed != q.directed then .error (.configDirectedness directed q.directed)
  else
    let plan := MatchPlan.ofSpan? q target span
    match plan with
    | none => .ok ⟨none, none, [], false, 0, 0⟩
    | some p =>
      if p.domains.anyEmpty then .ok ⟨plan, none, [], false, 0, 0⟩
      else
        let roots := p.roots
        let sp := p.space q target span
        let r := sp.run roots cancelled ⟨roots.length, 0, 0⟩
        .ok ⟨plan, some sp, r.found, r.summary.cancelled, r.progress.totalRoots,
          r.progress.scannedRoots⟩

/-- What a matcher searches: an error when the graphs and the requested kind disagree on
directedness, else the plan and its roots, or `none` when there is no plan or some domain is
empty and the search is skipped. -/
def runnable (q target : Graph) (directed : Bool) (span : MaxSpan) :
    Except MatchError (Option (MatchPlan × List Nat)) :=
  if q.directed != target.directed then .error (.directednessMismatch q.directed target.directed)
  else if directed != q.directed then .error (.configDirectedness directed q.directed)
  else
    .ok (match MatchPlan.ofSpan? q target span with
      | none => none
      | some p => if p.domains.anyEmpty then none else some (p, p.roots))

/-- The number of occurrences, found by a search split by root: the summaries of the roots'
searches merged in root order. -/
def countParallel (q target : Graph) (directed : Bool) (span : MaxSpan) (cancelled : Bool) :
    Except MatchError Nat :=
  (runnable q target directed span).map fun
    | none => 0
    | some (p, roots) =>
      ((p.space q target span).splitSummary roots cancelled ⟨roots.length, 0, 0⟩).occurrences

/-- The occurrences found by a search split by root, the roots' occurrences joined in root
order. -/
def enumerateParallel (q target : Graph) (directed : Bool) (span : MaxSpan) (cancelled : Bool) :
    Except MatchError (List Occurrence) :=
  (runnable q target directed span).map fun
    | none => []
    | some (p, roots) =>
      let sp := p.space q target span
      (sp.splitFound roots cancelled ⟨roots.length, 0, 0⟩).map (sp.occurrence p.positions)

end TemporalMotif
