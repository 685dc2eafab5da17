import TemporalMotif.Graph.Flow
import TemporalMotif.Match.Positions

/-! # Candidate domains

The domain of a query position holds the target nodes that may stand for it: those with its
label whose degree and flow profiles dominate the query node's own. The query's profiles are
taken with an unbounded span; the target's with the search's span, each slot capped at the
largest count any query node needs there, which decides dominance just as the full count
would. Domains list target nodes in the target's node order. -/

namespace TemporalMotif

/-- What a target node must offer to stand for one query position. -/
structure Signature where
  label : Nat
  degree : Profile
  flow : Profile
deriving Repr

/-- The target nodes allowed at each query position. -/
abbrev Domains := Array (List Nat)

namespace Domains

/-- The signature of each query position. -/
def signatures (q : Graph) (pos : Positions) : List Signature :=
  (List.range pos.size).map fun k =>
    let n := pos.node k
    ⟨pos.label k, q.degree n none, q.flow n none .unbounded⟩

/-- The domains of the query positions in `target` for the maximum span `span`. -/
def build (q target : Graph) (pos : Positions) (span : MaxSpan) : Domains :=
  let sigs := signatures q pos
  let degreeCap := sigs.foldl (fun p s => Profile.mergeMax p s.degree) []
  let flowCap := sigs.foldl (fun p s => Profile.mergeMax p s.flow) []
  let wanted := target.nodes.filter fun (_, l) => sigs.any (·.label == l)
  let profiled := wanted.map fun (n, l) =>
    (n, l, target.degree n (some degreeCap), target.flow n (some flowCap) span)
  (sigs.map fun s =>
    profiled.filterMap fun (n, l, d, f) =>
      if s.label == l && d.dominates s.degree && f.dominates s.flow then some n else none).toArray

/-- The size of each domain. -/
def sizes (d : Domains) : List Nat := d.toList.map List.length

/-- Some domain is empty. -/
def anyEmpty (d : Domains) : Bool := d.any List.isEmpty

/-- Whether `node` is in the domain of `pos`. -/
def allows (d : Domains) (pos node : Nat) : Bool := (d.getD pos []).contains node

end Domains

end TemporalMotif
