import TemporalMotif.Graph.Basic
import TemporalMotif.Graph.Profile
import TemporalMotif.Time.MaxSpan

/-! # Degree and flow profiles of a node

The degree profile counts a node's links in each direction. The flow profile counts ordered
pairs of links at the node that can share an occurrence: two links form a pair when their times
relate as the slot says (the second after the first, before it, or at the same time) within the
maximum span. A pair whose two far ends are one node goes to a two-node slot, any other pair to
a three-node slot.

Directed slots: 0/7 incoming then a later outgoing link (three/two nodes), 1/8 incoming then an
earlier outgoing link, 2/9 incoming and outgoing at one time, 3/10 as 0/7, 4 two distinct
incoming links at one time, 5/11 outgoing then a later outgoing link, 6 two distinct outgoing
links at one time. Undirected slots: 0/2 a link then a later one, 1 two distinct links at one
time.

Both profiles are counted with a slot counter, in loops that several slots share and that stop
early once the slots they feed are finished. `Flow.directedSlots` and `Flow.undirectedSlots`
list each slot's contributions in the order the loops count them. -/

namespace TemporalMotif

namespace Moment

/-- Pairs of links from `m` and `m'` whose far ends differ, and those whose far ends agree. -/
def pairSplit (m m' : Moment) : Nat × Nat :=
  let common := m.links.countP fun (n, _) => m'.links.hasNeighbour n
  (m.links.length * m'.links.length - common, common)

/-- Ordered pairs of distinct links within `m`. -/
def innerPairs (m : Moment) : Nat := m.links.length * (m.links.length - 1)

end Moment

namespace Flow

/-- For every moment `m` of `firsts`, the splits of `m` against each moment of `seconds` in
the window `w m.time`. -/
def splits (firsts seconds : TimeIndex) (w : Int → Window) : List (Nat × Nat) :=
  firsts.moments.flatMap fun m => (seconds.slice (w m.time)).map m.pairSplit

/-- For every moment of `firsts`, its split against the moment of `seconds` at the same time. -/
def syncSplits (firsts seconds : TimeIndex) : List (Nat × Nat) :=
  firsts.moments.filterMap fun m => (seconds.at? m.time).map m.pairSplit

/-- The contributions of the twelve directed slots, for incoming links `ins` and outgoing
links `outs`, in the order they are counted. -/
def directedSlots (ins outs : TimeIndex) (span : MaxSpan) : List (List Nat) :=
  let fwd := splits ins outs span.after
  let bwd := splits ins outs span.before
  let sync := syncSplits ins outs
  let oo := splits outs outs span.after
  [fwd.map (·.1), bwd.map (·.1), sync.map (·.1), fwd.map (·.1), ins.moments.map Moment.innerPairs,
    oo.map (·.1), outs.moments.map Moment.innerPairs,
    fwd.map (·.2), bwd.map (·.2), sync.map (·.2), fwd.map (·.2), oo.map (·.2)]

/-- The contributions of the three undirected slots, for reciprocal links `recips`, in the
order they are counted. -/
def undirectedSlots (recips : TimeIndex) (span : MaxSpan) : List (List Nat) :=
  let after := splits recips recips span.after
  [after.map (·.1), recips.moments.map Moment.innerPairs, after.map (·.2)]

end Flow

namespace SlotCounter

/-- Adds the pairs of links of `m` and `m'` to slot `three` (far ends differ) and slot `two`
(far ends agree). -/
def addPairs (c : SlotCounter) (three two : Nat) (m m' : Moment) : SlotCounter :=
  let (p3, p2) := m.pairSplit m'
  (c.add three p3).add two p2

/-- Unless slots `three` and `two` are both finished, adds the pairs of `m` with each of `ms`. -/
def addPairsIfOpen (c : SlotCounter) (three two : Nat) (m : Moment) (ms : List Moment) :
    SlotCounter :=
  if c.anyOpen [three, two] then ms.foldl (fun c m' => c.addPairs three two m m') c else c

end SlotCounter

namespace Flow

/-- The directed slots fed by the loop over incoming links. -/
def inDriven : List Nat := [0, 1, 2, 3, 4, 7, 8, 9, 10]

/-- The directed slots fed by the loop over outgoing links. -/
def outDriven : List Nat := [5, 6, 11]

/-- One step of the loop over incoming links, at the incoming moment `m`: its pairs with the
outgoing moments after it, before it and at its time, and the pairs within it. -/
def inStep (outs : TimeIndex) (span : MaxSpan) (c : SlotCounter) (m : Moment) : SlotCounter :=
  let c := c.addPairsIfOpen 0 7 m (outs.slice (span.after m.time))
  let c := c.addPairsIfOpen 1 8 m (outs.slice (span.before m.time))
  let c := c.addPairsIfOpen 2 9 m (outs.at? m.time).toList
  let c := c.addPairsIfOpen 3 10 m (outs.slice (span.after m.time))
  if c.isOpen 4 then c.add 4 m.innerPairs else c

/-- One step of the loop over outgoing links, at the outgoing moment `m`: its pairs with the
outgoing moments after it, and the pairs within it. -/
def outStep (outs : TimeIndex) (span : MaxSpan) (c : SlotCounter) (m : Moment) : SlotCounter :=
  let c := c.addPairsIfOpen 5 11 m (outs.slice (span.after m.time))
  if c.isOpen 6 then c.add 6 m.innerPairs else c

/-- The twelve directed slots for incoming links `ins` and outgoing links `outs`. The loop over
incoming links stops once every slot it feeds is finished, and so does the loop over outgoing
links. -/
def directed (ins outs : TimeIndex) (limits : Option Profile) (span : MaxSpan) : Profile :=
  -- a loop guarded by a test and left when the test fails after a step tests before each step
  let c := (SlotCounter.new 12 limits).loop (·.anyOpen inDriven) (inStep outs span) ins.moments
  (c.loop (·.anyOpen outDriven) (outStep outs span) outs.moments).counts

/-- One step of the undirected loop, at the moment `m`: its pairs with the moments after it,
and the pairs within it. -/
def undirectedStep (recips : TimeIndex) (span : MaxSpan) (c : SlotCounter) (m : Moment) :
    SlotCounter :=
  let c := c.addPairsIfOpen 0 2 m (recips.slice (span.after m.time))
  if c.isOpen 1 then c.add 1 m.innerPairs else c

/-- The three undirected slots for reciprocal links `recips`; the loop stops once every slot
is finished. -/
def undirected (recips : TimeIndex) (limits : Option Profile) (span : MaxSpan) : Profile :=
  ((SlotCounter.new 3 limits).loop (!·.allFinished) (undirectedStep recips span)
    recips.moments).counts

end Flow

namespace Graph

/-- One step of the loop over directions: the moment sizes of direction `ds.1` go to slot
`ds.2`, the loop over the moments stopping once the slot is finished. -/
def degreeStep (g : Graph) (node : Nat) (c : SlotCounter) (ds : Direction × Nat) : SlotCounter :=
  match g.adjacency node ds.1 with
  | none => c
  | some ix => c.loop (·.isOpen ds.2) (fun c m => c.add ds.2 m.links.length) ix.moments

/-- Links of `node` per direction: slot `k` sums the moment sizes of direction `k`; the loop
over directions stops once every slot is finished. -/
def degree (g : Graph) (node : Nat) (limits : Option Profile) : Profile :=
  ((SlotCounter.new 3 limits).loop (!·.allFinished) (g.degreeStep node) Direction.all.zipIdx).counts

/-- The flow profile of `node` for the maximum span `span`. -/
def flow (g : Graph) (node : Nat) (limits : Option Profile) (span : MaxSpan) : Profile :=
  if g.directed then
    Flow.directed (g.indexOf node .incoming) (g.indexOf node .outgoing) limits span
  else
    Flow.undirected (g.indexOf node .reciprocal) limits span

end Graph

end TemporalMotif
