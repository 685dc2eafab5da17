import TemporalMotif.Graph.Basic

/-! # Sampling a query from a graph

A sampled query grows from a start node drawn among all nodes. Room for the `k` picked edges is
reserved first: at 16 bytes an edge, more than `pickCapacity` of them exceed the largest
allocation, `2^63 - 1` bytes, and sampling panics with `capacity overflow` before any edge is
drawn. Each step then draws one edge among those not taken yet that touch the nodes reached so
far (listed node by node, direction by direction, time by time, each edge once, oriented as it
was added), and reaches its ends that carry a label. After `k` edges the query gets fresh times:
each edge draws times in `1..k` until one is not yet used by an edge with the same ends (the same
pair of ends, in either order, when undirected). Sampling gives no query for `k = 0`, a graph
without nodes, or when no edge is left to draw before `k` are taken.

The draws come from any source `draw s lo hi` of values in `[lo, hi]`. Nothing bounds the
redraws of a time: a source that keeps giving used times never ends. The model counts them,
and a run whose time draws exceed `tries` for one edge ends `retrying`; a run that ends within
`tries` ends the same with more. -/

namespace TemporalMotif

/-- A source of draws: `draw s lo hi` is a value in `[lo, hi]` and the next state. -/
abbrev Draw (σ : Type) := σ → Nat → Nat → Nat × σ

/-- How a run of the sampler ends. -/
inductive SampleEnd where
  /-- The sampled query. -/
  | query (q : Graph)
  /-- No query: no edge asked for, no node to start from, or no edge left to draw. -/
  | none
  /-- A panic, with its message. -/
  | panicked (message : String)
  /-- An edge's time was still being redrawn when its tries ran out. -/
  | retrying

namespace Graph

/-- The edges not in `taken` that touch `nodes`, each once, with its ends in added order. -/
def incident (g : Graph) (nodes taken : List Nat) : List (Nat × Nat × Nat) :=
  let visit := fun (acc : List (Nat × Nat × Nat)) (node : Nat) (d : Direction) (nbr e : Nat) =>
    if taken.contains e || acc.any (·.1 == e) then acc
    else acc ++ [(e, if d = .incoming then (nbr, node) else (node, nbr))]
  nodes.foldl (fun acc node =>
    Direction.all.foldl (fun acc d =>
      (g.indexOf node d).moments.foldl (fun acc m =>
        m.links.foldl (fun acc (nbr, e) => visit acc node d nbr e) acc) acc) acc) []

/-- What the sampler has so far: the reached nodes with labels, the taken edges, and the drawn
edges as `(source, dest, edge)`. -/
structure Sampled where
  nodes : List (Nat × Nat)
  taken : List Nat
  picked : List (Nat × Nat × Nat)

/-- Adds `node` with its label, if it has one and is new. -/
def reachNode (g : Graph) (nodes : List (Nat × Nat)) (node : Nat) : List (Nat × Nat) :=
  match g.label? node with
  | some l => if nodes.any (·.1 == node) then nodes else nodes ++ [(node, l)]
  | none => nodes

/-- Draws `n` more edges, or fails when none is left to draw. -/
def drawEdges {σ : Type} (g : Graph) (draw : Draw σ) : Nat → Sampled → σ → Option (Sampled × σ)
  | 0, p, s => some (p, s)
  | n + 1, p, s =>
    let cands := g.incident (p.nodes.map (·.1)) p.taken
    if cands.isEmpty then none
    else
      let (i, s) := draw s 0 (cands.length - 1)
      match cands[i]? with
      | none => none
      | some (e, a, b) =>
        let nodes := g.reachNode (g.reachNode p.nodes a) b
        drawEdges g draw n ⟨nodes, e :: p.taken, p.picked ++ [(a, b, e)]⟩ s

/-- A time in `1..k` not used with the ends `key`, drawn again while the drawn one is used;
`none` once `tries` draws have all given used times. -/
def freshTime {σ : Type} (draw : Draw σ) (used : List (Nat × Nat × Nat)) (key : Nat × Nat)
    (k : Nat) : Nat → σ → Option (Nat × σ)
  | 0, _ => none
  | tries + 1, s =>
    let (t, s) := draw s 1 k
    if used.contains (key.1, key.2, t) then freshTime draw used key k tries s else some (t, s)

/-- The key under which a sampled edge from `a` to `b` draws its time: its ends, the smaller first
when undirected. -/
def sampleKey (g : Graph) (a b : Nat) : Nat × Nat :=
  if g.directed || decide (a < b) then (a, b) else (b, a)

/-- The label of edge `e`, or `0` if there is none. -/
def edgeLabel (g : Graph) (e : Nat) : Nat := (g.edges[e]?.map (·.label)).getD 0

/-- Places one picked edge `(a, b, e)`: draws it a fresh time under its key, adds it, and records
the key and time; `none` when the tries run out. -/
def placeEdge {σ : Type} (g : Graph) (draw : Draw σ) (k tries : Nat)
    (acc : Graph × List (Nat × Nat × Nat) × σ) (c : Nat × Nat × Nat) :
    Option (Graph × List (Nat × Nat × Nat) × σ) :=
  let key := g.sampleKey c.1 c.2.1
  (freshTime draw acc.2.1 key k tries acc.2.2).map fun ts =>
    (acc.1.addEdge c.1 c.2.1 ts.1 (g.edgeLabel c.2.2), (key.1, key.2, ts.1) :: acc.2.1, ts.2)

/-- The query a growth ends in: its reached nodes with their labels, then its picked edges placed
with fresh times; `none` when an edge's tries run out. -/
def placeAll {σ : Type} (g : Graph) (draw : Draw σ) (k tries : Nat) (p : Sampled) (s : σ) :
    Option Graph :=
  let q := p.nodes.foldl (fun q (n, l) => q.addNode n l) (Graph.empty g.directed)
  (p.picked.foldlM (g.placeEdge draw k tries) (q, [], s)).map (·.1)

/-- The most picked edges that room can be reserved for: 16 bytes each, within `2^63 - 1`
bytes. -/
def pickCapacity : Nat := 576460752303423487

/-- The message of an index past the end of a list of length `len`. -/
def indexMessage (len i : Nat) : String :=
  "index out of bounds: the len is " ++ toString len ++ " but the index is " ++ toString i

/-- A query of `k` edges sampled from `g` with the draws of `draw` from state `s`, each edge's
time drawn at most `tries` times. -/
def sample {σ : Type} (g : Graph) (k : Nat) (draw : Draw σ) (s : σ) (tries : Nat) : SampleEnd :=
  if k = 0 || g.nodes.isEmpty then .none
  else
    let (i, s) := draw s 0 (g.nodes.length - 1)
    match g.nodes[i]? with
    | none => .panicked (indexMessage g.nodes.length i)
    | some start =>
      if pickCapacity < k then .panicked "capacity overflow"
      else
        match g.drawEdges draw k ⟨[start], [], []⟩ s with
        | none => .none
        | some (p, s) =>
          -- never taken: a reservation that succeeded holds fewer edges than this bound
          if (k : Int) > 9223372036854775807 then .none
          else
            match g.placeAll draw k tries p s with
            | some q => .query q
            | none => .retrying

end Graph

end TemporalMotif
