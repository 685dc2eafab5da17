import Mathlib.Data.List.Induction
import TemporalMotif.Proofs.Lookup

/-! # Graphs built by adding nodes and edges

A graph is built from the empty graph by a sequence of `addNode` and `addEdge` calls. This file
reads everything the graph holds off that sequence: the edge arena is the list of added edges,
a node keeps the label of its first `addNode`, and the links of a node at one time in one
direction are those the added edges make there, each neighbour in the place it first took and
with the last edge that reached it. The invariant `Built` ties a graph to its calls; `built_ofOps`
proves it for every sequence, one step lemma per kind of call. -/

namespace TemporalMotif

/-- One call that builds a graph. -/
inductive GraphOp where
  | addNode (node label : Nat)
  | addEdge (source dest : Nat) (time : Int) (label : Nat)
deriving DecidableEq, Repr

namespace GraphOp

/-- Runs one call on `g`. -/
def apply (g : Graph) : GraphOp → Graph
  | addNode n l => g.addNode n l
  | addEdge s d t l => g.addEdge s d t l

/-- The edge that a call adds. -/
def edge? : GraphOp → Option Edge
  | addNode _ _ => none
  | addEdge s d t l => some ⟨s, d, t, l⟩

/-- The node and label that a call adds. -/
def node? : GraphOp → Option (Nat × Nat)
  | addNode n l => some (n, l)
  | addEdge .. => none

end GraphOp

/-- The graph that the calls `ops` build from the empty graph of kind `directed`. -/
def Graph.ofOps (directed : Bool) (ops : List GraphOp) : Graph :=
  ops.foldl GraphOp.apply (Graph.empty directed)

/-- The edges the calls add, in order: position `i` holds edge `i`. -/
def addedEdges (ops : List GraphOp) : List Edge := ops.filterMap GraphOp.edge?

/-- The nodes the calls add with their labels, repeats included, in order. -/
def addedNodes (ops : List GraphOp) : List (Nat × Nat) := ops.filterMap GraphOp.node?

namespace Direction

/-- Whether a graph of kind `directed` keeps links in direction `d`: outgoing and incoming
ones when directed, reciprocal ones when not. -/
def serves (directed : Bool) : Direction → Bool
  | outgoing => directed
  | incoming => directed
  | reciprocal => !directed

end Direction

namespace Edge

/-- The `(owner, neighbour)` links that an edge makes among the links of direction `d`. -/
def links (e : Edge) : Direction → List (Nat × Nat)
  | .outgoing => [(e.source, e.dest)]
  | .incoming => [(e.dest, e.source)]
  | .reciprocal => [(e.source, e.dest), (e.dest, e.source)]

/-- Two edges share a key: the same time and the same ends, in either order when undirected. -/
def SameKey (directed : Bool) (e f : Edge) : Prop :=
  e.time = f.time ∧
    (e.source = f.source ∧ e.dest = f.dest ∨ directed = false ∧ e.source = f.dest ∧ e.dest = f.source)

end Edge

/-- Position `i` of `es` holds the last edge of `es` that satisfies `p`. -/
def IsLastWhere (es : List Edge) (p : Edge → Prop) (i : Nat) : Prop :=
  (∃ e, es[i]? = some e ∧ p e) ∧ ∀ j, i < j → ∀ e, es[j]? = some e → ¬ p e

/-- Edge `i` of `es` is live: no later edge has its key. -/
def IsLive (directed : Bool) (es : List Edge) (i : Nat) : Prop :=
  ∃ e, es[i]? = some e ∧ ∀ j, i < j → ∀ f, es[j]? = some f → ¬ f.SameKey directed e

/-- One edge `(e, i)` added to the links `ls` of `owner` at time `t` in direction `d`. -/
def linkStep (d : Direction) (owner : Nat) (t : Int) (ls : Links) (ei : Edge × Nat) : Links :=
  if ei.1.time = t then
    (ei.1.links d).foldl (fun ls p => if p.1 = owner then ls.link p.2 ei.2 else ls) ls
  else ls

/-- The links that the edges `es` make at `owner` at time `t` in direction `d`. -/
def expectedLinks (es : List Edge) (d : Direction) (owner : Nat) (t : Int) : Links :=
  es.zipIdx.foldl (linkStep d owner t) []

/-- The neighbours that the edges `es` give `owner` at time `t` in direction `d`, in order,
repeats included. -/
def arrivals (es : List Edge) (d : Direction) (owner : Nat) (t : Int) : List Nat :=
  es.flatMap fun e => if e.time = t then ((e.links d).filter (·.1 = owner)).map (·.2) else []

/-- The moment that the links `ls` form at time `t`; none without links. -/
def momentOf (ls : Links) (t : Int) : Option Moment := if ls = [] then none else some ⟨t, ls⟩

namespace Graph

/-- The index table of direction `d`. -/
def table (g : Graph) : Direction → IndexTable
  | .outgoing => g.outgoing
  | .incoming => g.incoming
  | .reciprocal => g.reciprocal

theorem adjacency_eq_table (g : Graph) (x : Nat) (d : Direction) :
    g.adjacency x d = (g.table d).get? x := by
  cases d <;> rfl

end Graph

/-- Table `tb` holds the links `F x t` at each node `x` and time `t`. -/
def TableHolds (tb : IndexTable) (F : Nat → Int → Links) : Prop :=
  ∀ x t, ((tb.get? x).getD TimeIndex.empty).at? t = momentOf (F x t) t

/-- The invariant of a graph built by the calls `ops` on an empty graph of kind `directed`. -/
structure Built (g : Graph) (directed : Bool) (ops : List GraphOp) : Prop where
  directed_eq : g.directed = directed
  edges_eq : g.edges.toList = addedEdges ops
  ids_eq : g.nodes.map Prod.fst = ((addedNodes ops).map Prod.fst).eraseDups
  label_eq : ∀ x, g.label? x = (addedNodes ops).lookup x
  present : ∀ d x, ((g.table d).get? x).isSome ↔
    d.serves directed ∧ (x ∈ (addedNodes ops).map Prod.fst ∨ ∃ e ∈ addedEdges ops, ∃ n, (x, n) ∈ e.links d)
  moments : ∀ d, TableHolds (g.table d) fun x t =>
    if d.serves directed then expectedLinks (addedEdges ops) d x t else []

/-! ### The links that a list of edges makes -/

section Arrivals

theorem eraseDups_append_singleton (as : List Nat) (n : Nat) :
    (as ++ [n]).eraseDups = if n ∈ as then as.eraseDups else as.eraseDups ++ [n] := by
  rw [List.eraseDups_append]
  by_cases hn : n ∈ as
  · have : [n].removeAll as = [] := by simp [List.removeAll, hn]
    simp [this, hn]
  · have : [n].removeAll as = [n] := by simp [List.removeAll, hn]
    simp [this, hn, List.eraseDups_cons]

theorem isLastWhere_append_singleton (es : List Edge) (e : Edge) (p : Edge → Prop) (i : Nat) :
    IsLastWhere (es ++ [e]) p i ↔ (p e ∧ i = es.length) ∨ (¬ p e ∧ IsLastWhere es p i) := by
  constructor
  · rintro ⟨⟨f, hf, hpf⟩, hlast⟩
    by_cases hpe : p e
    · refine .inl ⟨hpe, ?_⟩
      have hle : i < es.length + 1 := by simpa using (List.getElem?_eq_some_iff.1 hf).1
      rcases Nat.lt_or_ge i es.length with hlt | hge
      · exact absurd hpe (hlast es.length hlt e (by simp))
      · omega
    · refine .inr ⟨hpe, ⟨f, ?_, hpf⟩, fun j hij f' hf' => ?_⟩
      · rcases Nat.lt_or_ge i es.length with hi | hi
        · rwa [List.getElem?_append_left hi] at hf
        · rw [List.getElem?_append_right hi] at hf
          obtain rfl : i = es.length := by
            have := (List.getElem?_eq_some_iff.1 hf).1; simp at this; omega
          simp at hf; exact absurd (hf ▸ hpf) hpe
      · have hj : j < es.length := (List.getElem?_eq_some_iff.1 hf').1
        exact hlast j hij f' (by rw [List.getElem?_append_left hj]; exact hf')
  · rintro (⟨hpe, rfl⟩ | ⟨hpe, ⟨f, hf, hpf⟩, hlast⟩)
    · refine ⟨⟨e, by simp, hpe⟩, fun j hij f hf => ?_⟩
      have := (List.getElem?_eq_some_iff.1 hf).1; simp at this; omega
    · have hi : i < es.length := (List.getElem?_eq_some_iff.1 hf).1
      refine ⟨⟨f, by rw [List.getElem?_append_left hi]; exact hf, hpf⟩, fun j hij f' hf' => ?_⟩
      rcases Nat.lt_or_ge j es.length with hj | hj
      · rw [List.getElem?_append_left hj] at hf'; exact hlast j hij f' hf'
      · rw [List.getElem?_append_right hj] at hf'
        obtain rfl : j = es.length := by
          have := (List.getElem?_eq_some_iff.1 hf').1; simp at this; omega
        simp at hf'; exact hf' ▸ hpe

theorem expectedLinks_append (es : List Edge) (e : Edge) (d : Direction) (x : Nat) (t : Int) :
    expectedLinks (es ++ [e]) d x t = linkStep d x t (expectedLinks es d x t) (e, es.length) := by
  simp [expectedLinks, List.zipIdx_append]

theorem arrivals_append (es : List Edge) (e : Edge) (d : Direction) (x : Nat) (t : Int) :
    arrivals (es ++ [e]) d x t =
      arrivals es d x t ++ if e.time = t then ((e.links d).filter (·.1 = x)).map (·.2) else [] := by
  simp [arrivals]

variable {ps : List (Nat × Nat)} {owner i : Nat}

theorem edgeTo?_foldLinks (ps : List (Nat × Nat)) (owner i : Nat) (ls : Links) (n : Nat) :
    (ps.foldl (fun ls p => if p.1 = owner then ls.link p.2 i else ls) ls).edgeTo? n =
      if (owner, n) ∈ ps then some i else ls.edgeTo? n := by
  induction ps generalizing ls with
  | nil => simp
  | cons p ps ih =>
    obtain ⟨o, m⟩ := p
    rw [List.foldl_cons, ih]
    by_cases ho : o = owner
    · subst ho
      rw [if_pos rfl, Links.edgeTo?_link]
      by_cases hn : n = m
      · subst hn; simp
      · simp [hn]
    · rw [if_neg ho]
      have : (owner, n) ≠ (o, m) := fun h => ho (Prod.mk.inj h).1.symm
      simp [this]

theorem nbrs_foldLinks (ps : List (Nat × Nat)) (owner i : Nat) (ls : Links) (as : List Nat)
    (h : ls.nbrs = as.eraseDups) :
    (ps.foldl (fun ls p => if p.1 = owner then ls.link p.2 i else ls) ls).nbrs =
      (as ++ (ps.filter (·.1 = owner)).map (·.2)).eraseDups := by
  induction ps generalizing ls as with
  | nil => simpa using h
  | cons p ps ih =>
    obtain ⟨o, m⟩ := p
    rw [List.foldl_cons]
    by_cases ho : o = owner
    · subst ho
      rw [if_pos rfl]
      have hstep : (ls.link m i).nbrs = (as ++ [m]).eraseDups := by
        rw [Links.nbrs_link, eraseDups_append_singleton, h]
        simp only [List.mem_eraseDups]
      rw [ih _ _ hstep]
      simp
    · rw [if_neg ho, ih _ _ h]
      simp [ho]

theorem edgeTo?_expectedLinks (es : List Edge) (d : Direction) (x : Nat) (t : Int) (n i : Nat) :
    (expectedLinks es d x t).edgeTo? n = some i ↔
      IsLastWhere es (fun f => f.time = t ∧ (x, n) ∈ f.links d) i := by
  induction es using List.reverseRecOn generalizing i with
  | nil => simp [expectedLinks, IsLastWhere, Links.edgeTo?]
  | append_singleton es e ih =>
    rw [expectedLinks_append, isLastWhere_append_singleton, ← ih]
    unfold linkStep
    by_cases ht : e.time = t
    · rw [if_pos ht, edgeTo?_foldLinks]
      by_cases hm : (x, n) ∈ e.links d
      · simp [ht, hm, eq_comm]
      · simp [ht, hm]
    · simp [ht]

theorem nbrs_expectedLinks (es : List Edge) (d : Direction) (x : Nat) (t : Int) :
    (expectedLinks es d x t).nbrs = (arrivals es d x t).eraseDups := by
  induction es using List.reverseRecOn with
  | nil => simp [expectedLinks, arrivals]
  | append_singleton es e ih =>
    rw [expectedLinks_append, arrivals_append]
    unfold linkStep
    by_cases ht : e.time = t
    · rw [if_pos ht, if_pos ht, nbrs_foldLinks _ _ _ _ _ ih]
    · simp [ht, ih]

end Arrivals

/-! ### Tables after linking and touching -/

theorem Links.link_ne_nil (ls : Links) (nbr e : Nat) : ls.link nbr e ≠ [] := by
  cases ls with
  | nil => simp [Links.link]
  | cons p ls => unfold Links.link; split <;> simp

theorem IndexTable.isSome_get?_link (tb : IndexTable) (owner : Nat) (t : Int) (nbr e x : Nat) :
    ((tb.link owner t nbr e).get? x).isSome ↔ x = owner ∨ (tb.get? x).isSome := by
  rw [IndexTable.get?_link]; by_cases hx : x = owner <;> simp [hx]

theorem IndexTable.isSome_get?_touch (tb : IndexTable) (node x : Nat) :
    ((tb.touch node).get? x).isSome ↔ x = node ∨ (tb.get? x).isSome := by
  rw [IndexTable.get?_touch]; by_cases hx : x = node <;> simp [hx]

namespace TableHolds

variable {tb : IndexTable} {F : Nat → Int → Links}

theorem congr (h : TableHolds tb F) {G : Nat → Int → Links} (hG : ∀ x t, F x t = G x t) :
    TableHolds tb G := fun x t => hG x t ▸ h x t

theorem link (h : TableHolds tb F) (owner : Nat) (t : Int) (nbr e : Nat) :
    TableHolds (tb.link owner t nbr e) fun x s =>
      if x = owner ∧ s = t then (F owner t).link nbr e else F x s := by
  intro x s
  rw [IndexTable.get?_link]
  by_cases hx : x = owner
  · subst hx
    rw [if_pos rfl, Option.getD_some, TimeIndex.at?_link]
    by_cases hs : s = t
    · subst hs
      rw [h x s]
      unfold momentOf
      by_cases hF : F x s = []
      · simp [hF, Links.link]
      · simp [hF, Links.link_ne_nil]
    · simp [hs, h x s]
  · simp [hx, h x s]

theorem touch (h : TableHolds tb F) (node : Nat) : TableHolds (tb.touch node) F := by
  intro x s
  rw [IndexTable.get?_touch]
  by_cases hx : x = node
  · subst hx; simpa using h x s
  · simpa [hx] using h x s

end TableHolds

/-! ### One step per call -/

namespace Graph

variable (g : Graph)

theorem containsNode_iff (n : Nat) : g.containsNode n = true ↔ n ∈ g.nodes.map Prod.fst := by
  simp [containsNode]

@[simp] theorem addNode_directed (n l : Nat) : (g.addNode n l).directed = g.directed := by
  unfold addNode
  by_cases h1 : g.containsNode n <;> by_cases h2 : g.directed <;> simp [h1, h2]

@[simp] theorem addNode_edges (n l : Nat) : (g.addNode n l).edges = g.edges := by
  unfold addNode
  by_cases h1 : g.containsNode n <;> by_cases h2 : g.directed <;> simp [h1, h2]

theorem addNode_nodes (n l : Nat) :
    (g.addNode n l).nodes = if g.containsNode n then g.nodes else g.nodes ++ [(n, l)] := by
  unfold addNode
  by_cases h1 : g.containsNode n <;> by_cases h2 : g.directed <;> simp [h1, h2]

theorem addNode_table (n l : Nat) (d : Direction) :
    (g.addNode n l).table d = if d.serves g.directed then (g.table d).touch n else g.table d := by
  unfold addNode
  cases d <;> by_cases h1 : g.containsNode n <;> by_cases h2 : g.directed <;>
    simp [h1, h2, table, Direction.serves]

@[simp] theorem addEdge_directed (s d : Nat) (t : Int) (l : Nat) :
    (g.addEdge s d t l).directed = g.directed := by
  unfold addEdge; by_cases h : g.directed <;> simp [h]

@[simp] theorem addEdge_edges (s d : Nat) (t : Int) (l : Nat) :
    (g.addEdge s d t l).edges = g.edges.push ⟨s, d, t, l⟩ := by
  unfold addEdge; by_cases h : g.directed <;> simp [h]

@[simp] theorem addEdge_nodes (s d : Nat) (t : Int) (l : Nat) :
    (g.addEdge s d t l).nodes = g.nodes := by
  unfold addEdge; by_cases h : g.directed <;> simp [h]

theorem addEdge_table_outgoing (s d : Nat) (t : Int) (l : Nat) :
    (g.addEdge s d t l).table .outgoing =
      if g.directed then g.outgoing.link s t d g.edges.size else g.outgoing := by
  unfold addEdge; by_cases h : g.directed <;> simp [h, table]

theorem addEdge_table_incoming (s d : Nat) (t : Int) (l : Nat) :
    (g.addEdge s d t l).table .incoming =
      if g.directed then g.incoming.link d t s g.edges.size else g.incoming := by
  unfold addEdge; by_cases h : g.directed <;> simp [h, table]

theorem addEdge_table_reciprocal (s d : Nat) (t : Int) (l : Nat) :
    (g.addEdge s d t l).table .reciprocal =
      if g.directed then g.reciprocal
      else (g.reciprocal.link s t d g.edges.size).link d t s g.edges.size := by
  unfold addEdge; by_cases h : g.directed <;> simp [h, table]

end Graph

@[simp] theorem addedEdges_append (ops : List GraphOp) (op : GraphOp) :
    addedEdges (ops ++ [op]) = addedEdges ops ++ op.edge?.toList := by
  cases op <;> simp [addedEdges, GraphOp.edge?]

@[simp] theorem addedNodes_append (ops : List GraphOp) (op : GraphOp) :
    addedNodes (ops ++ [op]) = addedNodes ops ++ op.node?.toList := by
  cases op <;> simp [addedNodes, GraphOp.node?]

namespace Built

variable {g : Graph} {directed : Bool} {ops : List GraphOp}

theorem empty (directed : Bool) : Built (Graph.empty directed) directed [] := by
  refine ⟨rfl, rfl, rfl, fun x => rfl, fun d x => ?_, fun d x t => ?_⟩
  · cases d <;> simp [Graph.empty, Graph.table, addedNodes, addedEdges]
  · cases d <;> simp [Graph.empty, Graph.table, expectedLinks, momentOf, addedEdges]

theorem containsNode_iff (h : Built g directed ops) (x : Nat) :
    g.containsNode x = true ↔ x ∈ (addedNodes ops).map Prod.fst := by
  rw [Graph.containsNode_iff, h.ids_eq, List.mem_eraseDups]

theorem addNode (h : Built g directed ops) (n l : Nat) :
    Built (g.addNode n l) directed (ops ++ [.addNode n l]) := by
  have hmem := h.containsNode_iff n
  have hnodes : addedNodes (ops ++ [.addNode n l]) = addedNodes ops ++ [(n, l)] := by
    simp [GraphOp.node?]
  have hedges : addedEdges (ops ++ [.addNode n l]) = addedEdges ops := by simp [GraphOp.edge?]
  refine ⟨by simp [h.directed_eq], by simp [h.edges_eq, hedges], ?_, fun x => ?_, fun d x => ?_,
    fun d => ?_⟩
  · rw [Graph.addNode_nodes, hnodes, List.map_append, List.map_singleton, eraseDups_append_singleton,
      ← h.ids_eq]
    by_cases hn : g.containsNode n = true
    · rw [if_pos hn, if_pos (hmem.1 hn)]
    · rw [if_neg hn, if_neg (fun h' => hn (hmem.2 h'))]; simp
  · have hl := h.label_eq x
    simp only [Graph.label?] at hl ⊢
    rw [Graph.addNode_nodes, hnodes, List.lookup_append, ← hl]
    by_cases hn : g.containsNode n = true
    · rw [if_pos hn]
      by_cases hx : x = n
      · subst hx
        obtain ⟨y, hy⟩ : ∃ y, g.nodes.lookup x = some y :=
          Option.isSome_iff_exists.1 (List.lookup_isSome_iff.2 (by simpa [Graph.containsNode] using hn))
        simp [hy]
      · simp [hx]
    · rw [if_neg hn, List.lookup_append]
  · rw [Graph.addNode_table, hnodes, hedges, h.directed_eq]
    have hp := h.present d x
    by_cases hd : d.serves directed = true
    · rw [if_pos hd, IndexTable.isSome_get?_touch, hp]
      simp only [hd, true_and, List.map_append, List.map_singleton, List.mem_append, List.mem_singleton]
      tauto
    · rw [if_neg hd, hp]; simp [hd]
  · rw [Graph.addNode_table, hedges, h.directed_eq]
    by_cases hd : d.serves directed = true
    · rw [if_pos hd]; exact (h.moments d).touch n
    · rw [if_neg hd]; exact h.moments d

/-- What one edge adds to the links of a direction with a single link per edge. -/
theorem linkStep_of_links_eq {d : Direction} {e : Edge} {o n : Nat} (he : e.links d = [(o, n)])
    (x : Nat) (t : Int) (ls : Links) (k : Nat) :
    linkStep d x t ls (e, k) = if o = x ∧ e.time = t then ls.link n k else ls := by
  unfold linkStep
  rw [he]
  by_cases ho : o = x <;> by_cases ht : e.time = t <;> simp [ho, ht]

theorem addEdge (h : Built g directed ops) (s dst : Nat) (t : Int) (l : Nat) :
    Built (g.addEdge s dst t l) directed (ops ++ [.addEdge s dst t l]) := by
  have hdir := h.directed_eq
  subst hdir
  have hnodes : addedNodes (ops ++ [.addEdge s dst t l]) = addedNodes ops := by simp [GraphOp.node?]
  have hedges : addedEdges (ops ++ [.addEdge s dst t l]) = addedEdges ops ++ [⟨s, dst, t, l⟩] := by
    simp [GraphOp.edge?]
  have hsize : g.edges.size = (addedEdges ops).length := by
    rw [← h.edges_eq, Array.length_toList]
  have hE : ∀ d x t', expectedLinks (addedEdges (ops ++ [.addEdge s dst t l])) d x t' =
      linkStep d x t' (expectedLinks (addedEdges ops) d x t') (⟨s, dst, t, l⟩, g.edges.size) := by
    intro d x t'
    rw [hedges, expectedLinks_append, hsize]
  refine ⟨by simp, by simp [h.edges_eq, hedges], by simp [h.ids_eq, hnodes],
    fun x => by simpa [Graph.label?, hnodes] using h.label_eq x, fun d x => ?_, fun d => ?_⟩
  · have hp := h.present d x
    rw [hnodes, hedges]
    cases d <;> simp only [Graph.table] at hp
    · rw [Graph.addEdge_table_outgoing]
      by_cases hd : g.directed = true
      · rw [if_pos hd, IndexTable.isSome_get?_link, hp]
        simp [Direction.serves, hd, Edge.links]
        exact or_rotate
      · rw [if_neg hd, hp]; simp [Direction.serves, hd]
    · rw [Graph.addEdge_table_incoming]
      by_cases hd : g.directed = true
      · rw [if_pos hd, IndexTable.isSome_get?_link, hp]
        simp [Direction.serves, hd, Edge.links]
        exact or_rotate
      · rw [if_neg hd, hp]; simp [Direction.serves, hd]
    · rw [Graph.addEdge_table_reciprocal]
      by_cases hd : g.directed = true
      · rw [if_pos hd, hp]; simp [Direction.serves, hd]
      · rw [if_neg hd, IndexTable.isSome_get?_link, IndexTable.isSome_get?_link, hp]
        simp [Direction.serves, hd, Edge.links]
        have hr : (∃ n, x = s ∧ n = dst ∨ x = dst ∧ n = s) ↔ x = dst ∨ x = s :=
          ⟨by rintro ⟨n, ⟨rfl, -⟩ | ⟨rfl, -⟩⟩ <;> simp, by rintro (rfl | rfl) <;> simp⟩
        rw [hr]
        constructor
        · rintro (h | h | h | h) <;> simp [h]
        · rintro (h | h | h | h) <;> simp [h]
  · have hm := h.moments d
    cases d
    · rw [Graph.addEdge_table_outgoing]
      by_cases hd : g.directed = true
      · rw [if_pos hd]
        refine (hm.link s t dst g.edges.size).congr fun x t' => ?_
        rw [hE, linkStep_of_links_eq (o := s) (n := dst) rfl]
        simp only [Direction.serves, hd, if_true]
        by_cases hxt : x = s ∧ t' = t
        · obtain ⟨rfl, rfl⟩ := hxt; simp
        · rw [if_neg hxt, if_neg fun h' => hxt ⟨h'.1.symm, h'.2.symm⟩]
      · rw [if_neg hd]
        exact hm.congr fun x t' => by simp [Direction.serves, hd]
    · rw [Graph.addEdge_table_incoming]
      by_cases hd : g.directed = true
      · rw [if_pos hd]
        refine (hm.link dst t s g.edges.size).congr fun x t' => ?_
        rw [hE, linkStep_of_links_eq (o := dst) (n := s) rfl]
        simp only [Direction.serves, hd, if_true]
        by_cases hxt : x = dst ∧ t' = t
        · obtain ⟨rfl, rfl⟩ := hxt; simp
        · rw [if_neg hxt, if_neg fun h' => hxt ⟨h'.1.symm, h'.2.symm⟩]
      · rw [if_neg hd]
        exact hm.congr fun x t' => by simp [Direction.serves, hd]
    · rw [Graph.addEdge_table_reciprocal]
      by_cases hd : g.directed = true
      · rw [if_pos hd]
        exact hm.congr fun x t' => by simp [Direction.serves, hd]
      · rw [if_neg hd]
        refine ((hm.link s t dst g.edges.size).link dst t s g.edges.size).congr fun x t' => ?_
        rw [hE]
        simp only [Direction.serves, hd, Bool.not_false, if_true, linkStep,
          Edge.links, List.foldl_cons, List.foldl_nil]
        by_cases ht : t' = t
        · subst ht
          by_cases h1 : x = s <;> by_cases h2 : x = dst
          · subst h1; subst h2; simp
          · subst h1; simp [h2, Ne.symm h2]
          · subst h2; simp [h1, Ne.symm h1]
          · simp [h1, h2, Ne.symm h1, Ne.symm h2]
        · simp [ht, Ne.symm ht]

end Built

/-- Every sequence of calls builds a graph that satisfies `Built`. -/
theorem built_ofOps (directed : Bool) (ops : List GraphOp) :
    Built (Graph.ofOps directed ops) directed ops := by
  induction ops using List.reverseRecOn with
  | nil => exact Built.empty directed
  | append_singleton ops op ih =>
    rw [Graph.ofOps, List.foldl_append, List.foldl_cons, List.foldl_nil]
    cases op with
    | addNode n l => exact ih.addNode n l
    | addEdge s d t l => exact ih.addEdge s d t l

end TemporalMotif
