import TemporalMotif.Proofs.Construction

/-! # The representation invariant of a temporal graph

What a graph built by `addNode`/`addEdge` calls answers, read off the calls: the edge `i` that
a lookup finds is the last added edge with that key, both indices of a directed edge agree, the
neighbours of one moment keep the order in which they first arrived, the shadowed edges are
exactly those a later edge with the same key replaced, and a node keeps its first label. The
main statement is `graph_representation`. -/

namespace TemporalMotif

theorem nodup_eraseDups : ∀ (as : List Nat), as.eraseDups.Nodup
  | [] => by simp
  | a :: as => by
    rw [List.eraseDups_cons]
    exact List.nodup_cons.2 ⟨by simp, nodup_eraseDups _⟩
termination_by as => as.length
decreasing_by exact Nat.lt_succ_of_le (List.length_filter_le _ _)

namespace Links

/-- In links with distinct neighbours, a link is there exactly when the lookup finds it. -/
theorem mem_iff_edgeTo? {ls : Links} (h : ls.nbrs.Nodup) (n i : Nat) :
    (n, i) ∈ ls ↔ ls.edgeTo? n = some i := by
  induction ls with
  | nil => simp [edgeTo?]
  | cons p ls ih =>
    obtain ⟨m, j⟩ := p
    simp only [nbrs, List.map_cons, List.nodup_cons] at h
    simp only [edgeTo?, lookup_cons_ite, List.mem_cons, Prod.mk.injEq] at ih ⊢
    by_cases hn : n = m
    · subst hn
      have hnot : (n, i) ∉ ls := fun hm => h.1 (List.mem_map.2 ⟨(n, i), hm, rfl⟩)
      simp [hnot, eq_comm]
    · simp [hn, ih h.2]

end Links

namespace Edge

@[simp] theorem mem_links_outgoing (e : Edge) (a b : Nat) :
    (a, b) ∈ e.links .outgoing ↔ e.source = a ∧ e.dest = b := by
  simp [links, eq_comm]

@[simp] theorem mem_links_incoming (e : Edge) (a b : Nat) :
    (a, b) ∈ e.links .incoming ↔ e.source = b ∧ e.dest = a := by
  simp [links, eq_comm, and_comm]

@[simp] theorem mem_links_reciprocal (e : Edge) (a b : Nat) :
    (a, b) ∈ e.links .reciprocal ↔ e.source = a ∧ e.dest = b ∨ e.source = b ∧ e.dest = a := by
  simp [links, eq_comm, and_comm]

end Edge

theorem isLastWhere_congr {es : List Edge} {p q : Edge → Prop} (h : ∀ f, p f ↔ q f) (i : Nat) :
    IsLastWhere es p i ↔ IsLastWhere es q i := by
  simp only [IsLastWhere, h]

namespace Built

variable {g : Graph} {directed : Bool} {ops : List GraphOp}

theorem indexOf_at? (h : Built g directed ops) (x : Nat) (d : Direction) (t : Int) :
    (g.indexOf x d).at? t =
      if d.serves directed then momentOf (expectedLinks (addedEdges ops) d x t) t else none := by
  rw [Graph.indexOf, Graph.adjacency_eq_table, h.moments d x t]
  split <;> simp [momentOf]

theorem linkAt?_eq (h : Built g directed ops) (x : Nat) (d : Direction) (t : Int) (n : Nat) :
    g.linkAt? x d t n =
      if d.serves directed then (expectedLinks (addedEdges ops) d x t).edgeTo? n else none := by
  unfold Graph.linkAt?
  rw [h.indexOf_at?]
  split
  · unfold momentOf
    split
    · rename_i he; simp [he, Links.edgeTo?]
    · rfl
  · rfl

/-- A lookup finds edge `i` exactly when it is the last added edge that links `x` to `n` at
time `t` in direction `d`, in a direction the graph keeps. -/
theorem linkAt?_eq_some_iff (h : Built g directed ops) (x : Nat) (d : Direction) (t : Int)
    (n i : Nat) :
    g.linkAt? x d t n = some i ↔
      d.serves directed ∧ IsLastWhere (addedEdges ops) (fun f => f.time = t ∧ (x, n) ∈ f.links d) i := by
  rw [h.linkAt?_eq]
  split
  · rename_i hd; rw [edgeTo?_expectedLinks]; simp [hd]
  · rename_i hd; simp [hd]

theorem nbrs_of_at? (h : Built g directed ops) {x : Nat} {d : Direction} {t : Int} {m : Moment}
    (hm : (g.indexOf x d).at? t = some m) :
    m.links.nbrs = (arrivals (addedEdges ops) d x t).eraseDups := by
  rw [h.indexOf_at?] at hm
  split at hm
  · unfold momentOf at hm
    split at hm
    · cases hm
    · cases hm; exact nbrs_expectedLinks _ _ _ _
  · cases hm

theorem nodup_nbrs (h : Built g directed ops) {x : Nat} {d : Direction} {m : Moment}
    (hm : m ∈ (g.indexOf x d).moments) : m.links.nbrs.Nodup := by
  rw [h.nbrs_of_at? ((TimeIndex.mem_moments_iff _ _).1 hm)]
  exact nodup_eraseDups _

/-- The links of a moment are exactly the lookups at its time. -/
theorem mem_links_iff (h : Built g directed ops) {x : Nat} {d : Direction} {m : Moment}
    (hm : m ∈ (g.indexOf x d).moments) (n i : Nat) :
    (n, i) ∈ m.links ↔ g.linkAt? x d m.time n = some i := by
  rw [Links.mem_iff_edgeTo? (h.nodup_nbrs hm), Graph.linkAt?,
    (TimeIndex.mem_moments_iff _ _).1 hm]
  rfl

/-- A node has a neighbour `b` in direction `d` exactly when some added edge links it to `b`
there. -/
theorem hasNeighbour_iff (h : Built g directed ops) (x : Nat) (d : Direction) (b : Nat) :
    (g.indexOf x d).hasNeighbour b = true ↔
      d.serves directed ∧ ∃ e ∈ addedEdges ops, (x, b) ∈ e.links d := by
  simp only [TimeIndex.hasNeighbour, List.any_eq_true, Links.hasNeighbour_iff]
  constructor
  · rintro ⟨m, hm, hb⟩
    have hat := (TimeIndex.mem_moments_iff _ _).1 hm
    rw [h.nbrs_of_at? hat, List.mem_eraseDups] at hb
    rw [h.indexOf_at?] at hat
    split at hat
    · rename_i hd
      obtain ⟨e, he, het, hx⟩ : ∃ e ∈ addedEdges ops, e.time = m.time ∧ (x, b) ∈ e.links d := by
        simp only [arrivals, List.mem_flatMap] at hb
        obtain ⟨e, he, hb⟩ := hb
        split at hb
        · rename_i het
          obtain ⟨p, hp, rfl⟩ := List.mem_map.1 hb
          obtain ⟨hp, hpx⟩ := List.mem_filter.1 hp
          exact ⟨e, he, het, by simpa [← of_decide_eq_true hpx] using hp⟩
        · simp at hb
      exact ⟨hd, e, he, hx⟩
    · cases hat
  · rintro ⟨hd, e, he, hx⟩
    have harr : b ∈ arrivals (addedEdges ops) d x e.time := by
      simp only [arrivals, List.mem_flatMap]
      refine ⟨e, he, ?_⟩
      rw [if_pos rfl]
      exact List.mem_map.2 ⟨(x, b), List.mem_filter.2 ⟨hx, by simp⟩, rfl⟩
    have hne : expectedLinks (addedEdges ops) d x e.time ≠ [] := by
      intro hnil
      have := nbrs_expectedLinks (addedEdges ops) d x e.time
      rw [hnil] at this
      have hb : b ∈ (arrivals (addedEdges ops) d x e.time).eraseDups := List.mem_eraseDups.2 harr
      rw [← this] at hb
      simp at hb
    have hat := h.indexOf_at? x d e.time
    rw [if_pos hd, momentOf, if_neg hne] at hat
    refine ⟨_, List.mem_of_find?_eq_some hat, ?_⟩
    rw [nbrs_expectedLinks]
    exact List.mem_eraseDups.2 harr

theorem forward_serves (h : Built g directed ops) : g.forward.serves directed = true := by
  rw [← h.directed_eq]; unfold Graph.forward; split <;> simp_all [Direction.serves]

/-- Looking an edge up from its source in the forward direction tests the key of `e`. -/
theorem links_forward_iff (h : Built g directed ops) (e f : Edge) :
    (f.time = e.time ∧ (e.source, e.dest) ∈ f.links g.forward) ↔ f.SameKey directed e := by
  unfold Graph.forward Edge.SameKey
  rw [h.directed_eq]
  cases directed <;> simp [eq_comm]

theorem mem_shadowed_iff (h : Built g directed ops) (i : Nat) :
    i ∈ g.shadowed ↔ i < (addedEdges ops).length ∧ ¬ IsLive directed (addedEdges ops) i := by
  have hget : ∀ j, g.edges[j]? = (addedEdges ops)[j]? := fun j => by
    rw [← h.edges_eq, Array.getElem?_toList]
  have hsize : g.edges.size = (addedEdges ops).length := by rw [← h.edges_eq, Array.length_toList]
  simp only [Graph.shadowed, List.mem_filter, List.mem_range, hget, hsize]
  constructor
  · rintro ⟨hi, hsh⟩
    refine ⟨hi, fun ⟨e, he, hlive⟩ => ?_⟩
    rw [he, bne_iff_ne, ne_eq, h.linkAt?_eq_some_iff] at hsh
    refine hsh ⟨h.forward_serves, ⟨e, he, (h.links_forward_iff e e).2 ?_⟩, fun j hj f hf hkey => ?_⟩
    · exact ⟨rfl, .inl ⟨rfl, rfl⟩⟩
    · exact hlive j hj f hf ((h.links_forward_iff e f).1 hkey)
  · rintro ⟨hi, hlive⟩
    obtain ⟨e, he⟩ : ∃ e, (addedEdges ops)[i]? = some e := ⟨_, List.getElem?_eq_getElem hi⟩
    refine ⟨hi, ?_⟩
    rw [he, bne_iff_ne, ne_eq, h.linkAt?_eq_some_iff]
    rintro ⟨-, -, hlast⟩
    exact hlive ⟨e, he, fun j hj f hf hkey => hlast j hj f hf ((h.links_forward_iff e f).2 hkey)⟩

theorem areNeighbours_iff (h : Built g directed ops) (a b : Nat) :
    g.areNeighbours a b = true ↔
      ∃ e ∈ addedEdges ops, e.source = a ∧ e.dest = b ∨ e.source = b ∧ e.dest = a := by
  simp only [Graph.areNeighbours, Direction.all, List.any_cons, List.any_nil, Bool.or_false,
    Bool.or_eq_true, h.hasNeighbour_iff, Edge.mem_links_outgoing, Edge.mem_links_incoming,
    Edge.mem_links_reciprocal]
  cases directed
  · simp [Direction.serves]
  · simp only [Direction.serves, Bool.not_true, true_and, Bool.false_eq_true, false_and, or_false]
    constructor
    · rintro (⟨e, he, h1⟩ | ⟨e, he, h1⟩)
      · exact ⟨e, he, .inl h1⟩
      · exact ⟨e, he, .inr h1⟩
    · rintro ⟨e, he, h1 | h1⟩
      · exact .inl ⟨e, he, h1⟩
      · exact .inr ⟨e, he, h1⟩

end Built

theorem mem_addedNodes_ids (ops : List GraphOp) (x : Nat) :
    x ∈ (addedNodes ops).map Prod.fst ↔ ∃ l, GraphOp.addNode x l ∈ ops := by
  simp only [addedNodes, List.mem_map, List.mem_filterMap]
  constructor
  · rintro ⟨⟨n, l⟩, ⟨op, hop, hnode⟩, rfl⟩
    cases op with
    | addNode n' l' =>
      simp only [GraphOp.node?, Option.some.injEq, Prod.mk.injEq] at hnode
      obtain ⟨rfl, rfl⟩ := hnode
      exact ⟨_, hop⟩
    | addEdge _ _ _ _ => simp [GraphOp.node?] at hnode
  · rintro ⟨l, hl⟩
    exact ⟨(x, l), ⟨_, hl, rfl⟩, rfl⟩

/-- The representation invariant of a temporal graph. For any sequence of `addNode` and
`addEdge` calls: the arena lists the added edges in call order; a lookup in the outgoing index of
`a` (or the incoming index of `b`) at time `t` finds `i` exactly when the graph is directed and
`i` is the last added edge from `a` to `b` at `t`, and a lookup in the reciprocal indices of
either end likewise when the graph is undirected and `i` is the last edge joining them at `t`;
an index exists exactly for a direction the graph keeps, at a node that was added or is on that
side of an edge; the neighbours of a moment come in the order they first arrived; the shadowed
edges are exactly, in increasing order, the edges that are not the last with their key; two
nodes are neighbours exactly when an edge joins them; and a node keeps its first label. -/
theorem graph_representation (directed : Bool) (ops : List GraphOp) :
    let g := Graph.ofOps directed ops
    let es := addedEdges ops
    g.edges.toList = es ∧
    (∀ a b t i, g.linkAt? a .outgoing t b = some i ↔
      directed = true ∧ IsLastWhere es (fun f => f.source = a ∧ f.dest = b ∧ f.time = t) i) ∧
    (∀ a b t i, g.linkAt? b .incoming t a = some i ↔
      directed = true ∧ IsLastWhere es (fun f => f.source = a ∧ f.dest = b ∧ f.time = t) i) ∧
    (∀ a b t i, g.linkAt? a .reciprocal t b = some i ↔ directed = false ∧
      IsLastWhere es (fun f => (f.source = a ∧ f.dest = b ∨ f.source = b ∧ f.dest = a) ∧ f.time = t) i) ∧
    (∀ a b t i, g.linkAt? b .reciprocal t a = some i ↔ directed = false ∧
      IsLastWhere es (fun f => (f.source = a ∧ f.dest = b ∨ f.source = b ∧ f.dest = a) ∧ f.time = t) i) ∧
    (∀ x d, (g.adjacency x d).isSome ↔
      d.serves directed ∧ ((∃ l, GraphOp.addNode x l ∈ ops) ∨ ∃ e ∈ es, ∃ n, (x, n) ∈ e.links d)) ∧
    (∀ x d t m, (g.indexOf x d).at? t = some m → m.links.nbrs = (arrivals es d x t).eraseDups) ∧
    (∀ i, i ∈ g.shadowed ↔ i < es.length ∧ ¬ IsLive directed es i) ∧
    g.shadowed.Pairwise (· < ·) ∧
    (∀ a b, g.areNeighbours a b = true ↔
      ∃ e ∈ es, e.source = a ∧ e.dest = b ∨ e.source = b ∧ e.dest = a) ∧
    (∀ x, g.label? x = (addedNodes ops).lookup x) := by
  intro g es
  have h : Built g directed ops := built_ofOps directed ops
  refine ⟨h.edges_eq, fun a b t i => ?_, fun a b t i => ?_, fun a b t i => ?_, fun a b t i => ?_,
    fun x d => ?_, fun x d t m hm => h.nbrs_of_at? hm, h.mem_shadowed_iff,
    List.Pairwise.filter _ List.pairwise_lt_range, h.areNeighbours_iff, h.label_eq⟩
  · rw [h.linkAt?_eq_some_iff]
    simp only [Direction.serves, Edge.mem_links_outgoing]
    exact and_congr_right fun _ => isLastWhere_congr (fun f => by tauto) i
  · rw [h.linkAt?_eq_some_iff]
    simp only [Direction.serves, Edge.mem_links_incoming]
    exact and_congr_right fun _ => isLastWhere_congr (fun f => by tauto) i
  · rw [h.linkAt?_eq_some_iff]
    simp only [Direction.serves, Edge.mem_links_reciprocal, Bool.not_eq_true']
    exact and_congr_right fun _ => isLastWhere_congr (fun f => by tauto) i
  · rw [h.linkAt?_eq_some_iff]
    simp only [Direction.serves, Edge.mem_links_reciprocal, Bool.not_eq_true']
    exact and_congr_right fun _ => isLastWhere_congr (fun f => by tauto) i
  · rw [Graph.adjacency_eq_table, h.present, mem_addedNodes_ids]

end TemporalMotif
