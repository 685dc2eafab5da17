import TemporalMotif.Match.Occurrence
import TemporalMotif.Proofs.Dominance
import TemporalMotif.Proofs.Enumeration

/-!
# Complete assignments are occurrences

A complete assignment binds node state `s` to a target node and edge state `j` to a target edge.
Since the node states hold every query position once and the edge states every live query edge
once, it is given by two maps: `g` from query positions to target nodes and `h` from live query
edges to target edges, and the occurrence it reads as is `Embedding.ofMaps q g h`.

Main statements: the occurrence read off the assignment of `g` and `h` is `Embedding.ofMaps q g h`
(`embedding_occurrence`), and that assignment is complete exactly when `Embedding.ofMaps q g h` is
an occurrence (`complete_iff_isOccurrence`).
-/

namespace TemporalMotif

/-- Sorting, by an order that compares keys first, a list whose keys are a permutation of the
strictly increasing `K` and whose entries are fixed by their keys, lists the entries of `K`. -/
theorem mergeSort_eq_map {α : Type} {le : α → α → Bool}
    (htrans : ∀ a b c, le a b = true → le b c = true → le a c = true)
    (htotal : ∀ a b, (le a b || le b a) = true) (key : α → Nat)
    (hle : ∀ a b, le a b = true → key a ≤ key b) (f : Nat → α) (hf : ∀ k, key (f k) = k)
    {l : List α} {K : List Nat} (hK : K.Pairwise (· < ·)) (hperm : (l.map key).Perm K)
    (hl : ∀ a ∈ l, f (key a) = a) : l.mergeSort le = K.map f := by
  have hsorted : (l.mergeSort le).Pairwise fun a b => key a ≤ key b :=
    (List.pairwise_mergeSort htrans htotal l).imp (hle _ _)
  have hmap : l = (l.map key).map f := by
    rw [List.map_map]
    conv_lhs => rw [← List.map_id l]
    exact List.map_congr_left fun a ha => (hl a ha).symm
  have hperm' : (l.mergeSort le).Perm (K.map f) := by
    refine (List.mergeSort_perm l le).trans ?_
    rw [hmap]
    exact hperm.map f
  refine hperm'.eq_of_pairwise (fun a b ha hb hab hba => ?_) hsorted ?_
  · obtain ⟨k, -, rfl⟩ := List.mem_map.1 hb
    rw [hf] at hab hba
    rw [← hl a ((List.mergeSort_perm l le).subset ha), Nat.le_antisymm hab hba]
  · exact List.pairwise_map.2 (hK.imp fun h => by rw [hf, hf]; exact Nat.le_of_lt h)

/-- A list of the length of a list without repeats is that list read through its positions. -/
theorem eq_map_getD_idxOf {L Φ : List Nat} (hL : L.Nodup) (hlen : Φ.length = L.length) :
    Φ = L.map fun p => Φ.getD (L.idxOf p) 0 := by
  refine List.ext_getElem (by simp [hlen]) fun s h1 h2 => ?_
  rw [List.getElem_map, hL.idxOf_getElem s (by simpa using h2)]
  simp [List.getD_eq_getElem?_getD, h1]

/-- An association list without repeated keys is its keys, each with the value it looks up. -/
theorem eq_map_lookup {l : List (Nat × Nat)} (hnd : (l.map Prod.fst).Nodup) :
    l = (l.map Prod.fst).map fun x => (x, (l.lookup x).getD 0) := by
  rw [List.map_map]
  conv_lhs => rw [← List.map_id l]
  refine List.map_congr_left fun ⟨k, v⟩ hkv => ?_
  simp [lookup_of_mem hnd hkv]

namespace Edge

theorem mem_links_reversed {e : Edge} {d : Direction} {a b : Nat} :
    (a, b) ∈ e.links d.reversed ↔ (b, a) ∈ e.links d := by
  cases d <;> simp only [Direction.reversed, mem_links_outgoing, mem_links_incoming,
    mem_links_reciprocal]
  tauto

/-- An edge that makes the images of one of its links is the image of the edge. -/
theorem mapsTo_of_mem_links {directed : Bool} {d : Direction} (hd : d.serves directed = true)
    {e e' : Edge} {φ : Nat → Nat} {x n : Nat} (h : (x, n) ∈ e.links d)
    (h' : (φ x, φ n) ∈ e'.links d) : e.MapsTo φ directed e' := by
  unfold MapsTo
  cases d <;> cases directed <;>
    simp only [Direction.serves, Bool.not_true, Bool.not_false, Bool.false_eq_true] at hd <;>
    simp only [mem_links_outgoing, mem_links_incoming, mem_links_reciprocal] at h h'
  · obtain ⟨rfl, rfl⟩ := h
    exact .inl h'
  · obtain ⟨rfl, rfl⟩ := h
    exact .inl h'
  · rcases h with ⟨rfl, rfl⟩ | ⟨rfl, rfl⟩ <;> rcases h' with ⟨h1, h2⟩ | ⟨h1, h2⟩ <;> simp [h1, h2]

theorem mapsTo_iff_mem_links {directed : Bool} {d : Direction} (hd : d.serves directed = true)
    {e e' : Edge} {φ : Nat → Nat} {x n : Nat} (h : (x, n) ∈ e.links d) :
    e.MapsTo φ directed e' ↔ (φ x, φ n) ∈ e'.links d :=
  ⟨fun hmap => mem_links_of_mapsTo hd hmap h, mapsTo_of_mem_links hd h⟩

end Edge

theorem Direction.serves_reversed (d : Direction) (directed : Bool) :
    d.reversed.serves directed = d.serves directed := by
  cases d <;> rfl

theorem Graph.pairwise_liveEdges (g : Graph) : g.liveEdges.Pairwise (· < ·) :=
  List.pairwise_lt_range.filter _

namespace Embedding

/-- The embedding that sends the query node at position `p` to `g p` and the live query edge
`i` to `h i`. -/
def ofMaps (q : Graph) (g h : Nat → Nat) : Embedding :=
  ⟨(List.range q.nodes.length).map fun p => ((Positions.ofGraph q).node p, g p),
    q.liveEdges.map fun i => (i, h i)⟩

variable {q : Graph} {g h : Nat → Nat}

theorem map_range_node (q : Graph) :
    (List.range q.nodes.length).map (Positions.ofGraph q).node = q.nodes.map Prod.fst := by
  refine List.ext_getElem (by simp) fun p hp _ => ?_
  simp only [List.length_map, List.length_range] at hp
  simp [Positions.node_ofGraph q hp]

theorem keys_ofMaps_nodes : (ofMaps q g h).nodes.map Prod.fst = q.nodes.map Prod.fst := by
  rw [← map_range_node q, ofMaps, List.map_map]
  rfl

theorem keys_ofMaps_edges : (ofMaps q g h).edges.map Prod.fst = q.liveEdges := by
  simp [ofMaps, Function.comp_def]

theorem node_ofMaps (hids : (q.nodes.map Prod.fst).Nodup) {p : Nat} (hp : p < q.nodes.length) :
    (ofMaps q g h).node ((Positions.ofGraph q).node p) = g p := by
  have hmem : ((Positions.ofGraph q).node p, g p) ∈ (ofMaps q g h).nodes :=
    List.mem_map.2 ⟨p, List.mem_range.2 hp, rfl⟩
  rw [node, lookup_of_mem (keys_ofMaps_nodes ▸ hids) hmem]
  rfl

theorem edge_ofMaps {i : Nat} (hi : q.IsLiveEdge i) : (ofMaps q g h).edge i = h i := by
  have hmem : (i, h i) ∈ (ofMaps q g h).edges :=
    List.mem_map.2 ⟨i, Graph.mem_liveEdges.2 hi, rfl⟩
  rw [edge, lookup_of_mem (keys_ofMaps_edges ▸ q.nodup_liveEdges) hmem]
  rfl

/-- The embedding of `g` and `h` fixes `g` on the positions and `h` on the live edges. -/
theorem ofMaps_inj (hids : (q.nodes.map Prod.fst).Nodup) {g' h' : Nat → Nat}
    (heq : ofMaps q g h = ofMaps q g' h') :
    (∀ p < q.nodes.length, g p = g' p) ∧ ∀ i, q.IsLiveEdge i → h i = h' i := by
  refine ⟨fun p hp => ?_, fun i hi => ?_⟩
  · calc g p = (ofMaps q g h).node ((Positions.ofGraph q).node p) := (node_ofMaps hids hp).symm
      _ = (ofMaps q g' h').node ((Positions.ofGraph q).node p) := by rw [heq]
      _ = g' p := node_ofMaps hids hp
  · calc h i = (ofMaps q g h).edge i := (edge_ofMaps hi).symm
      _ = (ofMaps q g' h').edge i := by rw [heq]
      _ = h' i := edge_ofMaps hi

end Embedding

/-- Every occurrence is the embedding of its own node and edge maps. -/
theorem IsOccurrence.eq_ofMaps {q t : Graph} {span : MaxSpan} {m : Embedding}
    (hids : (q.nodes.map Prod.fst).Nodup) (hocc : IsOccurrence q t span m) :
    m = Embedding.ofMaps q (fun p => m.node ((Positions.ofGraph q).node p)) m.edge := by
  have hn : m.nodes = (m.nodes.map Prod.fst).map fun x => (x, m.node x) :=
    eq_map_lookup (hocc.node_keys ▸ hids)
  have he : m.edges = (m.edges.map Prod.fst).map fun i => (i, m.edge i) :=
    eq_map_lookup (hocc.edge_keys ▸ q.nodup_liveEdges)
  rw [hocc.node_keys, ← Embedding.map_range_node, List.map_map] at hn
  rw [hocc.edge_keys] at he
  obtain ⟨nodes, edges⟩ := m
  simp only [Embedding.ofMaps, Embedding.mk.injEq]
  exact ⟨hn, he⟩

/-- The node and edge maps of an occurrence. -/
def Occurrence.embedding (o : Occurrence) : Embedding := ⟨o.nodes, o.edges⟩

namespace SearchSpace

/-- A search space as a plan sets it up: planned, over a built query whose edges each join two
distinct declared nodes, with node states that hold every query position once, the query's edge
states between them, and the domains built for the query's positions. -/
structure FromPlan (sp : SearchSpace) (qops tops : List GraphOp) : Prop where
  planned : sp.Planned tops
  query : Built sp.query sp.target.directed qops
  ends : ∀ e ∈ sp.query.edges.toList,
    sp.query.containsNode e.source = true ∧ sp.query.containsNode e.dest = true
  loops : ∀ e ∈ sp.query.edges.toList, e.source ≠ e.dest
  nodes_nodup : sp.order.nodes.Nodup
  mem_nodes : ∀ p, p ∈ sp.order.nodes ↔ p < sp.query.nodes.length
  edges : sp.order.edges =
    MatchingOrder.edgeStates sp.query (Positions.ofGraph sp.query) sp.order.nodes
  edges_ne : sp.order.edges ≠ []
  domains : sp.domains = Domains.build sp.query sp.target (Positions.ofGraph sp.query) sp.span

namespace FromPlan

variable {sp : SearchSpace} {qops tops : List GraphOp}

theorem mem_map_edge_iff (hf : sp.FromPlan qops tops) (i : Nat) :
    i ∈ sp.order.edges.map (·.edge) ↔ sp.query.IsLiveEdge i := by
  rw [hf.edges]
  exact MatchingOrder.mem_map_edge_edgeStates hf.query hf.mem_nodes hf.ends hf.loops i

theorem nodup_map_edge (hf : sp.FromPlan qops tops) : (sp.order.edges.map (·.edge)).Nodup := by
  have hlt : ∀ p ∈ sp.order.nodes, p < sp.query.nodes.length := fun p hp => (hf.mem_nodes p).1 hp
  rw [hf.edges]
  exact (MatchingOrder.nodup_edgeStates hf.query _ _).map_on fun oe hoe oe' hoe' heq =>
    MatchingOrder.edge_injOn_edgeStates hf.query hf.nodes_nodup hlt hoe hoe' heq

theorem perm_liveEdges (hf : sp.FromPlan qops tops) :
    (sp.order.edges.map (·.edge)).Perm sp.query.liveEdges :=
  (List.perm_ext_iff_of_nodup hf.nodup_map_edge sp.query.nodup_liveEdges).2 fun i => by
    rw [hf.mem_map_edge_iff, Graph.mem_liveEdges]

theorem perm_range (hf : sp.FromPlan qops tops) :
    sp.order.nodes.Perm (List.range sp.query.nodes.length) :=
  (List.perm_ext_iff_of_nodup hf.nodes_nodup List.nodup_range).2 fun p => by
    rw [hf.mem_nodes, List.mem_range]

theorem length_nodes (hf : sp.FromPlan qops tops) : sp.order.nodes.length = sp.query.nodes.length := by
  rw [hf.perm_range.length_eq, List.length_range]

/-- An edge state joins the query nodes of its two node states through a query edge. -/
theorem exists_query_edge (hf : sp.FromPlan qops tops) {oe : OrderedEdge} (hoe : oe ∈ sp.order.edges) :
    ∃ ps pd qe, sp.order.nodes[oe.source]? = some ps ∧ sp.order.nodes[oe.dest]? = some pd ∧
      sp.query.edges[oe.edge]? = some qe ∧ oe.dir.serves sp.target.directed = true ∧
      ((Positions.ofGraph sp.query).node ps, (Positions.ofGraph sp.query).node pd) ∈ qe.links oe.dir := by
  rw [hf.edges] at hoe
  obtain ⟨-, ps, pd, hps, hpd, hold⟩ := (MatchingOrder.mem_edgeStates_iff hf.query).1 hoe
  obtain ⟨hd, -, qe, hqe, -, hx⟩ := hf.query.holds_iff.1 hold
  exact ⟨ps, pd, qe, hps, hpd, hqe, hd, hx⟩

end FromPlan

variable {sp : SearchSpace} {qops tops : List GraphOp}

theorem nodeAt_of_getElem? {s p : Nat} (h : sp.order.nodes[s]? = some p) : sp.order.nodeAt s = p := by
  simp [MatchingOrder.nodeAt, List.getD_eq_getElem?_getD, h]

theorem getD_map_of_getElem? {N : List Nat} {g : Nat → Nat} {s p : Nat} (h : N[s]? = some p) :
    (N.map g).getD s 0 = g p := by
  simp [List.getD_eq_getElem?_getD, h]

theorem forall_edgeStates_iff {E : List OrderedEdge} {h : Nat → Nat} {P : Nat → OrderedEdge → Prop} :
    (∀ (j e : Nat) (oe : OrderedEdge), ((E.map (·.edge)).map h)[j]? = some e → E[j]? = some oe →
      P e oe) ↔
      ∀ oe ∈ E, P (h oe.edge) oe := by
  constructor
  · intro H oe hoe
    obtain ⟨j, hj⟩ := List.mem_iff_getElem?.1 hoe
    exact H j _ oe (by simp [hj]) hj
  · intro H j e oe he hoe
    simp only [List.getElem?_map, hoe, Option.map_some, Option.some.injEq] at he
    subst he
    exact H oe (List.mem_of_getElem? hoe)

theorem mem_ofMaps_edges (hf : sp.FromPlan qops tops) {g h : Nat → Nat} {x : Nat × Nat} :
    x ∈ (Embedding.ofMaps sp.query g h).edges ↔ ∃ oe ∈ sp.order.edges, (oe.edge, h oe.edge) = x := by
  simp only [Embedding.ofMaps, List.mem_map]
  constructor
  · rintro ⟨i, hi, rfl⟩
    obtain ⟨oe, hoe, rfl⟩ := List.mem_map.1 ((hf.mem_map_edge_iff i).2 (Graph.mem_liveEdges.1 hi))
    exact ⟨oe, hoe, rfl⟩
  · rintro ⟨oe, hoe, rfl⟩
    exact ⟨oe.edge, Graph.mem_liveEdges.2 ((hf.mem_map_edge_iff _).1 (List.mem_map_of_mem hoe)), rfl⟩

/-- Binding node state `s` to `g` of its position keeps to the domains exactly when `g` sends
each position into its domain. -/
theorem FromPlan.domain_iff (hf : sp.FromPlan qops tops) (g : Nat → Nat) :
    (∀ s v, (sp.order.nodes.map g)[s]? = some v → sp.domains.allows (sp.order.nodeAt s) v = true) ↔
      ∀ p < sp.query.nodes.length,
        g p ∈ (Domains.build sp.query sp.target (Positions.ofGraph sp.query) sp.span).getD p [] := by
  rw [hf.domains]
  constructor
  · intro h p hp
    obtain ⟨s, hs⟩ := List.mem_iff_getElem?.1 ((hf.mem_nodes p).2 hp)
    have hdom := h s (g p) (by rw [List.getElem?_map, hs]; rfl)
    rwa [nodeAt_of_getElem? hs, Domains.allows, List.contains_iff_mem] at hdom
  · intro h s v hv
    rw [List.getElem?_map] at hv
    obtain ⟨p, hs, rfl⟩ := Option.map_eq_some_iff.1 hv
    rw [nodeAt_of_getElem? hs, Domains.allows, List.contains_iff_mem]
    exact h p ((hf.mem_nodes p).1 (List.mem_of_getElem? hs))

/-- Edge state `oe` links the images of its node states through target edge `e` exactly when `e`
is live and is an image of the query edge. -/
theorem FromPlan.holds_link_iff (hf : sp.FromPlan qops tops) {g φ : Nat → Nat}
    (hφ : ∀ p < sp.query.nodes.length, φ ((Positions.ofGraph sp.query).node p) = g p)
    {oe : OrderedEdge} (hoe : oe ∈ sp.order.edges) {qe : Edge}
    (hqe : sp.query.edges[oe.edge]? = some qe) {e : Nat} {te : Edge}
    (hte : sp.target.edges[e]? = some te) :
    (sp.target.indexOf ((sp.order.nodes.map g).getD oe.dest 0) oe.dir.reversed).Holds
        ⟨sp.targetTime e, (sp.order.nodes.map g).getD oe.source 0, e⟩ ↔
      sp.target.IsLiveEdge e ∧ qe.MapsTo φ sp.target.directed te := by
  obtain ⟨ps, pd, qe', hps, hpd, hqe', hd, hx⟩ := hf.exists_query_edge hoe
  rw [hqe] at hqe'
  cases hqe'
  have hlt : ∀ {s p}, sp.order.nodes[s]? = some p → p < sp.query.nodes.length :=
    fun h => (hf.mem_nodes _).1 (List.mem_of_getElem? h)
  have htime : te.time = sp.targetTime e := by simp [targetTime, hte]
  rw [getD_map_of_getElem? hps, getD_map_of_getElem? hpd, hf.planned.target.holds_iff,
    Direction.serves_reversed, Edge.mapsTo_iff_mem_links hd hx, hφ _ (hlt hps), hφ _ (hlt hpd)]
  simp only [hd, true_and, hte, Option.some.injEq, exists_eq_left', Edge.mem_links_reversed, htime]

theorem timeAt_assign_edges {Φ : List Nat} {h : Nat → Nat} {j : Nat}
    (hj : j < sp.order.edges.length) :
    (sp.assign Φ ((sp.order.edges.map (·.edge)).map h)).timeAt j =
      sp.targetTime (h sp.order.edges[j].edge) := by
  simp [timeAt_assign, hj]

theorem queryTime_of_lt {j : Nat} (hj : j < sp.order.edges.length) :
    sp.queryTime j = sp.query.timeOf sp.order.edges[j].edge := by
  simp [queryTime, List.getD_eq_getElem?_getD, hj]

/-- The bound times fit the query's when the images of any two edge states compare as the query
edges do and lie within the span of each other, and every image time is a timestamp. -/
theorem timesFit_iff {Φ : List Nat} {h : Nat → Nat} :
    (sp.assign Φ ((sp.order.edges.map (·.edge)).map h)).TimesFit sp.queryTime sp.span
        sp.order.edges.length ↔
      (∀ oe ∈ sp.order.edges, ∀ oe' ∈ sp.order.edges,
        compare (sp.targetTime (h oe.edge)) (sp.targetTime (h oe'.edge)) =
          compare (sp.query.timeOf oe.edge) (sp.query.timeOf oe'.edge)) ∧
      (∀ v, sp.span = .within v → ∀ oe ∈ sp.order.edges, ∀ oe' ∈ sp.order.edges,
        sp.targetTime (h oe.edge) - sp.targetTime (h oe'.edge) ≤ v) ∧
      ∀ oe ∈ sp.order.edges, Stamp.InRange (sp.targetTime (h oe.edge)) := by
  simp only [List.forall_mem_iff_getElem]
  constructor
  · rintro ⟨-, hord, hwithin, hrange⟩
    refine ⟨fun j hj k hk => ?_, fun v hv j hj k hk => ?_, fun j hj => ?_⟩
    · have := hord j hj k hk
      rwa [timeAt_assign_edges hj, timeAt_assign_edges hk, queryTime_of_lt hj,
        queryTime_of_lt hk] at this
    · have := hwithin v hv j hj k hk
      rwa [timeAt_assign_edges hj, timeAt_assign_edges hk] at this
    · have := hrange j hj
      rwa [timeAt_assign_edges hj] at this
  · rintro ⟨hord, hwithin, hrange⟩
    refine ⟨by simp [assign], fun j hj k hk => ?_, fun v hv j hj k hk => ?_, fun j hj => ?_⟩
    · rw [timeAt_assign_edges hj, timeAt_assign_edges hk, queryTime_of_lt hj, queryTime_of_lt hk]
      exact hord j hj k hk
    · rw [timeAt_assign_edges hj, timeAt_assign_edges hk]
      exact hwithin v hv j hj k hk
    · rw [timeAt_assign_edges hj]
      exact hrange j hj

theorem embedding_occurrence (hf : sp.FromPlan qops tops) (g h : Nat → Nat) :
    (sp.occurrence (Positions.ofGraph sp.query)
      (sp.assign (sp.order.nodes.map g) ((sp.order.edges.map (·.edge)).map h))).embedding =
        Embedding.ofMaps sp.query g h := by
  simp only [occurrence, Occurrence.embedding, Embedding.ofMaps, Embedding.mk.injEq]
  set pos := Positions.ofGraph sp.query
  set a := sp.assign (sp.order.nodes.map g) ((sp.order.edges.map (·.edge)).map h)
  have hF : ∀ x ∈ sp.order.nodes.zipIdx,
      (a.nodeAt? x.2).map (fun t => (x.1, pos.node x.1, t)) =
        (some ∘ fun x : Nat × Nat => (x.1, pos.node x.1, g x.1)) x := by
    intro x hx
    rw [nodeAt?_assign, List.getElem?_map, List.mem_zipIdx_iff_getElem?.1 hx]
    rfl
  have hbound : (sp.order.nodes.zipIdx.filterMap fun x =>
      (a.nodeAt? x.2).map (fun t => (x.1, pos.node x.1, t))) =
        sp.order.nodes.map fun p => (p, pos.node p, g p) := by
    rw [List.filterMap_congr hF, List.filterMap_eq_map]
    conv_rhs => rw [← List.zipIdx_map_fst 0 sp.order.nodes, List.map_map]
    rfl
  have hedges : (sp.order.edges.zip a.edges.toList).map (fun x => (x.1.edge, x.2)) =
      (sp.order.edges.map (·.edge)).map fun i => (i, h i) := by
    simp [a, assign, List.zip_eq_zipWith, List.zipWith_map_right, List.zipWith_self]
  rw [hbound, hedges]
  constructor
  · -- node states sorted by position: the positions in order
    have hperm : ((sp.order.nodes.map fun p => (p, pos.node p, g p)).map fun x => x.1).Perm
        (List.range sp.query.nodes.length) := by
      simpa [Function.comp_def] using hf.perm_range
    rw [mergeSort_eq_map (fun a b c hab hbc => by simp only [decide_eq_true_eq] at *; omega)
      (fun a b => by simp only [Bool.or_eq_true, decide_eq_true_eq]; omega) (fun x => x.1)
      (fun a b hab => of_decide_eq_true hab) (fun p => (p, pos.node p, g p)) (fun _ => rfl)
      List.pairwise_lt_range hperm (fun x hx => by obtain ⟨p, -, rfl⟩ := List.mem_map.1 hx; rfl),
      List.map_map]
    rfl
  · -- edge states sorted by query edge: the live edges in order
    have hperm : (((sp.order.edges.map (·.edge)).map fun i => (i, h i)).map fun x => x.1).Perm
        sp.query.liveEdges := by
      simpa [Function.comp_def] using hf.perm_liveEdges
    refine mergeSort_eq_map (fun a b c hab hbc => ?_) (fun a b => ?_) (fun x => x.1)
      (fun a b hab => ?_) (fun i => (i, h i)) (fun _ => rfl) sp.query.pairwise_liveEdges hperm
      (fun x hx => by obtain ⟨i, -, rfl⟩ := List.mem_map.1 hx; rfl) <;>
    simp only [Bool.or_eq_true, Bool.and_eq_true, decide_eq_true_eq, beq_iff_eq] at * <;> omega

/-- The assignment of `g` and `h` is complete exactly when `Embedding.ofMaps q g h` is an
occurrence of the query in the target. -/
theorem complete_iff_isOccurrence (hf : sp.FromPlan qops tops) (g h : Nat → Nat) :
    sp.Complete (sp.order.nodes.map g) ((sp.order.edges.map (·.edge)).map h) ↔
      IsOccurrence sp.query sp.target sp.span (Embedding.ofMaps sp.query g h) := by
  set m := Embedding.ofMaps sp.query g h
  have hq := hf.query
  have ht := hf.planned.target
  have hnode : ∀ p < sp.query.nodes.length, m.node ((Positions.ofGraph sp.query).node p) = g p :=
    fun p hp => Embedding.node_ofMaps hq.nodup_ids hp
  have hnodes : (sp.order.nodes.map g).Nodup ↔ (m.nodes.map Prod.snd).Nodup := by
    rw [(hf.perm_range.map g).nodup_iff]
    simp [m, Embedding.ofMaps, Function.comp_def]
  have hedges : ((sp.order.edges.map (·.edge)).map h).Nodup ↔ (m.edges.map Prod.snd).Nodup := by
    rw [(hf.perm_liveEdges.map h).nodup_iff]
    simp [m, Embedding.ofMaps, Function.comp_def]
  have hΨ : ((sp.order.edges.map (·.edge)).map h).length = sp.order.edges.length := by simp
  constructor
  · rintro ⟨hc, -⟩
    have hdom := (hf.domain_iff g).1 hc.domain
    have hlabel := forall_edgeStates_iff.1 hc.label
    have hlink := forall_edgeStates_iff.1 hc.link
    obtain ⟨hord, hwithin, -⟩ := timesFit_iff.1 (hΨ ▸ hc.times)
    refine ⟨Embedding.keys_ofMaps_nodes, hnodes.1 hc.nodes_nodup, ?_, Embedding.keys_ofMaps_edges,
      hedges.1 hc.edges_nodup, ?_, ?_, ?_, ?_⟩
    · -- a domain holds only nodes of its position's label
      rintro _ hx
      obtain ⟨p, hp, rfl⟩ := List.mem_map.1 hx
      rw [List.mem_range] at hp
      rw [Domains.label_of_mem_build ht.nodup_ids (hdom p hp)]
      exact (lookup_of_mem hq.nodup_ids
        (Positions.mem_ofGraph _ (by rwa [Positions.size_ofGraph]))).symm
    · intro x hx
      obtain ⟨oe, hoe, rfl⟩ := (mem_ofMaps_edges hf).1 hx
      exact (ht.holds_iff.1 (hlink oe hoe)).2.1
    · intro x hx qe hqe te hte
      obtain ⟨oe, hoe, rfl⟩ := (mem_ofMaps_edges hf).1 hx
      refine ⟨?_, ((hf.holds_link_iff hnode hoe hqe hte).1 (hlink oe hoe)).2⟩
      have hl := hlabel oe hoe
      simp only [targetLabel?, queryLabel?, Option.mem_def.1 hqe, Option.mem_def.1 hte,
        Option.map_some, Option.some.injEq] at hl
      exact hl
    · intro x hx x' hx'
      obtain ⟨oe, hoe, rfl⟩ := (mem_ofMaps_edges hf).1 hx
      obtain ⟨oe', hoe', rfl⟩ := (mem_ofMaps_edges hf).1 hx'
      exact hord oe hoe oe' hoe'
    · intro v hv x hx x' hx'
      obtain ⟨oe, hoe, rfl⟩ := (mem_ofMaps_edges hf).1 hx
      obtain ⟨oe', hoe', rfl⟩ := (mem_ofMaps_edges hf).1 hx'
      exact hwithin v hv oe hoe oe' hoe'
  · intro hocc
    have hmem : ∀ oe ∈ sp.order.edges, (oe.edge, h oe.edge) ∈ m.edges :=
      fun oe hoe => (mem_ofMaps_edges hf).2 ⟨oe, hoe, rfl⟩
    -- the image of an edge state's query edge is a live target edge of its label
    have himage : ∀ oe ∈ sp.order.edges, ∃ qe te, sp.query.edges[oe.edge]? = some qe ∧
        sp.target.edges[h oe.edge]? = some te ∧ sp.target.IsLiveEdge (h oe.edge) ∧
        te.label = qe.label ∧ qe.MapsTo m.node sp.target.directed te := by
      intro oe hoe
      have hlive := (hf.mem_map_edge_iff _).1 (List.mem_map_of_mem hoe)
      obtain ⟨_, _, qe, -, -, hqe, -, -⟩ := hf.exists_query_edge hoe
      obtain ⟨te, hte, htlive, hlab, hmap⟩ := hocc.image hlive hqe
      rw [Embedding.edge_ofMaps hlive] at hte htlive
      exact ⟨qe, te, hqe, hte, htlive, hlab, hmap⟩
    refine ⟨⟨by simp, by simp [hf.planned.chain.boundAfter_length hf.edges_ne, hf.length_nodes],
      hnodes.2 hocc.node_inj, hedges.2 hocc.edge_inj, ?_, ?_, ?_, ?_⟩, hΨ⟩
    · refine (hf.domain_iff g).2 fun p hp => ?_
      have hdom := hocc.node_mem_domain hq ht hf.ends hf.planned.stamps
        (p := p) (by rwa [Positions.size_ofGraph])
      rwa [hnode p hp] at hdom
    · refine forall_edgeStates_iff.2 fun oe hoe => ?_
      obtain ⟨qe, te, hqe, hte, -, hlab, -⟩ := himage oe hoe
      simp [targetLabel?, queryLabel?, hqe, hte, hlab]
    · refine forall_edgeStates_iff.2 fun oe hoe => ?_
      obtain ⟨qe, te, hqe, hte, htlive, -, hmap⟩ := himage oe hoe
      exact (hf.holds_link_iff hnode hoe hqe hte).2 ⟨htlive, hmap⟩
    · rw [hΨ]
      refine timesFit_iff.2 ⟨fun oe hoe oe' hoe' => ?_, fun v hv oe hoe oe' hoe' => ?_,
        fun oe hoe => ?_⟩
      · exact hocc.time_order (oe.edge, h oe.edge) (hmem oe hoe) (oe'.edge, h oe'.edge)
          (hmem oe' hoe')
      · exact hocc.within v hv (oe.edge, h oe.edge) (hmem oe hoe) (oe'.edge, h oe'.edge)
          (hmem oe' hoe')
      obtain ⟨-, te, -, hte, -, -, -⟩ := himage oe hoe
      have hte' : sp.target.edges.toList[h oe.edge]? = some te := by
        rw [Array.getElem?_toList]; exact hte
      simpa [targetTime, hte] using hf.planned.stamps te (List.mem_of_getElem? hte')

/-- A complete assignment binds node states through a map of positions and edge states through a
map of query edges. -/
theorem FromPlan.exists_maps_of_complete (hf : sp.FromPlan qops tops) {Φ Ψ : List Nat}
    (hc : sp.Complete Φ Ψ) :
    ∃ g h, Φ = sp.order.nodes.map g ∧ Ψ = (sp.order.edges.map (·.edge)).map h := by
  have hΦ : Φ.length = sp.order.nodes.length := by
    rw [hc.1.bound, hc.2, hf.planned.chain.boundAfter_length hf.edges_ne]
  have hΨ : Ψ.length = (sp.order.edges.map (·.edge)).length := by rw [hc.2, List.length_map]
  exact ⟨_, _, eq_map_getD_idxOf hf.nodes_nodup hΦ, eq_map_getD_idxOf hf.nodup_map_edge hΨ⟩

/-- Over the roots of node state 0's domain, the search lists exactly the occurrences of the
query in the target. -/
theorem mem_search_embedding_iff (hf : sp.FromPlan qops tops) {roots : List Nat}
    (hroots : ∀ v, v ∈ roots ↔ sp.domains.allows (sp.order.nodeAt 0) v = true) (m : Embedding) :
    m ∈ (sp.search roots).map (fun a => (sp.occurrence (Positions.ofGraph sp.query) a).embedding) ↔
      IsOccurrence sp.query sp.target sp.span m := by
  simp only [List.mem_map, mem_search_iff hf.planned hf.edges_ne hroots]
  constructor
  · rintro ⟨_, ⟨Φ, Ψ, hc, rfl⟩, rfl⟩
    obtain ⟨g, h, rfl, rfl⟩ := hf.exists_maps_of_complete hc
    rw [embedding_occurrence hf]
    exact (complete_iff_isOccurrence hf g h).1 hc
  · intro hocc
    have hm := hocc.eq_ofMaps hf.query.nodup_ids
    rw [hm] at hocc
    refine ⟨_, ⟨_, _, (complete_iff_isOccurrence hf _ _).2 hocc, rfl⟩, ?_⟩
    rw [embedding_occurrence hf, ← hm]

/-- Over distinct roots, the search lists no occurrence twice. -/
theorem nodup_search_embedding (hf : sp.FromPlan qops tops) {roots : List Nat}
    (hnd : roots.Nodup)
    (hroots : ∀ v, v ∈ roots ↔ sp.domains.allows (sp.order.nodeAt 0) v = true) :
    ((sp.search roots).map fun a =>
      (sp.occurrence (Positions.ofGraph sp.query) a).embedding).Nodup := by
  refine (nodup_search hf.planned hf.edges_ne hnd hroots).map_on fun a ha b hb hab => ?_
  obtain ⟨Φ, Ψ, hc, rfl⟩ := (mem_search_iff hf.planned hf.edges_ne hroots a).1 ha
  obtain ⟨Φ', Ψ', hc', rfl⟩ := (mem_search_iff hf.planned hf.edges_ne hroots b).1 hb
  obtain ⟨g, h, rfl, rfl⟩ := hf.exists_maps_of_complete hc
  obtain ⟨g', h', rfl, rfl⟩ := hf.exists_maps_of_complete hc'
  rw [embedding_occurrence hf, embedding_occurrence hf] at hab
  -- equal occurrences come from maps that agree on every position and live edge
  obtain ⟨hg, hh⟩ := Embedding.ofMaps_inj hf.query.nodup_ids hab
  have hΦ : sp.order.nodes.map g = sp.order.nodes.map g' :=
    List.map_congr_left fun p hp => hg p ((hf.mem_nodes p).1 hp)
  have hΨ : (sp.order.edges.map (·.edge)).map h = (sp.order.edges.map (·.edge)).map h' :=
    List.map_congr_left fun i hi => hh i ((hf.mem_map_edge_iff i).1 hi)
  rw [hΦ, hΨ]

end SearchSpace

end TemporalMotif
