import TemporalMotif.Proofs.Pairs

/-! # Occurrences of a query in a target

An occurrence maps the query's nodes injectively to target nodes of the same label, and the
query's live edges injectively to live target edges of the same label that join the images of
their ends (in either orientation when the graphs are undirected), so that any two edges' times
compare as the query's do and, under a maximum span `within v`, differ by at most `v`. It is
written as two association lists: nodes in the query's node order, edges by increasing query
edge.

Main statements: in a built graph the entries of a node's index are exactly its live edges
(`Built.holds_iff`), and an occurrence carries the entries of a query node injectively to
entries of its image (`IsOccurrence.holds_entry`, `IsOccurrence.entry_injOn`). -/

namespace TemporalMotif

instance (directed : Bool) (e f : Edge) : Decidable (e.SameKey directed f) :=
  inferInstanceAs (Decidable (_ ∧ _))

/-- Liveness looks at the edges after `i` only. -/
theorem isLive_iff_drop (directed : Bool) (es : List Edge) (i : Nat) :
    IsLive directed es i ↔ ∃ e ∈ es[i]?, ∀ f ∈ es.drop (i + 1), ¬ f.SameKey directed e := by
  simp only [IsLive, Option.mem_def, List.mem_iff_getElem?, List.getElem?_drop]
  constructor
  · rintro ⟨e, he, hlater⟩
    exact ⟨e, he, fun f ⟨j, hj⟩ => hlater (i + 1 + j) (by omega) f hj⟩
  · rintro ⟨e, he, hlater⟩
    refine ⟨e, he, fun j hj f hf => hlater f ⟨j - (i + 1), ?_⟩⟩
    rwa [show i + 1 + (j - (i + 1)) = j by omega]

instance (directed : Bool) (es : List Edge) (i : Nat) : Decidable (IsLive directed es i) :=
  decidable_of_iff _ (isLive_iff_drop directed es i).symm

namespace Graph

/-- Edge `i` exists and no later edge has its key. -/
def IsLiveEdge (g : Graph) (i : Nat) : Prop := IsLive g.directed g.edges.toList i

instance (g : Graph) (i : Nat) : Decidable (g.IsLiveEdge i) :=
  inferInstanceAs (Decidable (IsLive _ _ _))

/-- The live edges, in increasing order. -/
def liveEdges (g : Graph) : List Nat := (List.range g.edges.size).filter fun i => decide (g.IsLiveEdge i)

theorem mem_liveEdges {g : Graph} {i : Nat} : i ∈ g.liveEdges ↔ g.IsLiveEdge i := by
  simp only [liveEdges, List.mem_filter, List.mem_range, decide_eq_true_eq]
  refine ⟨And.right, fun h => ⟨?_, h⟩⟩
  obtain ⟨e, he, -⟩ := h
  simpa using (List.getElem?_eq_some_iff.1 he).1

theorem nodup_liveEdges (g : Graph) : g.liveEdges.Nodup := List.nodup_range.filter _

/-- The last edge of a graph is live: no edge comes after it. -/
theorem isLiveEdge_last (g : Graph) (h : 0 < g.edges.size) : g.IsLiveEdge (g.edges.size - 1) := by
  obtain ⟨e, he⟩ : ∃ e, g.edges.toList[g.edges.size - 1]? = some e :=
    ⟨_, List.getElem?_eq_getElem (by simp; omega)⟩
  refine ⟨e, he, fun j hj f hf => ?_⟩
  rw [List.getElem?_eq_none (by simp; omega)] at hf
  cases hf

/-- The time of edge `i`, zero when there is none. -/
def timeOf (g : Graph) (i : Nat) : Int := ((g.edges[i]?).map (·.time)).getD 0

end Graph

/-- Target nodes for the query's nodes and target edges for its live edges. -/
structure Embedding where
  nodes : List (Nat × Nat)
  edges : List (Nat × Nat)
deriving DecidableEq, Repr

namespace Embedding

/-- The target node of query node `x`. -/
def node (m : Embedding) (x : Nat) : Nat := (m.nodes.lookup x).getD 0

/-- The target edge of query edge `i`. -/
def edge (m : Embedding) (i : Nat) : Nat := (m.edges.lookup i).getD 0

/-- The entry of a target index that stands for the query entry `a`. -/
def entry (m : Embedding) (t : Graph) (a : Entry) : Entry :=
  ⟨t.timeOf (m.edge a.edge), m.node a.nbr, m.edge a.edge⟩

end Embedding

/-- Edge `e'` joins the images under `φ` of the ends of `e`, in either orientation when the
graph is undirected. -/
def Edge.MapsTo (e : Edge) (φ : Nat → Nat) (directed : Bool) (e' : Edge) : Prop :=
  e'.source = φ e.source ∧ e'.dest = φ e.dest ∨
    directed = false ∧ e'.source = φ e.dest ∧ e'.dest = φ e.source

instance (e : Edge) (φ : Nat → Nat) (directed : Bool) (e' : Edge) : Decidable (e.MapsTo φ directed e') :=
  inferInstanceAs (Decidable (_ ∨ _))

/-- `m` is an occurrence of `q` in `t` within the maximum span `span`. -/
structure IsOccurrence (q t : Graph) (span : MaxSpan) (m : Embedding) : Prop where
  node_keys : m.nodes.map Prod.fst = q.nodes.map Prod.fst
  node_inj : (m.nodes.map Prod.snd).Nodup
  node_label : ∀ p ∈ m.nodes, t.label? p.2 = q.label? p.1
  edge_keys : m.edges.map Prod.fst = q.liveEdges
  edge_inj : (m.edges.map Prod.snd).Nodup
  edge_live : ∀ p ∈ m.edges, t.IsLiveEdge p.2
  edge_image : ∀ p ∈ m.edges, ∀ qe ∈ q.edges[p.1]?, ∀ te ∈ t.edges[p.2]?,
    te.label = qe.label ∧ qe.MapsTo m.node t.directed te
  time_order : ∀ p ∈ m.edges, ∀ p' ∈ m.edges,
    compare (t.timeOf p.2) (t.timeOf p'.2) = compare (q.timeOf p.1) (q.timeOf p'.1)
  within : ∀ v, span = .within v → ∀ p ∈ m.edges, ∀ p' ∈ m.edges,
    t.timeOf p.2 - t.timeOf p'.2 ≤ v

instance (span : MaxSpan) (P : Int → Prop) [DecidablePred P] :
    Decidable (∀ v, span = .within v → P v) :=
  match span with
  | .unbounded => isTrue fun _ h => MaxSpan.noConfusion h
  | .within w => decidable_of_iff (P w) ⟨fun h v hv => by cases hv; exact h, fun h => h w rfl⟩

instance (q t : Graph) (span : MaxSpan) (m : Embedding) : Decidable (IsOccurrence q t span m) :=
  decidable_of_iff (m.nodes.map Prod.fst = q.nodes.map Prod.fst ∧ (m.nodes.map Prod.snd).Nodup ∧
      (∀ p ∈ m.nodes, t.label? p.2 = q.label? p.1) ∧ m.edges.map Prod.fst = q.liveEdges ∧
      (m.edges.map Prod.snd).Nodup ∧ (∀ p ∈ m.edges, t.IsLiveEdge p.2) ∧
      (∀ p ∈ m.edges, ∀ qe ∈ q.edges[p.1]?, ∀ te ∈ t.edges[p.2]?,
        te.label = qe.label ∧ qe.MapsTo m.node t.directed te) ∧
      (∀ p ∈ m.edges, ∀ p' ∈ m.edges,
        compare (t.timeOf p.2) (t.timeOf p'.2) = compare (q.timeOf p.1) (q.timeOf p'.1)) ∧
      (∀ v, span = .within v → ∀ p ∈ m.edges, ∀ p' ∈ m.edges, t.timeOf p.2 - t.timeOf p'.2 ≤ v))
    ⟨fun ⟨h1, h2, h3, h4, h5, h6, h7, h8, h9⟩ => ⟨h1, h2, h3, h4, h5, h6, h7, h8, h9⟩,
      fun ⟨h1, h2, h3, h4, h5, h6, h7, h8, h9⟩ => ⟨h1, h2, h3, h4, h5, h6, h7, h8, h9⟩⟩

theorem lookup_of_mem {l : List (Nat × Nat)} (hnd : (l.map Prod.fst).Nodup) {k v : Nat}
    (h : (k, v) ∈ l) : l.lookup k = some v := by
  induction l with
  | nil => simp at h
  | cons p l ih =>
    obtain ⟨k', v'⟩ := p
    simp only [List.map_cons, List.nodup_cons] at hnd
    rw [lookup_cons_ite]
    rcases List.mem_cons.1 h with h | h
    · cases h; simp
    · have hk : k ≠ k' := fun hk => hnd.1 (hk ▸ List.mem_map.2 ⟨_, h, rfl⟩)
      rw [if_neg hk, ih hnd.2 h]

namespace IsOccurrence

variable {q t : Graph} {span : MaxSpan} {m : Embedding}

theorem mem_nodes (hocc : IsOccurrence q t span m) (hq : (q.nodes.map Prod.fst).Nodup) {x : Nat}
    (hx : x ∈ q.nodes.map Prod.fst) : (x, m.node x) ∈ m.nodes := by
  rw [← hocc.node_keys] at hx hq
  obtain ⟨⟨x', v⟩, hv, rfl⟩ := List.mem_map.1 hx
  rw [Embedding.node, lookup_of_mem hq hv]
  exact hv

theorem mem_edges (hocc : IsOccurrence q t span m) {i : Nat} (hi : q.IsLiveEdge i) :
    (i, m.edge i) ∈ m.edges := by
  have hkey : i ∈ m.edges.map Prod.fst := by rw [hocc.edge_keys]; exact Graph.mem_liveEdges.2 hi
  have hnd : (m.edges.map Prod.fst).Nodup := by rw [hocc.edge_keys]; exact Graph.nodup_liveEdges q
  obtain ⟨⟨i', v⟩, hv, rfl⟩ := List.mem_map.1 hkey
  rw [Embedding.edge, lookup_of_mem hnd hv]
  exact hv

theorem node_injOn (hocc : IsOccurrence q t span m) (hq : (q.nodes.map Prod.fst).Nodup)
    {x y : Nat} (hx : x ∈ q.nodes.map Prod.fst) (hy : y ∈ q.nodes.map Prod.fst)
    (hxy : m.node x = m.node y) : x = y :=
  congrArg Prod.fst (List.inj_on_of_nodup_map hocc.node_inj (hocc.mem_nodes hq hx)
    (hocc.mem_nodes hq hy) hxy)

theorem edge_injOn (hocc : IsOccurrence q t span m) {i j : Nat} (hi : q.IsLiveEdge i)
    (hj : q.IsLiveEdge j) (hij : m.edge i = m.edge j) : i = j :=
  congrArg Prod.fst (List.inj_on_of_nodup_map hocc.edge_inj (hocc.mem_edges hi)
    (hocc.mem_edges hj) hij)

theorem compare_timeOf (hocc : IsOccurrence q t span m) {i j : Nat} (hi : q.IsLiveEdge i)
    (hj : q.IsLiveEdge j) :
    compare (t.timeOf (m.edge i)) (t.timeOf (m.edge j)) = compare (q.timeOf i) (q.timeOf j) :=
  hocc.time_order (i, m.edge i) (hocc.mem_edges hi) (j, m.edge j) (hocc.mem_edges hj)

theorem sub_timeOf_le (hocc : IsOccurrence q t span m) {v : Int} (hv : span = .within v)
    {i j : Nat} (hi : q.IsLiveEdge i) (hj : q.IsLiveEdge j) :
    t.timeOf (m.edge i) - t.timeOf (m.edge j) ≤ v :=
  hocc.within v hv (i, m.edge i) (hocc.mem_edges hi) (j, m.edge j) (hocc.mem_edges hj)

/-- The target edge of a live query edge is a live edge of the same label joining the images of
its ends. -/
theorem image (hocc : IsOccurrence q t span m) {i : Nat} (hi : q.IsLiveEdge i) {qe : Edge}
    (hqe : q.edges[i]? = some qe) :
    ∃ te, t.edges[m.edge i]? = some te ∧ t.IsLiveEdge (m.edge i) ∧ te.label = qe.label ∧
      qe.MapsTo m.node t.directed te := by
  have hlive : t.IsLiveEdge (m.edge i) := hocc.edge_live _ (hocc.mem_edges hi)
  obtain ⟨te, hte, -⟩ := id hlive
  have hte' : t.edges[m.edge i]? = some te := by rw [← Array.getElem?_toList]; exact hte
  exact ⟨te, hte', hlive, hocc.edge_image _ (hocc.mem_edges hi) qe hqe te hte'⟩

end IsOccurrence

namespace Edge

/-- Two edges that make the same link in a direction the graph keeps, at the same time, share
their key. -/
theorem sameKey_iff {directed : Bool} {d : Direction} (hd : d.serves directed = true) {e : Edge}
    {x n : Nat} (he : (x, n) ∈ e.links d) (f : Edge) :
    (f.time = e.time ∧ (x, n) ∈ f.links d) ↔ f.SameKey directed e := by
  unfold SameKey
  cases d <;> cases directed <;>
    simp only [Direction.serves, Bool.not_true, Bool.not_false, Bool.false_eq_true] at hd <;>
    simp only [mem_links_outgoing, mem_links_incoming, mem_links_reciprocal] at he ⊢
  · constructor
    · rintro ⟨ht, ⟨rfl, rfl⟩⟩; exact ⟨ht, .inl ⟨he.1.symm, he.2.symm⟩⟩
    · rintro ⟨ht, ⟨h1, h2⟩ | ⟨h0, -⟩⟩
      · exact ⟨ht, h1.trans he.1, h2.trans he.2⟩
      · cases h0
  · constructor
    · rintro ⟨ht, ⟨h1, h2⟩⟩; exact ⟨ht, .inl ⟨h1.trans he.1.symm, h2.trans he.2.symm⟩⟩
    · rintro ⟨ht, ⟨h1, h2⟩ | ⟨h0, -⟩⟩
      · exact ⟨ht, h1.trans he.1, h2.trans he.2⟩
      · cases h0
  · constructor
    · rintro ⟨ht, h⟩
      refine ⟨ht, ?_⟩
      rcases he with ⟨rfl, rfl⟩ | ⟨rfl, rfl⟩ <;> rcases h with ⟨h1, h2⟩ | ⟨h1, h2⟩ <;> simp_all
    · rintro ⟨ht, ⟨h1, h2⟩ | ⟨-, h1, h2⟩⟩ <;> refine ⟨ht, ?_⟩ <;>
        rcases he with ⟨rfl, rfl⟩ | ⟨rfl, rfl⟩ <;> simp_all

/-- The far end of a link is fixed by the edge and the near end. -/
theorem nbr_unique {e : Edge} {d : Direction} {x n n' : Nat} (h : (x, n) ∈ e.links d)
    (h' : (x, n') ∈ e.links d) : n = n' := by
  cases d <;> simp only [mem_links_outgoing, mem_links_incoming, mem_links_reciprocal] at h h' <;>
    omega

theorem mem_ends {e : Edge} {d : Direction} {x n : Nat} (h : (x, n) ∈ e.links d) :
    n = e.source ∨ n = e.dest := by
  cases d <;> simp only [mem_links_outgoing, mem_links_incoming, mem_links_reciprocal] at h <;>
    omega

/-- An edge that maps to `e'` makes its links' images there. -/
theorem mem_links_of_mapsTo {directed : Bool} {d : Direction} (hd : d.serves directed = true)
    {e e' : Edge} {φ : Nat → Nat} (hmap : e.MapsTo φ directed e') {x n : Nat}
    (h : (x, n) ∈ e.links d) : (φ x, φ n) ∈ e'.links d := by
  unfold MapsTo at hmap
  cases d <;> cases directed <;>
    simp only [Direction.serves, Bool.not_true, Bool.not_false, Bool.false_eq_true] at hd <;>
    simp only [mem_links_outgoing, mem_links_incoming, mem_links_reciprocal] at h ⊢
  · obtain ⟨rfl, rfl⟩ := h
    rcases hmap with ⟨h1, h2⟩ | ⟨h0, -⟩
    · exact ⟨h1, h2⟩
    · cases h0
  · obtain ⟨rfl, rfl⟩ := h
    rcases hmap with ⟨h1, h2⟩ | ⟨h0, -⟩
    · exact ⟨h1, h2⟩
    · cases h0
  · rcases h with ⟨rfl, rfl⟩ | ⟨rfl, rfl⟩ <;> rcases hmap with ⟨h1, h2⟩ | ⟨-, h1, h2⟩ <;> simp [h1, h2]

end Edge

/-- For an edge that makes the link, being the last edge that makes it is being live. -/
theorem isLastWhere_iff_isLive {directed : Bool} {d : Direction} (hd : d.serves directed = true)
    {es : List Edge} {i : Nat} {e : Edge} (hei : es[i]? = some e) {x n : Nat}
    (he : (x, n) ∈ e.links d) :
    IsLastWhere es (fun f => f.time = e.time ∧ (x, n) ∈ f.links d) i ↔ IsLive directed es i := by
  constructor
  · rintro ⟨-, hlast⟩
    exact ⟨e, hei, fun j hj f hf hkey => hlast j hj f hf ((Edge.sameKey_iff hd he f).2 hkey)⟩
  · rintro ⟨e', he', hlive⟩
    rw [hei] at he'
    cases he'
    exact ⟨⟨e, hei, rfl, he⟩, fun j hj f hf hp => hlive j hj f hf ((Edge.sameKey_iff hd he f).1 hp)⟩

namespace Built

variable {g : Graph} {directed : Bool} {ops : List GraphOp}

theorem nodup_ids (h : Built g directed ops) : (g.nodes.map Prod.fst).Nodup := by
  rw [h.ids_eq]; exact nodup_eraseDups _

theorem getElem?_edges (h : Built g directed ops) (i : Nat) : g.edges[i]? = (addedEdges ops)[i]? := by
  rw [← h.edges_eq, Array.getElem?_toList]

theorem isLiveEdge_iff (h : Built g directed ops) (i : Nat) :
    g.IsLiveEdge i ↔ IsLive directed (addedEdges ops) i := by
  rw [Graph.IsLiveEdge, h.directed_eq, h.edges_eq]

theorem holds_iff_linkAt? (h : Built g directed ops) {x : Nat} {d : Direction} {a : Entry} :
    (g.indexOf x d).Holds a ↔ g.linkAt? x d a.time a.nbr = some a.edge := by
  constructor
  · rintro ⟨m, hm, hmt, ha⟩
    rw [← hmt]
    exact (h.mem_links_iff hm _ _).1 ha
  · intro hl
    unfold Graph.linkAt? at hl
    cases hat : (g.indexOf x d).at? a.time with
    | none => rw [hat] at hl; cases hl
    | some m =>
      rw [hat] at hl
      have hm : m ∈ (g.indexOf x d).moments := List.mem_of_find?_eq_some hat
      have hmt : m.time = a.time := TimeIndex.time_of_at? hat
      refine ⟨m, hm, hmt, (h.mem_links_iff hm _ _).2 ?_⟩
      rw [hmt]
      unfold Graph.linkAt?
      rw [hat]
      exact hl

/-- The entries of a node's index in a direction the graph keeps are its live edges there. -/
theorem holds_iff (h : Built g directed ops) {x : Nat} {d : Direction} {a : Entry} :
    (g.indexOf x d).Holds a ↔ d.serves directed = true ∧ g.IsLiveEdge a.edge ∧
      ∃ e, g.edges[a.edge]? = some e ∧ e.time = a.time ∧ (x, a.nbr) ∈ e.links d := by
  rw [h.holds_iff_linkAt?, h.linkAt?_eq_some_iff, h.isLiveEdge_iff]
  constructor
  · rintro ⟨hd, hlast⟩
    obtain ⟨e, hei, het, he⟩ := hlast.1
    have hlast' := hlast
    rw [← het] at hlast'
    refine ⟨hd, (isLastWhere_iff_isLive hd hei he).1 hlast', e, ?_, het, he⟩
    rw [h.getElem?_edges]; exact hei
  · rintro ⟨hd, hlive, e, hei, het, he⟩
    rw [h.getElem?_edges] at hei
    refine ⟨hd, ?_⟩
    rw [← het]
    exact (isLastWhere_iff_isLive hd hei he).2 hlive

/-- An entry is fixed by its edge. -/
theorem entry_eq_of_edge (h : Built g directed ops) {x : Nat} {d : Direction} {a b : Entry}
    (ha : (g.indexOf x d).Holds a) (hb : (g.indexOf x d).Holds b) (hab : a.edge = b.edge) : a = b := by
  obtain ⟨-, -, e, he, het, hxe⟩ := h.holds_iff.1 ha
  obtain ⟨-, -, f, hf, hft, hxf⟩ := h.holds_iff.1 hb
  rw [← hab, he] at hf
  cases hf
  obtain ⟨ta, na, ea⟩ := a
  obtain ⟨tb, nb, eb⟩ := b
  simp only at het hft hxe hxf hab
  simp only [Entry.mk.injEq]
  exact ⟨het.symm.trans hft, Edge.nbr_unique hxe hxf, hab⟩

end Built

namespace IsOccurrence

variable {q t : Graph} {directed : Bool} {qops tops : List GraphOp} {span : MaxSpan}
  {m : Embedding}

/-- An occurrence carries an entry of a query node to an entry of its image. -/
theorem holds_entry (hq : Built q directed qops) (ht : Built t directed tops)
    (hocc : IsOccurrence q t span m) {x : Nat} {d : Direction} {a : Entry}
    (ha : (q.indexOf x d).Holds a) : (t.indexOf (m.node x) d).Holds (m.entry t a) := by
  obtain ⟨hd, hlive, qe, hqe, -, hx⟩ := hq.holds_iff.1 ha
  obtain ⟨te, hte, htlive, -, hmap⟩ := hocc.image hlive hqe
  rw [ht.directed_eq] at hmap
  refine ht.holds_iff.2 ⟨hd, htlive, te, hte, ?_, Edge.mem_links_of_mapsTo hd hmap hx⟩
  simp [Embedding.entry, Graph.timeOf, hte]

/-- Two entries of one query index with the same image are one. -/
theorem entry_injOn (hq : Built q directed qops) (hocc : IsOccurrence q t span m) {x : Nat}
    {d : Direction} {a b : Entry} (ha : (q.indexOf x d).Holds a) (hb : (q.indexOf x d).Holds b)
    (hab : m.entry t a = m.entry t b) : a = b := by
  have hedge : m.edge a.edge = m.edge b.edge := congrArg Entry.edge hab
  exact hq.entry_eq_of_edge ha hb
    (hocc.edge_injOn (hq.holds_iff.1 ha).2.1 (hq.holds_iff.1 hb).2.1 hedge)

end IsOccurrence

end TemporalMotif
