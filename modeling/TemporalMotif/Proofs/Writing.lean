import TemporalMotif.Text.Writer
import TemporalMotif.Proofs.Order

/-! # The edges the text form writes

The text form numbers the nodes by their place in insertion order and writes, from each node in
turn, its links in the graph's forward direction: time by time, each link to a numbered node (to
a larger number only when the graph is undirected), by number. `Graph.written` lists these lines
as edges between node numbers. In a built graph with distinct node ids, an edge is written
exactly when a live edge makes its link between the nodes its numbers name (`Graph.mem_written`),
the written edges come by source, then time, then destination (`Graph.pairwise_written`), so a
list in that order is fixed by its members (`Edge.eq_of_pairwise_writtenBefore`), and when every
edge joins two different nodes they are the unshadowed edges renumbered, each once
(`Graph.written_perm`). -/

namespace TemporalMotif

namespace Edge

/-- The text line of an edge between node numbers, naming its label through `names`. -/
def line (e : Edge) (names : LabelTable) : String :=
  s!"{e.source}\t{e.dest}\t{e.time}:{names.edgeName e.label}"

/-- The order of edge lines: by source, then time, then destination. -/
def WrittenBefore (a b : Edge) : Prop :=
  a.source < b.source ∨ a.source = b.source ∧ (a.time < b.time ∨ a.time = b.time ∧ a.dest < b.dest)

theorem WrittenBefore.ne {a b : Edge} (h : a.WrittenBefore b) : a ≠ b := by
  rintro rfl
  unfold WrittenBefore at h
  omega

theorem WrittenBefore.not_symm {a b : Edge} (h : a.WrittenBefore b) : ¬ b.WrittenBefore a := by
  unfold WrittenBefore at h ⊢
  omega

/-- Two lists in the order of edge lines with the same members are equal. -/
theorem eq_of_pairwise_writtenBefore {l₁ l₂ : List Edge} (h₁ : l₁.Pairwise WrittenBefore)
    (h₂ : l₂.Pairwise WrittenBefore) (hmem : ∀ e, e ∈ l₁ ↔ e ∈ l₂) : l₁ = l₂ := by
  have hnd₁ : l₁.Nodup := h₁.imp WrittenBefore.ne
  have hnd₂ : l₂.Nodup := h₂.imp WrittenBefore.ne
  exact ((List.perm_ext_iff_of_nodup hnd₁ hnd₂).2 hmem).eq_of_pairwise
    (fun _ _ _ _ hab hba => absurd hba hab.not_symm) h₁ h₂

end Edge

namespace Graph

/-- The order of `(number, edge)` links in a row: by number, then by edge. -/
def byNumber (a b : Nat × Nat) : Bool := a.1 < b.1 || (a.1 == b.1 && a.2 ≤ b.2)

/-- The `(number, edge)` links that node number `i` writes from moment `m`: those to nodes
numbered in `ids`, to a larger number only when undirected, by number and then by edge. -/
def writtenRow (g : Graph) (ids : List Nat) (i : Nat) (m : Moment) : List (Nat × Nat) :=
  (m.links.filterMap fun (nbr, e) =>
      match ids.idxOf? nbr with
      | some j => if g.directed || decide (i < j) then some (j, e) else none
      | none => none).mergeSort byNumber

/-- The edges that node number `i`, of id `x`, writes, with node numbers for ends. -/
def writtenFrom (g : Graph) (ids : List Nat) (i x : Nat) : List Edge :=
  (g.indexOf x g.forward).moments.flatMap fun m =>
    (g.writtenRow ids i m).map fun (j, e) => ⟨i, j, m.time, (g.edges[e]?.map (·.label)).getD 0⟩

/-- The edges of the text form of `g`, between node numbers, in the order they are written. -/
def written (g : Graph) : List Edge :=
  let ids := g.nodes.map (·.1)
  ids.zipIdx.flatMap fun (x, i) => g.writtenFrom ids i x

/-- Edge `e` with its ends renumbered by their places in `ids`, the smaller number first when
the graph is undirected. -/
def renumber (g : Graph) (ids : List Nat) (e : Edge) : Edge :=
  let a := ids.idxOf e.source
  let b := ids.idxOf e.dest
  if g.directed || decide (a < b) then ⟨a, b, e.time, e.label⟩ else ⟨b, a, e.time, e.label⟩

/-- The edges that no later edge shadows, in arrival order. -/
def unshadowedEdges (g : Graph) : List Edge :=
  (g.edges.toList.zipIdx.filter fun (_, k) => k ∉ g.shadowed).map Prod.fst

theorem writtenEdges_eq (g : Graph) (names : LabelTable) (ids : List Nat) (i x : Nat) :
    g.writtenEdges names ids i x = (g.writtenFrom ids i x).map (·.line names) := by
  simp only [writtenEdges, writtenFrom, List.map_flatMap, List.map_map]
  rfl

/-- The text form is the node count, a line per node, then the lines of the written edges. -/
theorem render_eq (g : Graph) (names : LabelTable) :
    g.render names = String.join ((toString g.nodes.length ::
      (g.nodes.zipIdx.map fun ((_, l), i) => s!"{i}\t{names.nodeName l}") ++
        g.written.map (·.line names)).map (· ++ "\n")) := by
  simp only [render, written, writtenEdges_eq, List.length_map, List.map_flatMap]

theorem mem_writtenRow {g : Graph} {ids : List Nat} {i : Nat} {m : Moment} {j e : Nat} :
    (j, e) ∈ g.writtenRow ids i m ↔
      (g.directed = true ∨ i < j) ∧ ∃ nbr, (nbr, e) ∈ m.links ∧ ids.idxOf? nbr = some j := by
  rw [writtenRow, List.mem_mergeSort, List.mem_filterMap]
  constructor
  · rintro ⟨⟨nbr, e'⟩, hmem, hf⟩
    dsimp only at hf
    split at hf
    · rename_i j' hj'
      split at hf
      · rename_i hdir
        cases hf
        exact ⟨by simpa using hdir, nbr, hmem, hj'⟩
      · cases hf
    · cases hf
  · rintro ⟨hdir, nbr, hmem, hj⟩
    have hkeep : (g.directed || decide (i < j)) = true := by simpa using hdir
    exact ⟨(nbr, e), hmem, by simp [hj, hkeep]⟩

theorem mem_writtenFrom {g : Graph} {ids : List Nat} {i x : Nat} {w : Edge} :
    w ∈ g.writtenFrom ids i x ↔ w.source = i ∧ (g.directed = true ∨ i < w.dest) ∧
      ∃ nbr e, (g.indexOf x g.forward).Holds ⟨w.time, nbr, e⟩ ∧ ids.idxOf? nbr = some w.dest ∧
        (g.edges[e]?.map (·.label)).getD 0 = w.label := by
  simp only [writtenFrom, List.mem_flatMap, List.mem_map, TimeIndex.Holds]
  constructor
  · rintro ⟨m, hm, ⟨j, e⟩, hje, rfl⟩
    obtain ⟨hdir, nbr, hlink, hj⟩ := mem_writtenRow.1 hje
    exact ⟨rfl, hdir, nbr, e, ⟨m, hm, rfl, hlink⟩, hj, rfl⟩
  · rintro ⟨hi, hdir, nbr, e, ⟨m, hm, hmt, hlink⟩, hj, hl⟩
    obtain ⟨s, d, t, l⟩ := w
    dsimp only at hi hdir hmt hj hl
    subst hi hmt hl
    exact ⟨m, hm, (d, e), mem_writtenRow.2 ⟨hdir, nbr, hlink, hj⟩, rfl⟩

/-- Sorting links to distinct numbers leaves the numbers increasing. -/
theorem pairwise_mergeSort_byNumber {l : List (Nat × Nat)} (hne : l.Pairwise fun a b => a.1 ≠ b.1) :
    (l.mergeSort byNumber).Pairwise fun a b => a.1 < b.1 := by
  have htrans : ∀ a b c, byNumber a b = true → byNumber b c = true → byNumber a c = true := by
    intro a b c hab hbc
    simp only [byNumber, Bool.or_eq_true, Bool.and_eq_true, decide_eq_true_eq, beq_iff_eq] at *
    omega
  have htotal : ∀ a b, (byNumber a b || byNumber b a) = true := by
    intro a b
    simp only [byNumber, Bool.or_eq_true, Bool.and_eq_true, decide_eq_true_eq, beq_iff_eq]
    omega
  have hsorted := List.pairwise_mergeSort htrans htotal l
  have hne' := (List.mergeSort_perm l byNumber).symm.pairwise hne fun h => Ne.symm h
  refine (hsorted.and hne').imp fun ⟨hle, hab⟩ => ?_
  simp only [byNumber, Bool.or_eq_true, Bool.and_eq_true, decide_eq_true_eq, beq_iff_eq] at hle
  omega

/-- Under distinct ids, the place of `x` is `j` exactly when place `j` holds `x`. -/
theorem idxOf?_eq_some_iff_getElem? {ids : List Nat} (hnd : ids.Nodup) {x j : Nat} :
    ids.idxOf? x = some j ↔ ids[j]? = some x := by
  rw [List.idxOf?_eq_some_iff, List.getElem?_eq_some_iff]
  constructor
  · rintro ⟨hj, hx, -⟩
    exact ⟨hj, hx⟩
  · rintro ⟨hj, hx⟩
    refine ⟨hj, hx, fun k hk hkx => ?_⟩
    have := hnd.getElem_inj_iff.1 (hkx.trans hx.symm)
    omega

/-- Under distinct ids, a place holds a member exactly when it is the member's place. -/
theorem getElem?_eq_some_iff_idxOf {ids : List Nat} (hnd : ids.Nodup) {x : Nat} (hx : x ∈ ids)
    {j : Nat} : ids[j]? = some x ↔ j = ids.idxOf x := by
  rw [List.getElem?_eq_some_iff]
  constructor
  · rintro ⟨hj, rfl⟩
    exact (hnd.idxOf_getElem j hj).symm
  · rintro rfl
    exact ⟨List.idxOf_lt_length_of_mem hx, List.getElem_idxOf _⟩

/-- Renumbering keeps time and label, and renumbered edges that agree share their key. -/
theorem sameKey_of_renumber_eq {g : Graph} {ids : List Nat} {a b : Edge} (ha : a.source ∈ ids)
    (ha' : a.dest ∈ ids) (h : g.renumber ids a = g.renumber ids b) : b.SameKey g.directed a := by
  have hs := List.idxOf_inj (y := b.source) ha
  have hs' := List.idxOf_inj (y := b.dest) ha
  have hd := List.idxOf_inj (y := b.source) ha'
  have hd' := List.idxOf_inj (y := b.dest) ha'
  unfold renumber at h
  dsimp only at h
  unfold Edge.SameKey
  cases hdir : g.directed
  · -- undirected: the ends agree in one order or the other
    simp only [hdir, Bool.false_or, decide_eq_true_eq, true_and] at h ⊢
    split at h <;> split at h <;> simp only [Edge.mk.injEq, hs, hs', hd, hd'] at h <;> omega
  · -- directed: the ends agree in order
    simp only [hdir, Bool.true_or, if_true, Edge.mk.injEq, hs, hd'] at h
    omega

/-- Under distinct ids, renumbering an edge between two different nodes gives `w` exactly when
`w` has the edge's time and label and its numbers are the places of the ends of one of the
edge's forward links, the smaller first when the graph is undirected. -/
theorem renumber_eq_iff {g : Graph} {ids : List Nat} (hnd : ids.Nodup) {e : Edge}
    (hs : e.source ∈ ids) (hd : e.dest ∈ ids) (hloop : e.source ≠ e.dest) {w : Edge} :
    g.renumber ids e = w ↔ (g.directed = true ∨ w.source < w.dest) ∧ e.time = w.time ∧
      e.label = w.label ∧ ∃ x y, ids[w.source]? = some x ∧ ids[w.dest]? = some y ∧
        (x, y) ∈ e.links g.forward := by
  have hAB : ids.idxOf e.source ≠ ids.idxOf e.dest := fun h => hloop ((List.idxOf_inj hs).1 h)
  have hatA := (getElem?_eq_some_iff_idxOf hnd hs (j := ids.idxOf e.source)).2 rfl
  have hatB := (getElem?_eq_some_iff_idxOf hnd hd (j := ids.idxOf e.dest)).2 rfl
  obtain ⟨ws, wd, wt, wl⟩ := w
  unfold renumber forward
  dsimp only
  cases hdir : g.directed
  · -- undirected: the end at the smaller place comes first
    simp only [Bool.false_or, decide_eq_true_eq, Bool.false_eq_true, false_or, if_false,
      Edge.mem_links_reciprocal]
    constructor
    · intro h
      split at h
      · cases h
        exact ⟨‹_›, rfl, rfl, e.source, e.dest, hatA, hatB, .inl ⟨rfl, rfl⟩⟩
      · cases h
        exact ⟨by omega, rfl, rfl, e.dest, e.source, hatB, hatA, .inr ⟨rfl, rfl⟩⟩
    · rintro ⟨hlt, rfl, rfl, x, y, hx, hy, ⟨rfl, rfl⟩ | ⟨rfl, rfl⟩⟩
      · rw [getElem?_eq_some_iff_idxOf hnd hs] at hx
        rw [getElem?_eq_some_iff_idxOf hnd hd] at hy
        subst hx hy
        simp [hlt]
      · rw [getElem?_eq_some_iff_idxOf hnd hd] at hx
        rw [getElem?_eq_some_iff_idxOf hnd hs] at hy
        subst hx hy
        simp [Nat.not_lt_of_gt hlt]
  · -- directed: the ends keep their order
    simp only [Bool.true_or, if_true, Edge.mk.injEq, Edge.mem_links_outgoing, true_or, true_and]
    constructor
    · rintro ⟨rfl, rfl, rfl, rfl⟩
      exact ⟨rfl, rfl, e.source, e.dest, hatA, hatB, rfl, rfl⟩
    · rintro ⟨rfl, rfl, x, y, hx, hy, rfl, rfl⟩
      rw [getElem?_eq_some_iff_idxOf hnd hs] at hx
      rw [getElem?_eq_some_iff_idxOf hnd hd] at hy
      exact ⟨hx.symm, hy.symm, rfl, rfl⟩

section Built

variable {g : Graph} {directed : Bool} {ops : List GraphOp}

theorem mem_unshadowedEdges (h : Built g directed ops) {e : Edge} :
    e ∈ g.unshadowedEdges ↔ ∃ k, g.IsLiveEdge k ∧ g.edges[k]? = some e := by
  simp only [unshadowedEdges, List.mem_map, List.mem_filter, List.mem_zipIdx_iff_getElem?,
    Array.getElem?_toList, h.mem_shadowed_iff, h.isLiveEdge_iff, decide_eq_true_eq, not_and,
    not_not]
  constructor
  · rintro ⟨⟨e', k⟩, ⟨he, hlive⟩, rfl⟩
    have hk : k < (addedEdges ops).length := by
      rw [h.getElem?_edges] at he
      exact (List.getElem?_eq_some_iff.1 he).1
    exact ⟨k, hlive hk, he⟩
  · rintro ⟨k, hlive, he⟩
    exact ⟨(e, k), ⟨he, fun _ => hlive⟩, rfl⟩

/-- With every edge live, no edge is shadowed. -/
theorem unshadowedEdges_eq_of_isLiveEdge (h : Built g directed ops)
    (hlive : ∀ k < g.edges.size, g.IsLiveEdge k) : g.unshadowedEdges = g.edges.toList := by
  unfold unshadowedEdges
  rw [List.filter_eq_self.2, List.zipIdx_map_fst]
  rintro ⟨e, k⟩ hk
  have hlt : k < g.edges.size := by
    simpa using (List.getElem?_eq_some_iff.1 (List.mem_zipIdx_iff_getElem?.1 hk)).1
  simp only [h.mem_shadowed_iff, ← h.isLiveEdge_iff, hlive k hlt, not_true_eq_false, and_false,
    not_false_eq_true, decide_true]

/-- An edge is written exactly when a live edge, at its time and with its label, makes the link
in the forward direction between the nodes at its two numbers; in an undirected graph, from the
smaller number. -/
theorem mem_written (h : Built g directed ops) (hnd : (g.nodes.map Prod.fst).Nodup) {w : Edge} :
    w ∈ g.written ↔ (g.directed = true ∨ w.source < w.dest) ∧
      ∃ k e, g.IsLiveEdge k ∧ g.edges[k]? = some e ∧ e.time = w.time ∧ e.label = w.label ∧
        ∃ x y, (g.nodes.map Prod.fst)[w.source]? = some x ∧
          (g.nodes.map Prod.fst)[w.dest]? = some y ∧ (x, y) ∈ e.links g.forward := by
  simp only [written, List.mem_flatMap, List.mem_zipIdx_iff_getElem?, mem_writtenFrom,
    h.holds_iff, idxOf?_eq_some_iff_getElem? hnd]
  constructor
  · rintro ⟨⟨x, i⟩, hx, rfl, hdir, y, k, ⟨-, hlive, e, he, het, hlink⟩, hy, hl⟩
    exact ⟨hdir, k, e, hlive, he, het, by simpa [he] using hl, x, y, hx, hy, hlink⟩
  · rintro ⟨hdir, k, e, hlive, he, het, hel, x, y, hx, hy, hlink⟩
    exact ⟨(x, w.source), hx, rfl, hdir, y, k, ⟨h.forward_serves, hlive, e, he, het, hlink⟩, hy,
      by simpa [he] using hel⟩

/-- A moment writes its links to distinct numbers, in increasing number. -/
theorem pairwise_writtenRow (h : Built g directed ops) {x : Nat} {d : Direction} {m : Moment}
    (hm : m ∈ (g.indexOf x d).moments) (ids : List Nat) (i : Nat) :
    (g.writtenRow ids i m).Pairwise fun a b => a.1 < b.1 := by
  have hnbrs : m.links.Pairwise fun a b => a.1 ≠ b.1 := List.pairwise_map.1 (h.nodup_nbrs hm)
  unfold writtenRow
  refine pairwise_mergeSort_byNumber (List.Pairwise.filterMap _ ?_ hnbrs)
  -- two neighbours given one number would both be the node at that place
  rintro ⟨nbr, e⟩ ⟨nbr', e'⟩ hne ⟨j, f⟩ hb ⟨j', f'⟩ hb' rfl
  dsimp only at hne hb hb'
  cases hk : ids.idxOf? nbr with
  | none => simp [hk] at hb
  | some k =>
    cases hk' : ids.idxOf? nbr' with
    | none => simp [hk'] at hb'
    | some k' =>
      simp only [hk, hk', Option.ite_none_right_eq_some, Option.some.injEq, Prod.mk.injEq] at hb hb'
      obtain ⟨-, rfl, -⟩ := hb
      obtain ⟨-, rfl, -⟩ := hb'
      obtain ⟨_, hx, -⟩ := List.idxOf?_eq_some_iff.1 hk
      obtain ⟨_, hx', -⟩ := List.idxOf?_eq_some_iff.1 hk'
      exact hne (hx.symm.trans hx')

/-- A node writes its edges by time, and within a time by number. -/
theorem pairwise_writtenFrom (h : Built g directed ops) (ids : List Nat) (i x : Nat) :
    (g.writtenFrom ids i x).Pairwise Edge.WrittenBefore := by
  unfold writtenFrom
  rw [List.pairwise_flatMap]
  refine ⟨fun m hm => ?_, (g.indexOf x g.forward).increasing.imp fun hlt a ha b hb => ?_⟩
  · -- within a moment: one source and one time, increasing numbers
    exact List.pairwise_map.2 ((pairwise_writtenRow h hm ids i).imp fun hlt =>
      .inr ⟨rfl, .inr ⟨rfl, hlt⟩⟩)
  · -- across moments: one source, the earlier time first
    obtain ⟨_, -, rfl⟩ := List.mem_map.1 ha
    obtain ⟨_, -, rfl⟩ := List.mem_map.1 hb
    exact .inr ⟨rfl, .inl hlt⟩

/-- The written edges come by source, then time, then destination. -/
theorem pairwise_written (h : Built g directed ops) : g.written.Pairwise Edge.WrittenBefore := by
  unfold written
  rw [List.pairwise_flatMap]
  refine ⟨fun p _ => pairwise_writtenFrom h _ _ _,
    (MatchingOrder.pairwise_zipIdx_lt _).imp fun hlt a ha b hb => ?_⟩
  have ha' := (mem_writtenFrom.1 ha).1
  have hb' := (mem_writtenFrom.1 hb).1
  exact .inl (by rw [ha', hb']; exact hlt)

/-- When every edge joins two different nodes, the written edges are the unshadowed edges
renumbered, each once. -/
theorem written_perm (h : Built g directed ops) (hnd : (g.nodes.map Prod.fst).Nodup)
    (hends : ∀ e ∈ g.edges.toList, e.source ∈ g.nodes.map Prod.fst ∧
      e.dest ∈ g.nodes.map Prod.fst ∧ e.source ≠ e.dest) :
    g.written.Perm (g.unshadowedEdges.map (g.renumber (g.nodes.map Prod.fst))) := by
  have hmem : ∀ {k e}, g.edges[k]? = some e → e ∈ g.edges.toList := fun he =>
    List.mem_of_getElem? (by rwa [Array.getElem?_toList])
  refine (List.perm_ext_iff_of_nodup ((pairwise_written h).imp Edge.WrittenBefore.ne) ?_).2
    fun w => ?_
  · -- an unshadowed edge shares its key with no later edge, so no two renumber alike
    have hlt : (g.edges.toList.zipIdx.filter fun (_, k) => k ∉ g.shadowed).Pairwise
        fun a b => a.2 < b.2 :=
      (MatchingOrder.pairwise_zipIdx_lt _).sublist List.filter_sublist
    rw [unshadowedEdges, List.map_map, List.Nodup, List.pairwise_map]
    refine hlt.imp_of_mem fun {a b} ha hb hab heq => ?_
    simp only [List.mem_filter, List.mem_zipIdx_iff_getElem?, Array.getElem?_toList,
      decide_eq_true_eq] at ha hb
    obtain ⟨hae, hash⟩ := ha
    have hak : a.2 < (addedEdges ops).length := by
      rw [h.getElem?_edges] at hae
      exact (List.getElem?_eq_some_iff.1 hae).1
    have hlive : IsLive directed (addedEdges ops) a.2 :=
      Classical.byContradiction fun hnot => hash ((h.mem_shadowed_iff a.2).2 ⟨hak, hnot⟩)
    obtain ⟨e, he, hlater⟩ := hlive
    rw [← h.getElem?_edges, hae] at he
    cases he
    obtain ⟨hs, hd, -⟩ := hends a.1 (hmem hae)
    have hkey := sameKey_of_renumber_eq hs hd heq
    rw [h.directed_eq] at hkey
    exact hlater b.2 hab b.1 (by rw [← h.getElem?_edges]; exact hb.1) hkey
  · rw [mem_written h hnd, List.mem_map]
    constructor
    · rintro ⟨hdir, k, e, hlive, he, het, hel, x, y, hx, hy, hlink⟩
      obtain ⟨hs, hd, hloop⟩ := hends e (hmem he)
      exact ⟨e, (mem_unshadowedEdges h).2 ⟨k, hlive, he⟩,
        (renumber_eq_iff hnd hs hd hloop).2 ⟨hdir, het, hel, x, y, hx, hy, hlink⟩⟩
    · rintro ⟨e, heu, hw⟩
      obtain ⟨k, hlive, he⟩ := (mem_unshadowedEdges h).1 heu
      obtain ⟨hs, hd, hloop⟩ := hends e (hmem he)
      obtain ⟨hdir, het, hel, x, y, hx, hy, hlink⟩ := (renumber_eq_iff hnd hs hd hloop).1 hw
      exact ⟨hdir, k, e, hlive, he, het, hel, x, y, hx, hy, hlink⟩

end Built

end Graph

end TemporalMotif
