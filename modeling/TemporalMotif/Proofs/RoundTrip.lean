import TemporalMotif.Proofs.PrintedLines
import TemporalMotif.Proofs.Correspondence

/-! # Writing a graph and reading it back

A graph read from text is writable with the table the reading leaves: its node ids fit the
numerals and each of its labels has a name that reads back from its kind of line
(`Graph.writable_of_load`). Such a graph, written with that table, reads back with the same table
into its renumbered form `Graph.reread`: nodes `0, 1, …` with the labels of its nodes in order,
and the written edges in the order they are written (`Graph.Writable.load_render`). No two
written edges share a key, so none of them is shadowed when read back, and the renumbered form
writes the same text (`Graph.Writable.render_reread`); its edges are the unshadowed edges
renumbered, each once (`Graph.load_render_round_trip`). -/

namespace TemporalMotif

theorem eraseDups_eq_self {l : List Nat} (h : l.Nodup) : l.eraseDups = l := by
  induction l with
  | nil => rfl
  | cons a l ih =>
    have hfilter : l.filter (fun b => !b == a) = l := List.filter_eq_self.2 fun b hb => by
      have hba : b ≠ a := fun hba => (List.nodup_cons.1 h).1 (hba ▸ hb)
      simpa using hba
    rw [List.eraseDups_cons, hfilter, ih (List.nodup_cons.1 h).2]

theorem idxOf_range {n x : Nat} (h : x < n) : (List.range n).idxOf x = x :=
  ((Graph.getElem?_eq_some_iff_idxOf List.nodup_range (List.mem_range.2 h)).1
    (List.getElem?_range h)).symm

namespace Graph

/-- What reading back the text form of `g` written with `names` needs: `g` is built, its node
ids fit the id numerals, its labels have names that read back from their kind of line, and its
edges join two different nodes of `g` at times in range. -/
structure Writable (g : Graph) (names : LabelTable) : Prop where
  built : ∃ ops, Built g g.directed ops
  node_named : ∀ p ∈ g.nodes, Reader.NodeNamed p names
  edge_named : ∀ e ∈ g.edges.toList, Reader.EdgeNamed e names
  edge_joins : ∀ e ∈ g.edges.toList, g.containsNode e.source = true ∧
    g.containsNode e.dest = true ∧ e.source ≠ e.dest ∧ Stamp.InRange e.time

/-- A graph read from text is writable with the table the reading leaves. -/
theorem writable_of_load {labels labels' : LabelTable} {text : String} {directed : Bool}
    {g : Graph} (h : Graph.load labels text none directed = .ok (g, labels')) :
    g.Writable labels' := by
  have hjoins := Graph.edge_of_load h
  obtain ⟨nodes, edges, ht, rfl⟩ := load_eq_ok_iff.1 h
  obtain ⟨hnodes, hedges⟩ := Reader.named_of_readTrace ht
  have hb := built_ofOps directed (Reader.requestOps none nodes edges)
  refine ⟨⟨_, by rw [hb.directed_eq]; exact hb⟩, fun p hp => ?_, fun e he => ?_, hjoins⟩
  · -- a node keeps the label of a request for it
    have hlab : (Graph.ofOps directed (Reader.requestOps none nodes edges)).label? p.1 = some p.2 :=
      lookup_of_mem hb.nodup_ids hp
    rw [Reader.label?_requestOps] at hlab
    exact hnodes p (List.mem_filter.1 (mem_of_lookup hlab)).1
  · rw [Reader.edges_requestOps] at he
    exact hedges e (List.mem_filter.1 he).1

/-- The nodes of `g` numbered `0, 1, …` in insertion order, each with its label. -/
def renumberedNodes (g : Graph) : List (Nat × Nat) :=
  g.nodes.zipIdx.map fun ((_, l), i) => (i, l)

/-- The graph that the text form of `g` reads back into: its renumbered nodes, and the written
edges in the order they are written. -/
def reread (g : Graph) : Graph :=
  Graph.ofOps g.directed (Reader.requestOps none g.renumberedNodes g.written)

theorem keys_renumberedNodes (g : Graph) :
    g.renumberedNodes.map Prod.fst = List.range g.nodes.length := by
  rw [renumberedNodes, List.map_map, List.range_eq_range', ← List.zipIdx_map_snd]
  rfl

theorem built_reread (g : Graph) :
    Built g.reread g.directed (Reader.requestOps none g.renumberedNodes g.written) :=
  built_ofOps _ _

theorem ids_reread (g : Graph) : g.reread.nodes.map Prod.fst = List.range g.nodes.length := by
  rw [(built_reread g).ids_eq, Reader.addedNodes_requestOps]
  simp only [Reader.keepsNode_none, List.filter_true]
  rw [keys_renumberedNodes, eraseDups_eq_self List.nodup_range]

/-- The graph read back has the nodes `0, 1, …`, each with the label of `g`'s node at that
place. -/
theorem nodes_reread (g : Graph) : g.reread.nodes = g.renumberedNodes := by
  have hnd : (g.renumberedNodes.map Prod.fst).Nodup := by
    rw [keys_renumberedNodes]
    exact List.nodup_range
  -- both are their keys, `0, 1, …`, each with the label it looks up, and the labels agree
  have hlabel : ∀ x, g.reread.nodes.lookup x = g.renumberedNodes.lookup x := fun x => by
    have hx := Reader.label?_requestOps g.directed none g.renumberedNodes g.written x
    simp only [Reader.keepsNode_none, List.filter_true] at hx
    exact hx
  rw [eq_map_lookup (built_reread g).nodup_ids, ids_reread]
  conv_rhs => rw [eq_map_lookup hnd, keys_renumberedNodes]
  simp only [hlabel]

namespace Writable

variable {g : Graph} {names : LabelTable}

/-- A writable graph has at most one node more than the largest id the numerals fit. -/
theorem length_le (hw : g.Writable names) : g.nodes.length ≤ Numeral.u32Max + 1 := by
  obtain ⟨ops, hb⟩ := hw.built
  have hsub : g.nodes.map Prod.fst ⊆ List.range (Numeral.u32Max + 1) := fun x hx => by
    obtain ⟨p, hp, rfl⟩ := List.mem_map.1 hx
    exact List.mem_range.2 (Nat.lt_succ_of_le (hw.node_named p hp).1)
  simpa using (List.subperm_of_subset hb.nodup_ids hsub).length_le

/-- A written edge joins two different numbered nodes at a time in range, with a label the table
names by a name that reads back. -/
theorem of_mem_written (hw : g.Writable names) {w : Edge} (hwm : w ∈ g.written) :
    w.source < g.nodes.length ∧ w.dest < g.nodes.length ∧ w.source ≠ w.dest ∧
      Stamp.InRange w.time ∧ Reader.EdgeNamed w names ∧ (g.directed = true ∨ w.source < w.dest) := by
  obtain ⟨ops, hb⟩ := hw.built
  obtain ⟨hdir, k, e, -, he, het, hel, x, y, hx, hy, hlink⟩ := (mem_written hb hb.nodup_ids).1 hwm
  have hmem : e ∈ g.edges.toList := List.mem_of_getElem? (by rwa [Array.getElem?_toList])
  obtain ⟨-, -, hloop, hrange⟩ := hw.edge_joins e hmem
  obtain ⟨hlb, s, hs, hl⟩ := hw.edge_named e hmem
  have hxs : w.source < g.nodes.length := by simpa using (List.getElem?_eq_some_iff.1 hx).1
  have hyd : w.dest < g.nodes.length := by simpa using (List.getElem?_eq_some_iff.1 hy).1
  -- the link joins the two ends of the edge, which differ
  have hxy : x ≠ y := by
    rintro rfl
    unfold Graph.forward at hlink
    split at hlink <;> simp at hlink <;> omega
  refine ⟨hxs, hyd, fun h => hxy ?_, het ▸ hrange, ⟨hel ▸ hlb, s, hs, hel ▸ hl⟩, hdir⟩
  rw [h] at hx
  exact Option.some.inj (hx.symm.trans hy)

theorem nodeRequest_nodeLine (hw : g.Writable names) {y : (Nat × Nat) × Nat}
    (hy : y ∈ g.nodes.zipIdx) (k : Nat) :
    Reader.nodeRequest names (k, (s!"{y.2}\t{names.nodeName y.1.2}").toList) =
      .ok ([(y.2, y.1.2)], names) := by
  obtain ⟨⟨x, l⟩, i⟩ := y
  have hi := List.mem_zipIdx_iff_getElem?.1 hy
  obtain ⟨hid, hlb, s, hs, hl⟩ := hw.node_named (x, l) (List.mem_of_getElem? hi)
  have hlt : i < g.nodes.length := (List.getElem?_eq_some_iff.1 hi).1
  rw [LabelTable.nodeName_of_idxOf? hl]
  exact Reader.nodeRequest_line names (by have := hw.length_le; omega) hs hl hlb k

theorem edgeRequests_writtenLine (hw : g.Writable names) {w : Edge} (hwm : w ∈ g.written)
    (k : Nat) : Reader.edgeRequests names (k, (w.line names).toList) = .ok ([w], names) := by
  obtain ⟨hs, hd, hne, ht, hnamed, -⟩ := hw.of_mem_written hwm
  have hlen := hw.length_le
  exact Reader.edgeRequests_line names (by omega) (by omega) hne ht hnamed k

/-- Every line of the text form of a writable graph reads back as a line. -/
theorem isLine_render (hw : g.Writable names) :
    ∀ l ∈ toString g.nodes.length ::
      (g.nodes.zipIdx.map fun ((_, l), i) => s!"{i}\t{names.nodeName l}") ++
        g.written.map (·.line names), Reader.IsLine l.toList := by
  intro l hl
  simp only [List.cons_append, List.mem_cons, List.mem_append, List.mem_map] at hl
  rcases hl with rfl | ⟨⟨⟨x, lab⟩, i⟩, hy, rfl⟩ | ⟨w, hwm, rfl⟩
  · exact Reader.isLine_toString _
  · obtain ⟨-, -, s, hs, hlab⟩ := hw.node_named (x, lab)
      (List.mem_of_getElem? (List.mem_zipIdx_iff_getElem?.1 hy))
    dsimp only
    rw [LabelTable.nodeName_of_idxOf? hlab]
    exact Reader.isLine_node i hs
  · obtain ⟨-, -, -, -, ⟨-, s, hs, hlab⟩, -⟩ := hw.of_mem_written hwm
    exact Reader.isLine_edge names w hs (LabelTable.edgeName_of_idxOf? hlab)

/-- The text form of a writable graph, read with the table it was written with, asks for its
nodes numbered in order and for its written edges, and leaves the table as it is. -/
theorem readTrace_render (hw : g.Writable names) :
    Graph.readTrace names (g.render names) = .ok (g.renumberedNodes, g.written, names) := by
  have hnum := Reader.numbered_join hw.isLine_render
  rw [← render_eq] at hnum
  rw [List.cons_append, List.map_cons, List.zipIdx_cons, List.map_cons, List.map_append,
    List.zipIdx_append, List.map_append] at hnum
  refine readTrace_eq_ok_iff.2 ⟨_, _, _, g.nodes.length, names, hnum, ?_, by simp, ?_, ?_⟩
  · -- the count line holds the number of nodes
    rw [Blank.trim_toString_nat, Numeral.natUpTo?_toString]
    have := hw.length_le
    unfold Numeral.u32Max at this
    unfold Numeral.u64Max
    omega
  · -- then come the node lines
    rw [List.take_left' (by simp), List.map_map]
    refine (Reader.collect_numbered (fun y : (Nat × Nat) × Nat =>
        (s!"{y.2}\t{names.nodeName y.1.2}").toList) (fun y => [(y.2, y.1.2)])
      (fun y hy k => hw.nodeRequest_nodeLine hy k) 1).trans ?_
    exact congrArg (fun ps => Except.ok (ps, names)) (List.flatMap_pure_eq_map _ _)
  · -- and the edge lines
    rw [List.drop_left' (by simp), List.map_map]
    refine (Reader.collect_numbered (fun w : Edge => (w.line names).toList) (fun w => [w])
      (fun w hwm k => hw.edgeRequests_writtenLine hwm k) _).trans ?_
    rw [List.flatMap_singleton']

/-- Two written edges of one key are one edge: a key has one live edge, and a written edge is
fixed by its numbers, its time and the label of the live edge it comes from. -/
theorem eq_of_sameKey_written (hw : g.Writable names) {w w' : Edge} (hwm : w ∈ g.written)
    (hwm' : w' ∈ g.written) (hkey : w'.SameKey g.directed w) : w' = w := by
  obtain ⟨ops, hb⟩ := hw.built
  obtain ⟨hdir, k, e, hlive, he, het, hel, x, y, hx, hy, hlink⟩ :=
    (mem_written hb hb.nodup_ids).1 hwm
  obtain ⟨hdir', k', e', hlive', he', het', hel', x', y', hx', hy', hlink'⟩ :=
    (mem_written hb hb.nodup_ids).1 hwm'
  obtain ⟨ht, hends⟩ := hkey
  -- written from the smaller number when undirected, the two have their numbers in one order
  have hsd : w'.source = w.source ∧ w'.dest = w.dest := by
    rcases hends with h | ⟨hd, h1, h2⟩
    · exact h
    · rw [hd] at hdir hdir'
      simp only [Bool.false_eq_true, false_or] at hdir hdir'
      omega
  rw [hsd.1, hx] at hx'
  rw [hsd.2, hy] at hy'
  cases hx'
  cases hy'
  -- the two live edges make one link at one time, so each has the other's key
  have hk : e'.SameKey g.directed e :=
    (Edge.sameKey_iff hb.forward_serves hlink e').1 ⟨by rw [het', het, ht], hlink'⟩
  have hk' : e.SameKey g.directed e' :=
    (Edge.sameKey_iff hb.forward_serves hlink' e).1 ⟨by rw [het', het, ht], hlink⟩
  have hkk : k = k' := by
    obtain ⟨e₀, he₀, hlater⟩ := hlive
    obtain ⟨e₀', he₀', hlater'⟩ := hlive'
    rw [Array.getElem?_toList, he] at he₀
    rw [Array.getElem?_toList, he'] at he₀'
    cases he₀
    cases he₀'
    rcases Nat.lt_trichotomy k k' with h | h | h
    · exact absurd hk (hlater k' h e' (by rwa [Array.getElem?_toList]))
    · exact h
    · exact absurd hk' (hlater' k h e (by rwa [Array.getElem?_toList]))
  subst hkk
  rw [he] at he'
  cases he'
  have hl : w'.label = w.label := hel'.symm.trans hel
  cases w
  cases w'
  simp only [Edge.mk.injEq] at hsd ht hl ⊢
  exact ⟨hsd.1, hsd.2, ht, hl⟩

/-- No written edge has a later one of its key. -/
theorem isLive_written (hw : g.Writable names) {k : Nat} (hk : k < g.written.length) :
    IsLive g.directed g.written k := by
  obtain ⟨ops, hb⟩ := hw.built
  have hnd : g.written.Nodup := (pairwise_written hb).imp Edge.WrittenBefore.ne
  refine ⟨g.written[k], List.getElem?_eq_getElem hk, fun j hj f hf hkey => ?_⟩
  obtain ⟨hjlt, rfl⟩ := List.getElem?_eq_some_iff.1 hf
  have heq := hw.eq_of_sameKey_written (List.getElem_mem hk) (List.getElem_mem hjlt) hkey
  have := (hnd.getElem_inj_iff).1 heq
  omega

theorem load_render (hw : g.Writable names) :
    Graph.load names (g.render names) none g.directed = .ok (g.reread, names) :=
  load_eq_ok_iff.2 ⟨_, _, hw.readTrace_render, rfl⟩

theorem edges_reread (hw : g.Writable names) : g.reread.edges.toList = g.written := by
  rw [reread, Reader.edges_requestOps]
  simp only [Reader.keepsNode_none, Reader.keepsEdge_none, List.filter_true, keys_renumberedNodes,
    Bool.true_and]
  refine List.filter_eq_self.2 fun w hwm => ?_
  obtain ⟨hs, hd, -⟩ := hw.of_mem_written hwm
  simp [hs, hd]

/-- Read back, the text form writes the same edges. -/
theorem written_reread (hw : g.Writable names) : g.reread.written = g.written := by
  obtain ⟨ops, hb⟩ := hw.built
  have hb' := built_reread g
  have hedges := edges_reread hw
  -- every edge read back joins two different numbered nodes
  have hends : ∀ e ∈ g.reread.edges.toList, e.source ∈ g.reread.nodes.map Prod.fst ∧
      e.dest ∈ g.reread.nodes.map Prod.fst ∧ e.source ≠ e.dest := by
    rw [hedges, ids_reread]
    intro e he
    obtain ⟨hs, hd, hne, -⟩ := hw.of_mem_written he
    exact ⟨List.mem_range.2 hs, List.mem_range.2 hd, hne⟩
  -- no edge read back is shadowed
  have hunsh : g.reread.unshadowedEdges = g.written := by
    rw [unshadowedEdges_eq_of_isLiveEdge hb' fun k hk => ?_, hedges]
    rw [hb'.isLiveEdge_iff, ← hb'.edges_eq, hedges]
    exact hw.isLive_written (by rwa [← hedges, Array.length_toList])
  -- renumbering by `0, 1, …` keeps a written edge
  have hrenum : g.written.map (g.reread.renumber (List.range g.nodes.length)) = g.written := by
    conv_rhs => rw [← List.map_id g.written]
    refine List.map_congr_left fun w hwm => ?_
    obtain ⟨hs, hd, -, -, -, hdir⟩ := hw.of_mem_written hwm
    have hkeep : (g.reread.directed || decide (w.source < w.dest)) = true := by
      rw [hb'.directed_eq]
      simpa using hdir
    simp only [renumber, idxOf_range hs, idxOf_range hd, hkeep, if_true, id]
  have hperm := written_perm hb' hb'.nodup_ids hends
  rw [hunsh, ids_reread, hrenum] at hperm
  exact Edge.eq_of_pairwise_writtenBefore (pairwise_written hb') (pairwise_written hb)
    fun _ => hperm.mem_iff

/-- Read back, the text form writes the same text. -/
theorem render_reread (hw : g.Writable names) : g.reread.render names = g.render names := by
  -- node `i` of the renumbered list is node `i` of `g` under the number `i`
  have hlines : (g.renumberedNodes.zipIdx.map fun ((_, l), i) => s!"{i}\t{names.nodeName l}") =
      g.nodes.zipIdx.map fun ((_, l), i) => s!"{i}\t{names.nodeName l}" := by
    refine List.ext_getElem (by simp [renumberedNodes]) fun m h₁ h₂ => ?_
    simp [renumberedNodes, List.getElem_zipIdx]
  rw [render_eq, render_eq, written_reread hw, nodes_reread, hlines, renumberedNodes,
    List.length_map, List.length_zipIdx]

end Writable

/-- Reading a text without a pattern, writing the graph read with the table the reading leaves,
and reading that text with the same table leaves the table as it is and gives a graph that
writes the same text: its nodes are `0, 1, …` with the labels of the first graph's nodes in
insertion order, and its edges are the first graph's unshadowed edges with their ends renumbered
by place, the smaller number first when undirected, each once. -/
theorem load_render_round_trip {labels labels' : LabelTable} {text : String} {directed : Bool}
    {g : Graph} (h : Graph.load labels text none directed = .ok (g, labels')) :
    ∃ g', Graph.load labels' (g.render labels') none directed = .ok (g', labels') ∧
      g'.render labels' = g.render labels' ∧
      g'.nodes = g.nodes.zipIdx.map (fun ((_, l), i) => (i, l)) ∧
      g'.edges.toList.Perm (g.unshadowedEdges.map (g.renumber (g.nodes.map Prod.fst))) := by
  have hw := writable_of_load h
  obtain ⟨ops, hb⟩ := hw.built
  have hdir : g.directed = directed := by
    obtain ⟨nodes, edges, -, rfl⟩ := load_eq_ok_iff.1 h
    exact (built_ofOps directed _).directed_eq
  have hends : ∀ e ∈ g.edges.toList, e.source ∈ g.nodes.map Prod.fst ∧
      e.dest ∈ g.nodes.map Prod.fst ∧ e.source ≠ e.dest := fun e he => by
    obtain ⟨hs, hd, hne, -⟩ := hw.edge_joins e he
    exact ⟨(containsNode_iff g _).1 hs, (containsNode_iff g _).1 hd, hne⟩
  refine ⟨g.reread, hdir ▸ hw.load_render, hw.render_reread, nodes_reread g, ?_⟩
  rw [hw.edges_reread]
  exact written_perm hb hb.nodup_ids hends

/-- An undirected text with a repeated node id, an empty label name, names holding a colon and a
blank, and an edge shadowed by a later one of its key reads back from its text form. -/
theorem load_render_round_trip_of_shadowed :
    ∃ g labels', Graph.load {} "4\n7\tA b\n3\t\n7\tC\n5\tA b\n7\t3\t2:x:y, 1:z\n3\t7\t2:w\n5\t7\t4:x:y\n"
        none false = .ok (g, labels') ∧
      ∃ g', Graph.load labels' (g.render labels') none false = .ok (g', labels') ∧
        g'.render labels' = g.render labels' ∧
        g'.nodes = g.nodes.zipIdx.map (fun ((_, l), i) => (i, l)) ∧
        g'.edges.toList.Perm (g.unshadowedEdges.map (g.renumber (g.nodes.map Prod.fst))) := by
  have hok : (Graph.load {} "4\n7\tA b\n3\t\n7\tC\n5\tA b\n7\t3\t2:x:y, 1:z\n3\t7\t2:w\n5\t7\t4:x:y\n"
      none false).toOption.isSome = true := by decide +kernel
  cases hr : Graph.load {} "4\n7\tA b\n3\t\n7\tC\n5\tA b\n7\t3\t2:x:y, 1:z\n3\t7\t2:w\n5\t7\t4:x:y\n"
      none false with
  | error e =>
    rw [hr] at hok
    cases hok
  | ok r => exact ⟨r.1, r.2, rfl, load_render_round_trip hr⟩

end Graph

end TemporalMotif
