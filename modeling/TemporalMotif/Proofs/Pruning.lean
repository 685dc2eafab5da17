import TemporalMotif.Proofs.Matching
import TemporalMotif.Proofs.Reading
import TemporalMotif.Proofs.Restriction

/-! # Reading a target with the query as its pattern

The target is read with the query's labels as a filter: node lines and edge stamps of other
labels are dropped before they reach `addNode`/`addEdge`. Dropping is done line by line, so it
interacts with the two ways a graph forgets: a node keeps its first label, and a later edge with
the same key shadows an earlier one. An edge of a foreign label that would have shadowed an edge
of the query's label is dropped, and the query's edge comes back: the filter can add
occurrences (`pruned_target_count_differs`).

Main statement: where neither of these happens, the graph read with the pattern is a clean
pruning of the graph read whole (`pruned_requestOps`), and the two readings count the same
(`pruning_keeps_count`). -/

namespace TemporalMotif

/-- The number of occurrences of the query text `q` in the target text `t`, read one after the
other with one label table, the target with the query as its pattern when `prune` holds; none when
the match itself is refused. -/
def Graph.textCount (q t : String) (directed : Bool) (span : MaxSpan) (prune : Bool) :
    Except LoadError (Option Nat) := do
  let (qg, tb) ← Graph.load {} q none directed
  let (tg, _) ← Graph.load tb t (if prune then some qg else none) directed
  pure ((matchGraphs qg tg directed span false).toOption.map MatchRun.count)

/-- The first entry for `x` among the entries that `p` keeps is its first entry, when no entry
for `x` that `p` keeps comes after one that it drops. -/
theorem lookup_filter_eq_some_iff {p : Nat → Bool} {x l : Nat} :
    ∀ {N : List (Nat × Nat)},
      (∀ l₁ l₂, (x, l₁) ∈ N → p l₁ = true → N.lookup x = some l₂ → p l₂ = true) →
      ((N.filter fun y => p y.2).lookup x = some l ↔ N.lookup x = some l ∧ p l = true)
  | [], _ => by simp
  | (y, m) :: N, h => by
    have ih := @lookup_filter_eq_some_iff p x l N
    by_cases hxy : x = y
    · subst hxy
      by_cases hm : p m = true
      · simp only [List.filter_cons, hm, if_true, lookup_cons_ite, if_true, Option.some.injEq]
        exact ⟨fun h => ⟨h, h ▸ hm⟩, And.left⟩
      · -- the first entry is dropped, so no kept entry may follow it
        rw [List.filter_cons_of_neg (by simpa using hm), lookup_cons_ite, if_pos rfl]
        constructor
        · intro hl
          obtain ⟨hmem, hpl⟩ := List.mem_filter.1 (mem_of_lookup hl)
          exact absurd (h l m (List.mem_cons_of_mem _ hmem) hpl (by rw [lookup_cons_ite, if_pos rfl]))
            hm
        · rintro ⟨hml, hpl⟩
          cases hml
          exact absurd hpl hm
    · have htail : ∀ l₁ l₂, (x, l₁) ∈ N → p l₁ = true → N.lookup x = some l₂ → p l₂ = true :=
        fun l₁ l₂ hmem hp hl => h l₁ l₂ (List.mem_cons_of_mem _ hmem) hp
          (by rwa [lookup_cons_ite, if_neg hxy])
      rw [List.filter_cons, lookup_cons_ite, if_neg hxy]
      split
      · rw [lookup_cons_ite, if_neg hxy]
        exact ih htail
      · exact ih htail

theorem Graph.mem_nodeLabels {g : Graph} {x l : Nat} (h : g.label? x = some l) :
    l ∈ g.nodeLabels := by
  rw [nodeLabels, List.mem_eraseDups]
  exact List.mem_map_of_mem (f := Prod.snd) (mem_of_lookup h)

theorem Graph.mem_edgeLabels {g : Graph} {e : Edge} (h : e ∈ g.edges.toList) :
    e.label ∈ g.edgeLabels := by
  rw [edgeLabels, List.mem_eraseDups]
  exact List.mem_map_of_mem h

/-- Reading the requests with the query `qg` as pattern prunes the whole reading cleanly when no
node id has a line of a query label after a first line of another label, and no stamp of a label
the query lacks has the key of an earlier stamp of a label it has. -/
theorem pruned_requestOps {directed : Bool} {qg : Graph} {nodes : List (Nat × Nat)}
    {edges : List Edge}
    (hnodes : ∀ y ∈ nodes, y.2 ∈ qg.nodeLabels → ∀ l ∈ nodes.lookup y.1, l ∈ qg.nodeLabels)
    (hedges : edges.Pairwise fun e f =>
      f.SameKey directed e → e.label ∈ qg.edgeLabels → f.label ∈ qg.edgeLabels) :
    (Graph.ofOps directed (Reader.requestOps (some qg) nodes edges)).Pruned
      (Graph.ofOps directed (Reader.requestOps none nodes edges))
      (Reader.keepsNode (some qg)) (Reader.keepsEdge (some qg)) where
  directed_eq := by rw [(built_ofOps _ _).directed_eq, (built_ofOps _ _).directed_eq]
  label_iff x l := by
    rw [Reader.label?_requestOps, Reader.label?_requestOps]
    simp only [Reader.keepsNode_none, List.filter_true]
    refine lookup_filter_eq_some_iff fun l₁ l₂ hmem hl₁ hl₂ => ?_
    exact List.contains_iff_mem.2 (hnodes (x, l₁) hmem (List.contains_iff_mem.1 hl₁) l₂ hl₂)
  edges_eq := by
    rw [Reader.edges_requestOps, Reader.edges_requestOps, List.filter_filter]
    refine List.filter_congr fun e _ => ?_
    -- a kept end is a node of the whole reading too
    have hsub : ∀ x, x ∈ (nodes.filter fun y => Reader.keepsNode (some qg) y.2).map Prod.fst →
        x ∈ nodes.map Prod.fst := fun x hx => (List.filter_sublist.map Prod.fst).subset hx
    simp only [Graph.keepsEdge, Reader.containsNode_requestOps, Reader.keepsNode_none,
      Reader.keepsEdge_none, List.filter_true, Bool.true_and]
    cases hc : (Reader.keepsEdge (some qg) e.label &&
        decide (e.source ∈ (nodes.filter fun y => Reader.keepsNode (some qg) y.2).map Prod.fst) &&
        decide (e.dest ∈ (nodes.filter fun y => Reader.keepsNode (some qg) y.2).map Prod.fst))
    · rfl
    · simp only [Bool.and_eq_true, decide_eq_true_eq] at hc
      simp [hsub _ hc.1.2, hsub _ hc.2]
  unshadowed := by
    rw [Reader.edges_requestOps, (built_ofOps _ _).directed_eq]
    refine (hedges.sublist List.filter_sublist).imp fun h hkey hl => ?_
    exact List.contains_iff_mem.2 (h hkey (List.contains_iff_mem.1 hl))

/-- Reading the target with the query as pattern counts what reading it whole counts, when the
pruning is clean: no node id of the target has a line of a query label after a first line of
another label, and no stamp of a label the query lacks has the key of an earlier stamp of a label
it has. -/
theorem pruning_keeps_count {q t : String} {directed : Bool} {span : MaxSpan}
    (hspan : ∀ v, span = .within v → Stamp.InRange v) {qg : Graph} {tb : LabelTable}
    (hq : Graph.load {} q none directed = .ok (qg, tb)) {nodes : List (Nat × Nat)}
    {edges : List Edge} {tb' : LabelTable} (ht : Graph.readTrace tb t = .ok (nodes, edges, tb'))
    (hnodes : ∀ y ∈ nodes, y.2 ∈ qg.nodeLabels → ∀ l ∈ nodes.lookup y.1, l ∈ qg.nodeLabels)
    (hedges : edges.Pairwise fun e f =>
      f.SameKey directed e → e.label ∈ qg.edgeLabels → f.label ∈ qg.edgeLabels) :
    Graph.textCount q t directed span true = Graph.textCount q t directed span false := by
  obtain ⟨qn, qe, -, hqg⟩ := load_eq_ok_iff.1 hq
  have hQ : Built qg directed (Reader.requestOps none qn qe) := hqg ▸ built_ofOps _ _
  have hpruned : Graph.load tb t (some qg) directed =
      .ok (Graph.ofOps directed (Reader.requestOps (some qg) nodes edges), tb') :=
    load_eq_ok_iff.2 ⟨nodes, edges, ht, rfl⟩
  have hwhole : Graph.load tb t none directed =
      .ok (Graph.ofOps directed (Reader.requestOps none nodes edges), tb') :=
    load_eq_ok_iff.2 ⟨nodes, edges, ht, rfl⟩
  simp only [Graph.textCount, hq, hpruned, hwhole, if_true, Bool.false_eq_true, if_false, bind,
    Except.bind, pure, Except.pure, Except.ok.injEq]
  -- the query's edges join two distinct nodes, as every graph read from text does
  have hends : ∀ e ∈ qg.edges.toList, qg.containsNode e.source = true ∧ qg.containsNode e.dest = true :=
    fun e he => ⟨(Graph.edge_of_load hq e he).1, (Graph.edge_of_load hq e he).2.1⟩
  have hloop : ∀ e ∈ qg.edges.toList, e.source ≠ e.dest := fun e he => (Graph.edge_of_load hq e he).2.2.1
  have hTp := built_ofOps directed (Reader.requestOps (some qg) nodes edges)
  have hTf := built_ofOps directed (Reader.requestOps none nodes edges)
  by_cases hconn : qg.Connected ∧ 0 < qg.edges.size
  · -- both matches count the occurrences, and clean pruning keeps them
    obtain ⟨rp, hrp, hcp, hndp, hmemp⟩ := matchGraphs_occurrences_of_built hQ hTp hends hloop
      hconn.1 hconn.2 (fun e he => (Graph.edge_of_load hpruned e he).2.2.2) hspan
    obtain ⟨rf, hrf, hcf, hndf, hmemf⟩ := matchGraphs_occurrences_of_built hQ hTf hends hloop
      hconn.1 hconn.2 (fun e he => (Graph.edge_of_load hwhole e he).2.2.2) hspan
    rw [hrp, hrf]
    simp only [Except.toOption, Option.map_some, Option.some.injEq]
    rw [hcp, hcf, ← ncard_setOf_eq_length hndp hmemp, ← ncard_setOf_eq_length hndf hmemf]
    exact ((pruned_requestOps hnodes hedges).ncard_occurrences
      (fun x l hl => List.contains_iff_mem.2 (Graph.mem_nodeLabels hl))
      (fun e he => List.contains_iff_mem.2 (Graph.mem_edgeLabels he)) hQ.nodup_ids hends).symm
  · -- neither match has a plan
    rw [matchGraphs_of_not_connected hQ hTp hconn, matchGraphs_of_not_connected hQ hTf hconn]

/-- A target with a node and a stamp of labels the query lacks, neither of which takes a line's
place: the node is dropped with the edge that reaches it, the stamp is dropped, and the count
stays. -/
theorem pruning_keeps_count_of_foreign_labels :
    Graph.textCount "2\n0\tA\n1\tA\n0\t1\t5:X\n"
        "3\n0\tA\n1\tA\n2\tB\n0\t1\t5:X,6:Y\n1\t2\t7:X\n" true .unbounded true =
      Graph.textCount "2\n0\tA\n1\tA\n0\t1\t5:X\n"
        "3\n0\tA\n1\tA\n2\tB\n0\t1\t5:X,6:Y\n1\t2\t7:X\n" true .unbounded false :=
  pruning_keeps_count (fun _ h => nomatch h) (Except.eq_ok_get (by decide +kernel))
    (Except.eq_ok_get (by decide +kernel)) (by decide +kernel) (by decide +kernel)

/-- A query with one edge `0 → 1` at time 5 labelled `X`, and a target whose only edge line holds
that edge followed by one of label `Y` with the same key. Read whole, the target's `Y` edge shadows
its `X` edge and nothing matches; read with the query as pattern, the `Y` edge is dropped and the
`X` edge matches once. -/
theorem pruned_target_count_differs :
    (Graph.textCount "2\n0\tA\n1\tA\n0\t1\t5:X\n" "2\n0\tA\n1\tA\n0\t1\t5:X,5:Y\n" true .unbounded
      true).toOption = some (some 1) ∧
    (Graph.textCount "2\n0\tA\n1\tA\n0\t1\t5:X\n" "2\n0\tA\n1\tA\n0\t1\t5:X,5:Y\n" true .unbounded
      false).toOption = some (some 0) :=
  ⟨by decide +kernel, by decide +kernel⟩

end TemporalMotif
