import Mathlib.Data.Set.Card
import TemporalMotif.Match.Matcher
import TemporalMotif.Proofs.Backtracking
import TemporalMotif.Proofs.Correspondence

/-!
# What a match returns

A match plans the search and runs it over the roots of node state 0's domain. For a connected
query with an edge, built by `addNode`/`addEdge` calls with every edge joining two distinct added
nodes, matched in a target whose timestamps are in range, an uncancelled match lists every
occurrence once and counts them (`matchGraphs_lists_occurrences`). Such a query lacks a plan only under a
negative maximum span, which no occurrence keeps, and a plan with an empty domain has no
occurrence either. A query that is not connected, or has no edge, has no matching order, so its
match finds nothing (`matchGraphs_of_not_connected`) although occurrences may exist
(`isolated_query_node_not_counted`).
-/

namespace TemporalMotif

theorem ncard_setOf_eq_length {α : Type} [DecidableEq α] {L : List α} {P : α → Prop}
    (hnd : L.Nodup) (hmem : ∀ a, a ∈ L ↔ P a) : {a | P a}.ncard = L.length := by
  have hset : {a | P a} = (L.toFinset : Set α) := by
    ext a
    simp only [Set.mem_ofPred_eq, Finset.mem_coe, List.mem_toFinset, hmem]
  rw [hset, Set.ncard_coe_finset, List.toFinset_card_of_nodup hnd]

theorem Domains.size_build (q target : Graph) (pos : Positions) (span : MaxSpan) :
    (Domains.build q target pos span).size = pos.size := by
  simp [Domains.build, Domains.signatures]

namespace IsOccurrence

variable {q t : Graph} {directed : Bool} {qops tops : List GraphOp} {span : MaxSpan}
  {m : Embedding}

/-- A query with an edge has no occurrence within a negative span. -/
theorem nonneg_of_within {v : Int} (hocc : IsOccurrence q t (.within v) m) {i : Nat}
    (hi : q.IsLiveEdge i) : 0 ≤ v := by
  have hle := hocc.sub_timeOf_le rfl hi hi
  simpa using hle

/-- Where a query has an occurrence, no domain is empty. -/
theorem not_anyEmpty (hq : Built q directed qops) (ht : Built t directed tops)
    (hends : ∀ e ∈ q.edges.toList, q.containsNode e.source = true ∧ q.containsNode e.dest = true)
    (hstamps : ∀ e ∈ t.edges.toList, Stamp.InRange e.time) (hocc : IsOccurrence q t span m) :
    (Domains.build q t (Positions.ofGraph q) span).anyEmpty = false := by
  rw [Bool.eq_false_iff]
  intro hany
  obtain ⟨p, hp, hempty⟩ := Array.any_eq_true.1 hany
  have hmem := hocc.node_mem_domain hq ht hends hstamps (p := p)
    (by rwa [Domains.size_build] at hp)
  rw [Array.getD_eq_getD_getElem?, Array.getElem?_eq_getElem hp, Option.getD_some,
    List.isEmpty_iff.1 hempty] at hmem
  exact List.not_mem_nil hmem

end IsOccurrence

namespace MatchPlan

variable {q t : Graph} {directed : Bool} {qops tops : List GraphOp} {span : MaxSpan}
  {p : MatchPlan}

theorem build_eq_some (h : build q t span = some p) :
    ∃ order, MatchingOrder.build q (Positions.ofGraph q)
        (Domains.build q t (Positions.ofGraph q) span).sizes = some order ∧
      p = ⟨Positions.ofGraph q, Domains.build q t (Positions.ofGraph q) span, order,
        TimeBound.table (order.edges.map fun oe => q.timeOf oe.edge)⟩ := by
  unfold build at h
  split at h
  · cases h
  obtain ⟨order, horder, rfl⟩ := Option.map_eq_some_iff.1 h
  exact ⟨order, horder, rfl⟩

theorem ofSpan?_eq_some (h : ofSpan? q t span = some p) :
    build q t span = some p ∧ ∀ v, span = .within v → 0 ≤ v := by
  cases span with
  | unbounded => exact ⟨h, fun v hv => nomatch hv⟩
  | within w =>
    by_cases hw : w < 0
    · simp [ofSpan?, hw] at h
    · simp only [ofSpan?, hw, if_false] at h
      refine ⟨h, fun v hv => ?_⟩
      cases hv
      omega

/-- A connected query with an edge, whose edges join two distinct declared nodes, has a plan
under every maximum span that is not negative. -/
theorem isSome_ofSpan? (hq : Built q directed qops)
    (hends : ∀ e ∈ q.edges.toList, q.containsNode e.source = true ∧ q.containsNode e.dest = true)
    (hloop : ∀ e ∈ q.edges.toList, e.source ≠ e.dest) (hconn : q.Connected)
    (hedge : 0 < q.edges.size) (hv : ∀ v, span = .within v → 0 ≤ v) :
    (ofSpan? q t span).isSome := by
  have hbuild : (build q t span).isSome := by
    unfold build
    rw [if_neg (by omega), Option.isSome_map]
    exact MatchingOrder.build_isSome hq hends hloop hconn hedge _
  cases span with
  | unbounded => exact hbuild
  | within w =>
    have hw : ¬ w < 0 := Int.not_lt.2 (hv w rfl)
    simpa only [ofSpan?, hw, if_false] using hbuild

/-- Only a connected query with an edge has a plan. -/
theorem connected_of_ofSpan? (hq : Built q directed qops) (h : ofSpan? q t span = some p) :
    q.Connected ∧ 0 < q.edges.size := by
  have hbuild := (ofSpan?_eq_some h).1
  obtain ⟨order, horder, -⟩ := build_eq_some hbuild
  refine ⟨MatchingOrder.connected_of_build hq horder, ?_⟩
  unfold build at hbuild
  split at hbuild
  · cases hbuild
  · omega

/-- The search space of a match's plan is set up as `SearchSpace.FromPlan` says. -/
theorem fromPlan_space (hq : Built q directed qops) (ht : Built t directed tops)
    (hends : ∀ e ∈ q.edges.toList, q.containsNode e.source = true ∧ q.containsNode e.dest = true)
    (hloop : ∀ e ∈ q.edges.toList, e.source ≠ e.dest)
    (hstamps : ∀ e ∈ t.edges.toList, Stamp.InRange e.time)
    (hspan : ∀ v, span = .within v → Stamp.InRange v) (h : ofSpan? q t span = some p) :
    (p.space q t span).FromPlan qops tops := by
  obtain ⟨hbuild, hnonneg⟩ := ofSpan?_eq_some h
  obtain ⟨order, horder, rfl⟩ := build_eq_some hbuild
  obtain ⟨hnd, hmem, -, hedges, hne⟩ := MatchingOrder.build_spec hq.nodup_ids horder
  have ht' : Built t t.directed tops := by rw [ht.directed_eq]; exact ht
  have hq' : Built q t.directed qops := by rw [ht.directed_eq]; exact hq
  exact ⟨⟨ht', hstamps, MatchingOrder.build_chain hq horder, rfl,
    fun v hv => ⟨hnonneg v hv, hspan v hv⟩⟩, hq', hends, hloop, hnd, hmem, hedges, hne, rfl⟩

theorem mem_roots_iff (p : MatchPlan) (v : Nat) :
    v ∈ p.roots ↔ p.domains.allows (p.order.nodeAt 0) v = true := by
  rw [roots, Domains.allows, List.contains_iff_mem]

theorem nodup_roots (ht : Built t directed tops) (h : ofSpan? q t span = some p) :
    p.roots.Nodup := by
  obtain ⟨order, -, rfl⟩ := build_eq_some (ofSpan?_eq_some h).1
  exact Domains.nodup_build _ _ _ _ _ ht.nodup_ids

end MatchPlan

/-- Over built graphs, an uncancelled match of a connected query with an edge, whose edges each
join two distinct declared nodes, lists every occurrence once and counts what it lists. -/
theorem matchGraphs_occurrences_of_built {q t : Graph} {directed : Bool}
    {qops tops : List GraphOp} {span : MaxSpan} (hq : Built q directed qops)
    (ht : Built t directed tops)
    (hends : ∀ e ∈ q.edges.toList, q.containsNode e.source = true ∧ q.containsNode e.dest = true)
    (hloop : ∀ e ∈ q.edges.toList, e.source ≠ e.dest) (hconn : q.Connected)
    (hedge : 0 < q.edges.size) (hstamps : ∀ e ∈ t.edges.toList, Stamp.InRange e.time)
    (hspan : ∀ v, span = .within v → Stamp.InRange v) :
    ∃ r, matchGraphs q t directed span false = .ok r ∧
      r.count = (r.occurrences.map Occurrence.embedding).length ∧
      (r.occurrences.map Occurrence.embedding).Nodup ∧
      ∀ m, m ∈ r.occurrences.map Occurrence.embedding ↔ IsOccurrence q t span m := by
  have hlive := q.isLiveEdge_last hedge
  simp only [matchGraphs, hq.directed_eq, ht.directed_eq, bne_self_eq_false, Bool.false_eq_true,
    if_false]
  cases hplan : MatchPlan.ofSpan? q t span with
  | none =>
    -- no plan: the span is negative, and no occurrence keeps within it
    have hneg : ¬ ∀ v, span = .within v → 0 ≤ v := fun hv => by
      have hsome := MatchPlan.isSome_ofSpan? (t := t) hq hends hloop hconn hedge hv
      rw [hplan] at hsome
      cases hsome
    refine ⟨_, rfl, rfl, List.nodup_nil, fun m => ⟨fun h => (nomatch h), fun hocc => ?_⟩⟩
    exact (hneg fun v hv => by subst hv; exact hocc.nonneg_of_within hlive).elim
  | some p =>
    dsimp only
    obtain ⟨order, -, hp⟩ := MatchPlan.build_eq_some (MatchPlan.ofSpan?_eq_some hplan).1
    by_cases hempty : p.domains.anyEmpty = true
    · -- an empty domain: no occurrence, since each has its nodes in the domains
      rw [if_pos hempty]
      refine ⟨_, rfl, rfl, List.nodup_nil, fun m => ⟨fun h => (nomatch h), fun hocc => ?_⟩⟩
      subst hp
      exact absurd hempty (by rw [Bool.not_eq_true]; exact hocc.not_anyEmpty hq ht hends hstamps)
    · -- the search over the roots lists every occurrence once
      rw [if_neg hempty]
      have hf := MatchPlan.fromPlan_space hq ht hends hloop hstamps hspan hplan
      simp only [SearchSpace.run_uncancelled hf.planned.chain.joins]
      have hpos : p.positions = Positions.ofGraph q := by rw [hp]
      refine ⟨_, rfl, by simp [MatchRun.count, MatchRun.occurrences], ?_, fun m => ?_⟩
      · simp only [MatchRun.occurrences, List.map_map, hpos]
        exact SearchSpace.nodup_search_embedding hf (MatchPlan.nodup_roots ht hplan)
          (MatchPlan.mem_roots_iff p)
      · simp only [MatchRun.occurrences, List.map_map, hpos]
        exact SearchSpace.mem_search_embedding_iff hf (MatchPlan.mem_roots_iff p) m

/-- A query that is not connected, or has no edge, has no plan, and its match finds nothing. -/
theorem matchGraphs_of_not_connected {q t : Graph} {directed : Bool} {qops tops : List GraphOp}
    {span : MaxSpan} (hq : Built q directed qops) (ht : Built t directed tops)
    (h : ¬ (q.Connected ∧ 0 < q.edges.size)) :
    matchGraphs q t directed span false = .ok ⟨none, none, [], false, 0, 0⟩ := by
  have hplan : MatchPlan.ofSpan? q t span = none := by
    cases hp : MatchPlan.ofSpan? q t span with
    | none => rfl
    | some p => exact absurd (MatchPlan.connected_of_ofSpan? hq hp) h
  simp only [matchGraphs, hq.directed_eq, ht.directed_eq, bne_self_eq_false, Bool.false_eq_true,
    if_false, hplan]

/-- An uncancelled match of a connected query with an edge, whose edges each join two distinct
added nodes, in a target whose timestamps and maximum span are in range, lists every occurrence
of the query once and counts them. A query without an edge, or one that is not connected, has no
plan, and its match finds nothing. -/
theorem matchGraphs_lists_occurrences (directed : Bool) (qops tops : List GraphOp)
    (span : MaxSpan) :
    let q := Graph.ofOps directed qops
    let t := Graph.ofOps directed tops
    (¬ (q.Connected ∧ 0 < q.edges.size) →
      matchGraphs q t directed span false = .ok ⟨none, none, [], false, 0, 0⟩) ∧
    ((∀ e ∈ q.edges.toList, q.containsNode e.source = true ∧ q.containsNode e.dest = true) →
      (∀ e ∈ q.edges.toList, e.source ≠ e.dest) → q.Connected → 0 < q.edges.size →
      (∀ e ∈ t.edges.toList, Stamp.InRange e.time) → (∀ v, span = .within v → Stamp.InRange v) →
      ∃ r, matchGraphs q t directed span false = .ok r ∧
        (r.occurrences.map Occurrence.embedding).Nodup ∧
        (∀ m, m ∈ r.occurrences.map Occurrence.embedding ↔ IsOccurrence q t span m) ∧
        r.count = {m | IsOccurrence q t span m}.ncard) := by
  intro q t
  have hq : Built q directed qops := built_ofOps directed qops
  have ht : Built t directed tops := built_ofOps directed tops
  refine ⟨matchGraphs_of_not_connected hq ht, fun hends hloop hconn hedge hstamps hspan => ?_⟩
  obtain ⟨r, hr, hcount, hnd, hmem⟩ :=
    matchGraphs_occurrences_of_built hq ht hends hloop hconn hedge hstamps hspan
  exact ⟨r, hr, hnd, hmem, hcount.trans (ncard_setOf_eq_length hnd hmem).symm⟩

/-- A query of one node matched in a target finds nothing; a one-edge query matched within
span 2 in a target with two edges of its label lists its occurrences. -/
theorem matchGraphs_lists_occurrences_of_one_edge_or_none :
    let q₀ := Graph.ofOps true [.addNode 0 7]
    let q := Graph.ofOps true [.addNode 0 7, .addNode 1 7, .addEdge 0 1 5 3]
    let t := Graph.ofOps true
      [.addNode 4 7, .addNode 2 7, .addNode 9 7, .addEdge 2 9 8 3, .addEdge 9 4 6 3]
    (¬ (q₀.Connected ∧ 0 < q₀.edges.size) ∧
      matchGraphs q₀ t true (.within 2) false = .ok ⟨none, none, [], false, 0, 0⟩) ∧
    (∀ e ∈ q.edges.toList, q.containsNode e.source = true ∧ q.containsNode e.dest = true) ∧
    (∀ e ∈ q.edges.toList, e.source ≠ e.dest) ∧ q.Connected ∧ 0 < q.edges.size ∧
    (∀ e ∈ t.edges.toList, Stamp.InRange e.time) ∧
    (∀ v, MaxSpan.within 2 = .within v → Stamp.InRange v) ∧
    ∃ r, matchGraphs q t true (.within 2) false = .ok r ∧
      (r.occurrences.map Occurrence.embedding).Nodup ∧
      (∀ m, m ∈ r.occurrences.map Occurrence.embedding ↔ IsOccurrence q t (.within 2) m) ∧
      r.count = {m | IsOccurrence q t (.within 2) m}.ncard := by
  intro q₀ q t
  have hnone : ¬ (q₀.Connected ∧ 0 < q₀.edges.size) := fun h => absurd h.2 (by decide)
  have hends : ∀ e ∈ q.edges.toList, q.containsNode e.source = true ∧ q.containsNode e.dest = true := by
    decide
  have hloop : ∀ e ∈ q.edges.toList, e.source ≠ e.dest := by decide
  have hconn : q.Connected := by
    have hids : q.nodes.map Prod.fst = [0, 1] := by decide
    have hj : q.Joined 0 1 := ⟨⟨0, 1, 5, 3⟩, by decide, .inl ⟨rfl, rfl⟩⟩
    have hj' : q.Joined 1 0 := ⟨⟨0, 1, 5, 3⟩, by decide, .inr ⟨rfl, rfl⟩⟩
    intro a ha b hb
    rw [hids, List.mem_pair] at ha hb
    rcases ha with rfl | rfl <;> rcases hb with rfl | rfl
    · exact .refl
    · exact .single hj
    · exact .single hj'
    · exact .refl
  have hedge : 0 < q.edges.size := by decide
  have hstamps : ∀ e ∈ t.edges.toList, Stamp.InRange e.time := by decide
  have hspan : ∀ v, MaxSpan.within 2 = .within v → Stamp.InRange v := by
    rintro v ⟨⟩
    decide
  exact ⟨⟨hnone, (matchGraphs_lists_occurrences true _ _ _).1 hnone⟩, hends, hloop, hconn, hedge,
    hstamps, hspan, (matchGraphs_lists_occurrences true _ _ _).2 hends hloop hconn hedge hstamps hspan⟩

/-- A query with a node that no edge reaches has an occurrence, but no matching order, so a
match counts nothing. -/
theorem isolated_query_node_not_counted :
    let q := Graph.ofOps true [.addNode 0 0, .addNode 1 0, .addNode 2 0, .addEdge 0 1 5 0]
    IsOccurrence q q .unbounded ⟨[(0, 0), (1, 1), (2, 2)], [(0, 0)]⟩ ∧
      (matchGraphs q q true .unbounded false).map MatchRun.count = .ok 0 := by
  decide +kernel

end TemporalMotif
