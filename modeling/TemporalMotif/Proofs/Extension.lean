import TemporalMotif.Proofs.Order
import TemporalMotif.Proofs.TimeOrder

/-!
# One step of the search

The search grows a partial occurrence one edge state at a time. A partial occurrence is
described by two lists: `Φ`, the target nodes of the node states bound so far, and `Ψ`, the
target edges of the edge states bound so far; `SearchSpace.assign` is the assignment the search
holds for them. `SearchSpace.Consistent` says that they bind the query as an occurrence would,
as far as they go.

The main statements say that one step is exact: every candidate that `starts` or `extensions`
offers extends a consistent partial occurrence to a consistent one, every consistent extension
by one edge state is offered by exactly one candidate, and no candidate is offered twice.
-/

namespace TemporalMotif

namespace MatchingOrder

/-- The number of node states bound once the first `j` edge states are: none before the
first edge state, and after it every state up to the later state of the last one. -/
def boundAfter (E : List OrderedEdge) : Nat → Nat
  | 0 => 0
  | j + 1 => ((E[j]?).map (·.source + 1)).getD 0

theorem boundAfter_succ {E : List OrderedEdge} {j : Nat} {oe : OrderedEdge} (h : E[j]? = some oe) :
    boundAfter E (j + 1) = oe.source + 1 := by
  simp [boundAfter, h]

namespace Chain

variable {E : List OrderedEdge} {n : Nat}

theorem source_le (hc : Chain E n) {i j : Nat} {a b : OrderedEdge} (ha : E[i]? = some a)
    (hb : E[j]? = some b) (hij : i ≤ j) : a.source ≤ b.source := by
  obtain ⟨hi, rfl⟩ := List.getElem?_eq_some_iff.1 ha
  obtain ⟨hj, rfl⟩ := List.getElem?_eq_some_iff.1 hb
  rcases Nat.lt_or_eq_of_le hij with hlt | rfl
  · exact List.pairwise_iff_getElem.1 hc.sorted i j hi hj hlt
  · exact Nat.le_refl _

/-- The first edge state joins node state 1 to node state 0. -/
theorem first (hc : Chain E n) {oe : OrderedEdge} (h0 : E[0]? = some oe) :
    oe.dest = 0 ∧ oe.source = 1 := by
  have hmem := List.mem_of_getElem? h0
  have hlt := hc.dest_lt oe hmem
  have hn := hc.source_lt oe hmem
  obtain ⟨oe', hoe', hs'⟩ := hc.covers 1 Nat.one_pos (by omega)
  obtain ⟨m, hm⟩ := List.mem_iff_getElem?.1 hoe'
  have := hc.source_le h0 hm (Nat.zero_le m)
  omega

/-- Each later edge state joins a bound node state to one that is bound or comes next. -/
theorem le_boundAfter (hc : Chain E n) {j : Nat} {oe : OrderedEdge} (hj : E[j]? = some oe)
    (hpos : 0 < j) : oe.dest < boundAfter E j ∧ oe.source ≤ boundAfter E j ∧
      boundAfter E j ≤ oe.source + 1 := by
  obtain ⟨j, rfl⟩ : ∃ j', j = j' + 1 := ⟨j - 1, by omega⟩
  have hjlen := (List.getElem?_eq_some_iff.1 hj).1
  obtain ⟨prev, hprev⟩ : ∃ prev, E[j]? = some prev := ⟨_, List.getElem?_eq_getElem (by omega)⟩
  rw [boundAfter_succ hprev]
  have hle := hc.source_le hprev hj (Nat.le_succ j)
  have hdest := hc.dest_lt oe (List.mem_of_getElem? hj)
  -- a gap after the previous later state would leave a node state that no edge state reaches
  have hgap : oe.source ≤ prev.source + 1 := by
    by_contra hgt
    have hn := hc.source_lt oe (List.mem_of_getElem? hj)
    obtain ⟨oe', hoe', hs'⟩ := hc.covers (prev.source + 1) (by omega) (by omega)
    obtain ⟨m, hm⟩ := List.mem_iff_getElem?.1 hoe'
    rcases Nat.lt_or_ge j m with hjm | hmj
    · have := hc.source_le hj hm hjm
      omega
    · have := hc.source_le hm hprev hmj
      omega
  omega

/-- Edge state `j` has its later state among the node states bound after the first `m`. -/
theorem source_lt_boundAfter (hc : Chain E n) {j m : Nat} {oe : OrderedEdge} (hj : E[j]? = some oe)
    (hjm : j < m) (hm : m ≤ E.length) : oe.source < boundAfter E m := by
  obtain ⟨m, rfl⟩ : ∃ m', m = m' + 1 := ⟨m - 1, by omega⟩
  obtain ⟨last, hlast⟩ : ∃ last, E[m]? = some last := ⟨_, List.getElem?_eq_getElem (by omega)⟩
  rw [boundAfter_succ hlast]
  have := hc.source_le hj hlast (by omega)
  omega

/-- Once every edge state is bound, so is every node state. -/
theorem boundAfter_length (hc : Chain E n) (hne : E ≠ []) : boundAfter E E.length = n := by
  obtain ⟨first, hfirst⟩ : ∃ oe, E[0]? = some oe :=
    ⟨_, List.getElem?_eq_getElem (List.length_pos_iff.2 hne)⟩
  obtain ⟨-, h1⟩ := hc.first hfirst
  have hn := hc.source_lt first (List.mem_of_getElem? hfirst)
  obtain ⟨m, hm⟩ : ∃ m, E.length = m + 1 := ⟨E.length - 1, by
    have := List.length_pos_iff.2 hne
    omega⟩
  obtain ⟨last, hlast⟩ : ∃ last, E[m]? = some last := ⟨_, List.getElem?_eq_getElem (by omega)⟩
  rw [hm, boundAfter_succ hlast]
  have hln := hc.source_lt last (List.mem_of_getElem? hlast)
  obtain ⟨oe', hoe', hs'⟩ := hc.covers (n - 1) (by omega) (by omega)
  obtain ⟨k, hk⟩ := List.mem_iff_getElem?.1 hoe'
  have := hc.source_le hk hlast (by have := (List.getElem?_eq_some_iff.1 hk).1; omega)
  omega

end Chain

end MatchingOrder

namespace SearchSpace

variable (sp : SearchSpace)

/-- The assignment that binds the first node states to `Φ` and the first edge states to `Ψ`. -/
def assign (Φ Ψ : List Nat) : Assignment :=
  ⟨(Φ.map some ++ List.replicate (sp.order.nodes.length - Φ.length) none).toArray, Ψ.toArray,
    (Ψ.map sp.targetTime).toArray⟩

/-- The query time of edge state `j`. -/
def queryTime (j : Nat) : Int := (sp.order.edges.map fun oe => sp.query.timeOf oe.edge).getD j 0

variable {sp} {Φ Ψ : List Nat}

theorem nodeAt?_assign (s : Nat) : (sp.assign Φ Ψ).nodeAt? s = Φ[s]? := by
  simp only [assign, Assignment.nodeAt?, List.getElem?_toArray, List.getElem?_append,
    List.length_map, List.getElem?_map]
  by_cases hs : s < Φ.length
  · simp [hs]
  · simp [hs, List.getElem?_replicate]

theorem usesNode_assign (v : Nat) : (sp.assign Φ Ψ).usesNode v = decide (v ∈ Φ) := by
  simp [assign, Assignment.usesNode]

theorem usesEdge_assign (e : Nat) : (sp.assign Φ Ψ).usesEdge e = decide (e ∈ Ψ) := by
  simp [assign, Assignment.usesEdge]

theorem timeAt_assign (j : Nat) : (sp.assign Φ Ψ).timeAt j = ((Ψ[j]?).map sp.targetTime).getD 0 := by
  simp [assign, Assignment.timeAt, Array.getD_eq_getD_getElem?]

theorem times_assign_append (Φ' : List Nat) (e : Nat) :
    (sp.assign Φ' (Ψ ++ [e])).times = (sp.assign Φ Ψ).times.push (sp.targetTime e) := by
  simp [assign]

theorem assign_close (oe : OrderedEdge) (e : Nat) :
    sp.bindCandidate (sp.assign Φ Ψ) oe (.close e) = sp.assign Φ (Ψ ++ [e]) := by
  simp [bindCandidate, Assignment.bind, assign, Candidate.edge]

theorem assign_extend {oe : OrderedEdge} (hsrc : oe.source = Φ.length)
    (hlt : Φ.length < sp.order.nodes.length) (e v : Nat) :
    sp.bindCandidate (sp.assign Φ Ψ) oe (.extend e v) = sp.assign (Φ ++ [v]) (Ψ ++ [e]) := by
  obtain ⟨k, hk⟩ : ∃ k, sp.order.nodes.length - Φ.length = k + 1 := ⟨_, (Nat.succ_pred_eq_of_pos (by omega)).symm⟩
  have hk' : sp.order.nodes.length - (Φ.length + 1) = k := by omega
  simp only [bindCandidate, Assignment.bind, assign, Candidate.edge, hsrc, hk, List.length_append,
    List.length_singleton, hk', List.map_append, List.map_cons, List.map_nil, Assignment.mk.injEq]
  refine ⟨Array.ext' ?_, by simp, by simp⟩
  simp [List.replicate_succ]

theorem assign_start {oe : OrderedEdge} (hdest : oe.dest = 0) (hsrc : oe.source = 1)
    (hn : 2 ≤ sp.order.nodes.length) (e root far : Nat) :
    sp.bindCandidate (Assignment.init sp.order.nodes.length) oe (.start e root far) =
      sp.assign [root, far] [e] := by
  obtain ⟨k, hk⟩ : ∃ k, sp.order.nodes.length = k + 2 := ⟨_, (Nat.sub_add_cancel hn).symm⟩
  simp only [bindCandidate, Assignment.bind, Assignment.init, assign, Candidate.edge, hdest, hsrc,
    hk, Assignment.mk.injEq]
  refine ⟨Array.ext' ?_, by simp, by simp⟩
  simp [List.replicate_succ]

/-- What the search relies on in its space: a built target whose times are timestamps, edge
states that run through the node states, the bound table of the query times, and a maximum
span that is a non-negative timestamp. -/
structure Planned (sp : SearchSpace) (tops : List GraphOp) : Prop where
  target : Built sp.target sp.target.directed tops
  stamps : ∀ e ∈ sp.target.edges.toList, Stamp.InRange e.time
  chain : MatchingOrder.Chain sp.order.edges sp.order.nodes.length
  bounds : sp.bounds =
    (TimeBound.table (sp.order.edges.map fun oe => sp.query.timeOf oe.edge)).toArray
  span : ∀ v, sp.span = .within v → 0 ≤ v ∧ Stamp.InRange v

variable (sp) in
/-- `Φ` and `Ψ` bind the first node states and edge states as an occurrence would: as many node
states as the bound edge states reach, distinct target nodes from the domains, and distinct
target edges with the query edges' labels, each linking the images of its two node states, at
times ordered as the query's and within the span of each other. -/
structure Consistent (Φ Ψ : List Nat) : Prop where
  length_le : Ψ.length ≤ sp.order.edges.length
  bound : Φ.length = MatchingOrder.boundAfter sp.order.edges Ψ.length
  nodes_nodup : Φ.Nodup
  edges_nodup : Ψ.Nodup
  domain : ∀ s v, Φ[s]? = some v → sp.domains.allows (sp.order.nodeAt s) v = true
  label : ∀ (j e : Nat) (oe : OrderedEdge), Ψ[j]? = some e → sp.order.edges[j]? = some oe →
    sp.targetLabel? e = sp.queryLabel? oe.edge
  link : ∀ (j e : Nat) (oe : OrderedEdge), Ψ[j]? = some e → sp.order.edges[j]? = some oe →
    (sp.target.indexOf (Φ.getD oe.dest 0) oe.dir.reversed).Holds
      ⟨sp.targetTime e, Φ.getD oe.source 0, e⟩
  times : (sp.assign Φ Ψ).TimesFit sp.queryTime sp.span Ψ.length

variable {tops : List GraphOp}

theorem Planned.brackets (hp : sp.Planned tops) {i : Nat} (hi : i < sp.order.edges.length) :
    TimeBound.Brackets sp.queryTime i (sp.bounds.getD i ⟨none, none⟩) := by
  have hi' : i < (sp.order.edges.map fun oe => sp.query.timeOf oe.edge).length := by simpa using hi
  rw [hp.bounds, TimeBound.getD_table hi']
  exact TimeBound.ofPrefix_brackets hi'

theorem getElem?_append_singleton {e e' : Nat} {j : Nat} (h : (Ψ ++ [e])[j]? = some e') :
    (j < Ψ.length ∧ Ψ[j]? = some e') ∨ (j = Ψ.length ∧ e' = e) := by
  rw [List.getElem?_append] at h
  split at h
  · exact .inl ⟨‹_›, h⟩
  · rename_i hj
    rw [List.getElem?_singleton] at h
    split at h
    · cases h
      exact .inr ⟨by omega, rfl⟩
    · cases h

theorem getD_eq_of_prefix_of_lt {Φ' : List Nat} (h : Φ <+: Φ') {s : Nat} (hs : s < Φ.length) :
    Φ'.getD s 0 = Φ.getD s 0 := by
  obtain ⟨t, rfl⟩ := h
  simp [List.getD_eq_getElem?_getD, List.getElem?_append_left hs]

/-- Binding one more edge state keeps a partial occurrence consistent when its node images
stay distinct and in their domains, and the new target edge is unused, has the query edge's
label, links the images of the edge state's two node states, and has a timestamp the window
of the bound times admits. -/
theorem Consistent.snoc (hp : sp.Planned tops) (hc : sp.Consistent Φ Ψ) {oe : OrderedEdge}
    (hoe : sp.order.edges[Ψ.length]? = some oe) {Φ' : List Nat} (hpre : Φ <+: Φ')
    (hlen : Φ'.length = oe.source + 1) (hnd : Φ'.Nodup)
    (hdom : ∀ s v, Φ'[s]? = some v → sp.domains.allows (sp.order.nodeAt s) v = true) {e : Nat}
    (he : e ∉ Ψ) (hlabel : sp.targetLabel? e = sp.queryLabel? oe.edge)
    (hlink : (sp.target.indexOf (Φ'.getD oe.dest 0) oe.dir.reversed).Holds
      ⟨sp.targetTime e, Φ'.getD oe.source 0, e⟩)
    (hadm : (sp.assign Φ Ψ).Admits sp.queryTime sp.span Ψ.length (sp.targetTime e))
    (hr : Stamp.InRange (sp.targetTime e)) : sp.Consistent Φ' (Ψ ++ [e]) := by
  have hjlt := (List.getElem?_eq_some_iff.1 hoe).1
  refine ⟨by simp; omega, by rw [List.length_append, List.length_singleton,
    MatchingOrder.boundAfter_succ hoe, hlen], hnd,
    by simpa [List.nodup_append, hc.edges_nodup] using fun a (ha : a ∈ Ψ) (hae : a = e) => he (hae ▸ ha),
    hdom, fun j e' oe' he' hoe' => ?_, fun j e' oe' he' hoe' => ?_, ?_⟩
  · rcases getElem?_append_singleton he' with ⟨-, he'⟩ | ⟨rfl, rfl⟩
    · exact hc.label j e' oe' he' hoe'
    · rw [hoe] at hoe'
      cases hoe'
      exact hlabel
  · rcases getElem?_append_singleton he' with ⟨hj, he'⟩ | ⟨rfl, rfl⟩
    · -- an earlier edge state joins node states bound before, where `Φ'` agrees with `Φ`
      have hsrc := hp.chain.source_lt_boundAfter hoe' hj hc.length_le
      have hdst := hp.chain.dest_lt oe' (List.mem_of_getElem? hoe')
      rw [← hc.bound] at hsrc
      rw [getD_eq_of_prefix_of_lt hpre hsrc, getD_eq_of_prefix_of_lt hpre (by omega)]
      exact hc.link j e' oe' he' hoe'
    · rw [hoe] at hoe'
      cases hoe'
      exact hlink
  · rw [List.length_append, List.length_singleton]
    exact hc.times.push (fun v hs => (hp.span v hs).1) hadm hr (times_assign_append Φ' e)

/-- A consistent partial occurrence with one more edge state binds it to an unused target
edge with the query edge's label, linking the images of its two node states, at a timestamp
admitted after the bound times. -/
theorem Consistent.of_snoc {Φ' : List Nat} {e : Nat} (hc' : sp.Consistent Φ' (Ψ ++ [e]))
    {oe : OrderedEdge}
    (hoe : sp.order.edges[Ψ.length]? = some oe) :
    e ∉ Ψ ∧ sp.targetLabel? e = sp.queryLabel? oe.edge ∧
      (sp.target.indexOf (Φ'.getD oe.dest 0) oe.dir.reversed).Holds
        ⟨sp.targetTime e, Φ'.getD oe.source 0, e⟩ ∧
      (sp.assign Φ Ψ).Admits sp.queryTime sp.span Ψ.length (sp.targetTime e) ∧
      Stamp.InRange (sp.targetTime e) := by
  have hlast : (Ψ ++ [e])[Ψ.length]? = some e := by simp
  have htimes := hc'.times
  rw [List.length_append, List.length_singleton] at htimes
  refine ⟨?_, hc'.label _ e oe hlast hoe, hc'.link _ e oe hlast hoe,
    htimes.admits_of_push (times_assign_append Φ' e) (by simp [assign]), ?_⟩
  · have := hc'.edges_nodup
    simp only [List.nodup_append, List.nodup_cons, List.not_mem_nil, not_false_eq_true,
      List.nodup_nil, and_self, List.mem_singleton, true_and] at this
    exact fun h => this.2 e h e rfl rfl
  · have := htimes.range Ψ.length (Nat.lt_succ_self _)
    rwa [timeAt_assign, hlast] at this

/-- A moment of the sliced target index carries a link exactly when the index holds the link
at its edge's time and the window admits that time. -/
theorem exists_mem_slice_iff (hp : sp.Planned tops) {x : Nat} {d : Direction} {w : Window}
    {v e : Nat} : (∃ m ∈ (sp.target.indexOf x d).slice w, (v, e) ∈ m.links) ↔
      (sp.target.indexOf x d).Holds ⟨sp.targetTime e, v, e⟩ ∧
        w.contains (sp.targetTime e) = true := by
  constructor
  · rintro ⟨m, hm, hl⟩
    obtain ⟨hm, hw⟩ := TimeIndex.mem_slice.1 hm
    have hold : (sp.target.indexOf x d).Holds ⟨m.time, v, e⟩ := ⟨m, hm, rfl, hl⟩
    have ht : sp.targetTime e = m.time := hp.target.timeOf_edge hold
    rw [ht]
    exact ⟨hold, hw⟩
  · rintro ⟨⟨m, hm, hmt, hl⟩, hw⟩
    exact ⟨m, TimeIndex.mem_slice.2 ⟨hm, by rw [hmt]; exact hw⟩, hl⟩

theorem mem_extensions_of_bound {a : Assignment} {s : Nat} {oe : OrderedEdge} {x y : Nat}
    (hx : a.nodeAt? oe.dest = some x) (hy : a.nodeAt? oe.source = some y) {c : Candidate} :
    c ∈ sp.extensions a s oe ↔ ∃ e, c = .close e ∧
      (∃ m ∈ (sp.target.indexOf x oe.dir.reversed).slice (sp.window a s),
        m.links.edgeTo? y = some e) ∧
      a.usesEdge e = false ∧ sp.targetLabel? e = sp.queryLabel? oe.edge := by
  simp only [extensions, extensionsOf, Assignment.bindings_nodeAt?, Assignment.bindings_usesEdge,
    windowOf_bindings, hx, hy, List.mem_filterMap, Option.ite_none_right_eq_some,
    Option.some.injEq, Bool.and_eq_true, Bool.not_eq_true', beq_iff_eq]
  constructor
  · rintro ⟨e, hm, ⟨hu, hl⟩, rfl⟩
    exact ⟨e, rfl, hm, hu, hl⟩
  · rintro ⟨e, rfl, hm, hu, hl⟩
    exact ⟨e, hm, ⟨hu, hl⟩, rfl⟩

theorem mem_extensions_of_free {a : Assignment} {s : Nat} {oe : OrderedEdge} {x : Nat}
    (hx : a.nodeAt? oe.dest = some x) (hy : a.nodeAt? oe.source = none) {c : Candidate} :
    c ∈ sp.extensions a s oe ↔ ∃ v e, c = .extend e v ∧
      (∃ m ∈ (sp.target.indexOf x oe.dir.reversed).slice (sp.window a s), (v, e) ∈ m.links) ∧
      a.usesNode v = false ∧ sp.domains.allows (sp.order.nodeAt oe.source) v = true ∧
      a.usesEdge e = false ∧ sp.targetLabel? e = sp.queryLabel? oe.edge := by
  simp only [extensions, extensionsOf, Assignment.bindings_nodeAt?, Assignment.bindings_usesNode,
    Assignment.bindings_usesEdge, windowOf_bindings, hx, hy, List.mem_flatMap, List.mem_filterMap,
    Prod.exists, Option.ite_none_right_eq_some, Option.some.injEq, Bool.and_eq_true,
    Bool.not_eq_true', beq_iff_eq]
  constructor
  · rintro ⟨m, hm, v, e, hl, ⟨⟨⟨hv, hdom⟩, hu⟩, hlab⟩, rfl⟩
    exact ⟨v, e, rfl, ⟨m, hm, hl⟩, hv, hdom, hu, hlab⟩
  · rintro ⟨v, e, rfl, ⟨m, hm, hl⟩, hv, hdom, hu, hlab⟩
    exact ⟨m, hm, v, e, hl, ⟨⟨⟨hv, hdom⟩, hu⟩, hlab⟩, rfl⟩

theorem getElem?_eq_some_getD {s : Nat} (hs : s < Φ.length) : Φ[s]? = some (Φ.getD s 0) := by
  simp [List.getD_eq_getElem?_getD, List.getElem?_eq_getElem hs]

theorem assign_inj {Φ' Ψ' : List Nat} (h : sp.assign Φ Ψ = sp.assign Φ' Ψ') : Φ = Φ' ∧ Ψ = Ψ' := by
  refine ⟨List.ext_getElem? fun s => ?_, ?_⟩
  · have := congrArg (fun a => a.nodeAt? s) h
    simpa only [nodeAt?_assign] using this
  · have := congrArg (fun a => a.edges.toList) h
    simpa [assign] using this

theorem consistent_nil : sp.Consistent [] [] where
  length_le := Nat.zero_le _
  bound := rfl
  nodes_nodup := List.nodup_nil
  edges_nodup := List.nodup_nil
  domain := by simp
  label := by simp
  link := by simp
  times := ⟨by simp [assign], by simp, by simp, by simp⟩

section Step

variable {tops : List GraphOp} {oe : OrderedEdge}

/-- Each candidate for a later edge state extends a consistent partial occurrence by that edge
state, and binding it gives the assignment of the extension. -/
theorem extensions_sound (hp : sp.Planned tops) (hc : sp.Consistent Φ Ψ)
    (hoe : sp.order.edges[Ψ.length]? = some oe) (hpos : 0 < Ψ.length) {c : Candidate}
    (hcand : c ∈ sp.extensions (sp.assign Φ Ψ) Ψ.length oe) :
    ∃ Φ', Φ <+: Φ' ∧ sp.Consistent Φ' (Ψ ++ [c.edge]) ∧
      sp.bindCandidate (sp.assign Φ Ψ) oe c = sp.assign Φ' (Ψ ++ [c.edge]) := by
  have hjlt := (List.getElem?_eq_some_iff.1 hoe).1
  obtain ⟨hdest, hsrc, -⟩ := hp.chain.le_boundAfter hoe hpos
  rw [← hc.bound] at hdest hsrc
  have hx : (sp.assign Φ Ψ).nodeAt? oe.dest = some (Φ.getD oe.dest 0) := by
    rw [nodeAt?_assign, getElem?_eq_some_getD hdest]
  have hwin := fun e (hr : Stamp.InRange (sp.targetTime e)) =>
    sp.window_contains_iff (hp.brackets hjlt) hc.times hp.span hr
  rcases Nat.lt_or_eq_of_le hsrc with hlt | heq
  · -- the later node state is bound: the candidate closes a cycle
    have hy : (sp.assign Φ Ψ).nodeAt? oe.source = some (Φ.getD oe.source 0) := by
      rw [nodeAt?_assign, getElem?_eq_some_getD hlt]
    obtain ⟨e, rfl, ⟨m, hm, hedge⟩, hu, hlab⟩ := (mem_extensions_of_bound hx hy).1 hcand
    simp only [Candidate.edge]
    have hl : (Φ.getD oe.source 0, e) ∈ m.links :=
      (Links.mem_iff_edgeTo? (hp.target.nodup_nbrs (TimeIndex.mem_slice.1 hm).1) _ _).2 hedge
    obtain ⟨hold, hw⟩ := (exists_mem_slice_iff hp).1 ⟨m, hm, hl⟩
    have hr : Stamp.InRange (sp.targetTime e) := hp.target.inRange_of_holds hp.stamps hold
    refine ⟨Φ, List.prefix_refl Φ, hc.snoc hp hoe (List.prefix_refl Φ) ?_ hc.nodes_nodup
      hc.domain (by simpa [usesEdge_assign] using hu) hlab hold ((hwin e hr).1 hw) hr,
      assign_close oe e⟩
    have := hp.chain.le_boundAfter hoe hpos
    rw [← hc.bound] at this
    omega
  · -- the later node state comes next: the candidate brings its node
    have hy : (sp.assign Φ Ψ).nodeAt? oe.source = none := by
      rw [nodeAt?_assign, List.getElem?_eq_none (by omega)]
    obtain ⟨v, e, rfl, hml, hv, hdom, hu, hlab⟩ := (mem_extensions_of_free hx hy).1 hcand
    simp only [Candidate.edge]
    obtain ⟨hold, hw⟩ := (exists_mem_slice_iff hp).1 hml
    have hr : Stamp.InRange (sp.targetTime e) := hp.target.inRange_of_holds hp.stamps hold
    have hvΦ : v ∉ Φ := by simpa [usesNode_assign] using hv
    have hn : Φ.length < sp.order.nodes.length :=
      heq ▸ hp.chain.source_lt oe (List.mem_of_getElem? hoe)
    have hpre := List.prefix_append Φ [v]
    refine ⟨Φ ++ [v], hpre, hc.snoc hp hoe hpre (by simp; omega) ?_ ?_
      (by simpa [usesEdge_assign] using hu) hlab ?_ ((hwin e hr).1 hw) hr,
      assign_extend heq hn e v⟩
    · exact List.nodup_append.2 ⟨hc.nodes_nodup, List.nodup_singleton v,
        fun a ha b hb hab => hvΦ (by rw [List.mem_singleton.1 hb] at hab; exact hab ▸ ha)⟩
    · intro s w hs
      rcases getElem?_append_singleton hs with ⟨-, hs⟩ | ⟨rfl, rfl⟩
      · exact hc.domain s w hs
      · rw [← heq]
        exact hdom
    · rw [getD_eq_of_prefix_of_lt hpre hdest, heq]
      simpa using hold

/-- Each consistent extension of a partial occurrence by a later edge state is what binding
some candidate gives. -/
theorem extensions_complete (hp : sp.Planned tops) (hc : sp.Consistent Φ Ψ)
    (hoe : sp.order.edges[Ψ.length]? = some oe) (hpos : 0 < Ψ.length) {Φ' : List Nat} {e : Nat}
    (hc' : sp.Consistent Φ' (Ψ ++ [e])) (hpre : Φ <+: Φ') :
    ∃ c ∈ sp.extensions (sp.assign Φ Ψ) Ψ.length oe,
      sp.bindCandidate (sp.assign Φ Ψ) oe c = sp.assign Φ' (Ψ ++ [e]) := by
  have hjlt := (List.getElem?_eq_some_iff.1 hoe).1
  obtain ⟨hdest, hsrc, hbound⟩ := hp.chain.le_boundAfter hoe hpos
  rw [← hc.bound] at hdest hsrc hbound
  have hx : (sp.assign Φ Ψ).nodeAt? oe.dest = some (Φ.getD oe.dest 0) := by
    rw [nodeAt?_assign, getElem?_eq_some_getD hdest]
  obtain ⟨he, hlab, hlink, hadm, hr⟩ := hc'.of_snoc hoe
  have hw := (sp.window_contains_iff (hp.brackets hjlt) hc.times hp.span hr).2 hadm
  have hlen' : Φ'.length = oe.source + 1 := by
    rw [hc'.bound, List.length_append, List.length_singleton,
      MatchingOrder.boundAfter_succ hoe]
  rcases Nat.lt_or_eq_of_le hsrc with hlt | heq
  · -- the later node state is bound, so the extension binds no node
    obtain rfl : Φ = Φ' := hpre.eq_of_length (by omega)
    have hy : (sp.assign Φ Ψ).nodeAt? oe.source = some (Φ.getD oe.source 0) := by
      rw [nodeAt?_assign, getElem?_eq_some_getD hlt]
    obtain ⟨m, hm, hl⟩ := (exists_mem_slice_iff hp).2 ⟨hlink, hw⟩
    have hedge := (Links.mem_iff_edgeTo? (hp.target.nodup_nbrs (TimeIndex.mem_slice.1 hm).1) _ _).1 hl
    exact ⟨.close e, (mem_extensions_of_bound hx hy).2 ⟨e, rfl, ⟨m, hm, hedge⟩,
      by simpa [usesEdge_assign] using he, hlab⟩, assign_close oe e⟩
  · -- the later node state comes next, so the extension binds one node to it
    have hy : (sp.assign Φ Ψ).nodeAt? oe.source = none := by
      rw [nodeAt?_assign, List.getElem?_eq_none (by omega)]
    obtain ⟨t, rfl⟩ := hpre
    obtain ⟨v, rfl⟩ : ∃ v, t = [v] := List.length_eq_one_iff.1 (by simp at hlen'; omega)
    have hn : Φ.length < sp.order.nodes.length :=
      heq ▸ hp.chain.source_lt oe (List.mem_of_getElem? hoe)
    have hvΦ : v ∉ Φ := fun hv =>
      (List.nodup_append.1 hc'.nodes_nodup).2.2 v hv v (List.mem_singleton_self v) rfl
    rw [getD_eq_of_prefix_of_lt (List.prefix_append Φ [v]) hdest, heq] at hlink
    have hlink' : (sp.target.indexOf (Φ.getD oe.dest 0) oe.dir.reversed).Holds
        ⟨sp.targetTime e, v, e⟩ := by simpa using hlink
    refine ⟨.extend e v, (mem_extensions_of_free hx hy).2 ⟨v, e, rfl,
      (exists_mem_slice_iff hp).2 ⟨hlink', hw⟩, by simpa [usesNode_assign] using hvΦ, ?_,
      by simpa [usesEdge_assign] using he, hlab⟩, assign_extend heq hn e v⟩
    rw [heq]
    exact hc'.domain Φ.length v (by simp)

/-- No candidate for a later edge state comes twice: candidates from different moments have
different times, and those of one moment different links. -/
theorem nodup_extensions (hp : sp.Planned tops) (hc : sp.Consistent Φ Ψ)
    (hoe : sp.order.edges[Ψ.length]? = some oe) (hpos : 0 < Ψ.length) :
    (sp.extensions (sp.assign Φ Ψ) Ψ.length oe).Nodup := by
  obtain ⟨hdest, hsrc, -⟩ := hp.chain.le_boundAfter hoe hpos
  rw [← hc.bound] at hdest hsrc
  have hx : (sp.assign Φ Ψ).nodeAt? oe.dest = some (Φ.getD oe.dest 0) := by
    rw [nodeAt?_assign, getElem?_eq_some_getD hdest]
  set ix := sp.target.indexOf (Φ.getD oe.dest 0) oe.dir.reversed
  set w := sp.window (sp.assign Φ Ψ) Ψ.length
  have hinc : (ix.slice w).Pairwise fun a b => a.time ≠ b.time := by
    rw [TimeIndex.slice_eq_filter]
    exact (ix.increasing.filter _).imp Int.ne_of_lt
  have htime : ∀ m ∈ ix.slice w, ∀ v e, (v, e) ∈ m.links → sp.targetTime e = m.time :=
    fun m hm v e hl => hp.target.timeOf_edge (a := ⟨m.time, v, e⟩) ⟨m, (TimeIndex.mem_slice.1 hm).1, rfl, hl⟩
  rcases Nat.lt_or_eq_of_le hsrc with hlt | heq
  · have hy : (sp.assign Φ Ψ).nodeAt? oe.source = some (Φ.getD oe.source 0) := by
      rw [nodeAt?_assign, getElem?_eq_some_getD hlt]
    simp only [extensions, extensionsOf, Assignment.bindings_nodeAt?, windowOf_bindings, hx, hy]
    refine List.Nodup.filterMap (fun e e' c h h' => ?_) ?_
    · split at h <;> split at h'
      · simp only [Option.mem_def, Option.some.injEq] at h h'
        rw [← h'] at h
        cases h
        rfl
      all_goals simp at h h'
    · rw [List.filterMap_eq_flatMap_toList]
      refine nodup_flatMap_of_key Moment.time sp.targetTime hinc (fun m _ => ?_) (fun m hm e he => ?_)
      · cases m.links.edgeTo? (Φ.getD oe.source 0) <;> simp
      · have hl := (Links.mem_iff_edgeTo? (hp.target.nodup_nbrs (TimeIndex.mem_slice.1 hm).1) _ _).2
          (Option.mem_toList.1 he)
        exact htime m hm _ e hl
  · have hy : (sp.assign Φ Ψ).nodeAt? oe.source = none := by
      rw [nodeAt?_assign, List.getElem?_eq_none (by omega)]
    simp only [extensions, extensionsOf, Assignment.bindings_nodeAt?, windowOf_bindings, hx, hy]
    refine nodup_flatMap_of_key Moment.time (fun c => sp.targetTime c.edge) hinc (fun m hm => ?_)
      (fun m hm c hcm => ?_)
    · refine List.Nodup.filterMap (fun ⟨v, e⟩ ⟨v', e'⟩ c h h' => ?_)
        (hp.target.nodup_links m (TimeIndex.mem_slice.1 hm).1)
      split at h <;> split at h'
      · simp only [Option.mem_def, Option.some.injEq] at h h'
        rw [← h'] at h
        cases h
        rfl
      all_goals simp at h h'
    · obtain ⟨⟨v, e⟩, hl, hce⟩ := List.mem_filterMap.1 hcm
      split at hce
      · cases hce
        exact htime m hm v e hl
      · cases hce

/-- Different candidates for a later edge state bind to different assignments. -/
theorem bindCandidate_injOn (hp : sp.Planned tops) (hc : sp.Consistent Φ Ψ)
    (hoe : sp.order.edges[Ψ.length]? = some oe) (hpos : 0 < Ψ.length) {c c' : Candidate}
    (hc1 : c ∈ sp.extensions (sp.assign Φ Ψ) Ψ.length oe)
    (hc2 : c' ∈ sp.extensions (sp.assign Φ Ψ) Ψ.length oe)
    (h : sp.bindCandidate (sp.assign Φ Ψ) oe c = sp.bindCandidate (sp.assign Φ Ψ) oe c') :
    c = c' := by
  obtain ⟨hdest, hsrc, -⟩ := hp.chain.le_boundAfter hoe hpos
  rw [← hc.bound] at hdest hsrc
  have hx : (sp.assign Φ Ψ).nodeAt? oe.dest = some (Φ.getD oe.dest 0) := by
    rw [nodeAt?_assign, getElem?_eq_some_getD hdest]
  rcases Nat.lt_or_eq_of_le hsrc with hlt | heq
  · have hy : (sp.assign Φ Ψ).nodeAt? oe.source = some (Φ.getD oe.source 0) := by
      rw [nodeAt?_assign, getElem?_eq_some_getD hlt]
    obtain ⟨e, rfl, -⟩ := (mem_extensions_of_bound hx hy).1 hc1
    obtain ⟨e', rfl, -⟩ := (mem_extensions_of_bound hx hy).1 hc2
    rw [assign_close, assign_close] at h
    obtain ⟨-, hΨ⟩ := assign_inj h
    simpa using hΨ
  · have hy : (sp.assign Φ Ψ).nodeAt? oe.source = none := by
      rw [nodeAt?_assign, List.getElem?_eq_none (by omega)]
    have hn : Φ.length < sp.order.nodes.length :=
      heq ▸ hp.chain.source_lt oe (List.mem_of_getElem? hoe)
    obtain ⟨v, e, rfl, -⟩ := (mem_extensions_of_free hx hy).1 hc1
    obtain ⟨v', e', rfl, -⟩ := (mem_extensions_of_free hx hy).1 hc2
    rw [assign_extend heq hn, assign_extend heq hn] at h
    obtain ⟨hΦ, hΨ⟩ := assign_inj h
    simp only [List.append_cancel_left_eq, List.cons.injEq, and_true] at hΦ hΨ
    rw [hΦ, hΨ]

/-- A moment of a target index carries a link exactly when the index holds the link at its
edge's time. -/
theorem exists_mem_moments_iff (hp : sp.Planned tops) {x : Nat} {d : Direction} {v e : Nat} :
    (∃ m ∈ (sp.target.indexOf x d).moments, (v, e) ∈ m.links) ↔
      (sp.target.indexOf x d).Holds ⟨sp.targetTime e, v, e⟩ := by
  constructor
  · rintro ⟨m, hm, hl⟩
    have hold : (sp.target.indexOf x d).Holds ⟨m.time, v, e⟩ := ⟨m, hm, rfl, hl⟩
    have ht : sp.targetTime e = m.time := hp.target.timeOf_edge hold
    rwa [ht]
  · rintro ⟨m, hm, -, hl⟩
    exact ⟨m, hm, hl⟩

theorem mem_starts {first : OrderedEdge} (h0 : sp.order.edges[0]? = some first) (root : Nat)
    {c : Candidate} : c ∈ sp.starts root ↔ ∃ far e, c = .start e root far ∧
      (∃ m ∈ (sp.target.indexOf root first.dir.reversed).moments, (far, e) ∈ m.links) ∧
      far ≠ root ∧ sp.domains.allows (sp.order.nodeAt first.source) far = true ∧
      sp.targetLabel? e = sp.queryLabel? first.edge := by
  obtain ⟨rest, hE⟩ : ∃ rest, sp.order.edges = first :: rest := by
    cases hE : sp.order.edges with
    | nil => rw [hE] at h0; cases h0
    | cons a rest => rw [hE] at h0; cases h0; exact ⟨rest, rfl⟩
  simp only [starts, hE, List.mem_flatMap, List.mem_filterMap, Prod.exists,
    Option.ite_none_right_eq_some, Option.some.injEq, Bool.and_eq_true, bne_iff_ne, ne_eq,
    beq_iff_eq]
  constructor
  · rintro ⟨m, hm, far, e, hl, ⟨⟨hne, hdom⟩, hlab⟩, rfl⟩
    exact ⟨far, e, rfl, ⟨m, hm, hl⟩, hne, hdom, hlab⟩
  · rintro ⟨far, e, rfl, ⟨m, hm, hl⟩, hne, hdom, hlab⟩
    exact ⟨m, hm, far, e, hl, ⟨⟨hne, hdom⟩, hlab⟩, rfl⟩

/-- Each candidate for the first edge state at a root from the first node state's domain binds
a consistent partial occurrence of one edge state. -/
theorem starts_sound (hp : sp.Planned tops) {first : OrderedEdge}
    (h0 : sp.order.edges[0]? = some first) {root : Nat}
    (hroot : sp.domains.allows (sp.order.nodeAt 0) root = true) {c : Candidate}
    (hc : c ∈ sp.starts root) : ∃ far e, c = .start e root far ∧ sp.Consistent [root, far] [e] ∧
      sp.bindCandidate (Assignment.init sp.order.nodes.length) first c =
        sp.assign [root, far] [e] := by
  obtain ⟨hd0, hs1⟩ := hp.chain.first h0
  have hn : 2 ≤ sp.order.nodes.length := by
    have := hp.chain.source_lt first (List.mem_of_getElem? h0)
    omega
  obtain ⟨far, e, rfl, hml, hne, hdom, hlab⟩ := (mem_starts h0 root).1 hc
  have hold := (exists_mem_moments_iff hp).1 hml
  have hr : Stamp.InRange (sp.targetTime e) := hp.target.inRange_of_holds hp.stamps hold
  refine ⟨far, e, rfl, ?_, assign_start hd0 hs1 hn e root far⟩
  refine consistent_nil.snoc hp h0 (List.nil_prefix) (by simp [hs1]) (by simp [Ne.symm hne])
    (fun s v hs => ?_) List.not_mem_nil hlab (by simpa [hd0, hs1] using hold)
    ⟨fun j hj => absurd hj (Nat.not_lt_zero j), fun v _ j hj => absurd hj (Nat.not_lt_zero j)⟩ hr
  match s, hs with
  | 0, hs => cases hs; exact hroot
  | 1, hs => cases hs; rw [← hs1]; exact hdom

/-- Each consistent partial occurrence of one edge state is what binding a candidate at its
root gives. -/
theorem starts_complete (hp : sp.Planned tops) {first : OrderedEdge}
    (h0 : sp.order.edges[0]? = some first) {Φ' : List Nat} {e : Nat}
    (hc' : sp.Consistent Φ' [e]) : ∃ root far, Φ' = [root, far] ∧
      ∃ c ∈ sp.starts root, sp.bindCandidate (Assignment.init sp.order.nodes.length) first c =
        sp.assign Φ' [e] := by
  obtain ⟨hd0, hs1⟩ := hp.chain.first h0
  have hn : 2 ≤ sp.order.nodes.length := by
    have := hp.chain.source_lt first (List.mem_of_getElem? h0)
    omega
  have hlen : Φ'.length = 2 := by
    rw [hc'.bound, List.length_singleton, MatchingOrder.boundAfter_succ h0, hs1]
  obtain ⟨root, far, rfl⟩ : ∃ root far, Φ' = [root, far] := by
    match Φ', hlen with
    | [root, far], _ => exact ⟨root, far, rfl⟩
  have hc'' : sp.Consistent [root, far] ([] ++ [e]) := hc'
  obtain ⟨-, hlab, hlink, -, -⟩ := @Consistent.of_snoc sp [] [] _ e hc'' first h0
  have hne : far ≠ root := by
    have := hc'.nodes_nodup
    simp only [List.nodup_cons, List.mem_singleton, List.not_mem_nil, not_false_eq_true,
      List.nodup_nil, and_self, and_true] at this
    exact Ne.symm this
  have hdom := hc'.domain 1 far rfl
  rw [hd0, hs1] at hlink
  refine ⟨root, far, rfl, .start e root far, (mem_starts h0 root).2 ⟨far, e, rfl,
    (exists_mem_moments_iff hp).2 (by simpa using hlink), hne, by rw [hs1]; exact hdom, hlab⟩,
    assign_start hd0 hs1 hn e root far⟩

/-- No candidate for the first edge state comes twice. -/
theorem nodup_starts (hp : sp.Planned tops) {first : OrderedEdge}
    (h0 : sp.order.edges[0]? = some first) (root : Nat) : (sp.starts root).Nodup := by
  obtain ⟨rest, hE⟩ : ∃ rest, sp.order.edges = first :: rest := by
    cases hE : sp.order.edges with
    | nil => rw [hE] at h0; cases h0
    | cons a rest => rw [hE] at h0; cases h0; exact ⟨rest, rfl⟩
  set ix := sp.target.indexOf root first.dir.reversed
  simp only [starts, hE]
  refine nodup_flatMap_of_key Moment.time (fun c => sp.targetTime c.edge)
    (ix.increasing.imp Int.ne_of_lt) (fun m hm => ?_) (fun m hm c hcm => ?_)
  · refine List.Nodup.filterMap (fun ⟨v, e⟩ ⟨v', e'⟩ c h h' => ?_) (hp.target.nodup_links m hm)
    split at h <;> split at h'
    · simp only [Option.mem_def, Option.some.injEq] at h h'
      rw [← h'] at h
      cases h
      rfl
    all_goals simp at h h'
  · obtain ⟨⟨v, e⟩, hl, hce⟩ := List.mem_filterMap.1 hcm
    split at hce
    · cases hce
      exact hp.target.timeOf_edge (a := ⟨m.time, v, e⟩) ⟨m, hm, rfl, hl⟩
    · cases hce

end Step

end SearchSpace

end TemporalMotif
