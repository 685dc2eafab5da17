import TemporalMotif.Proofs.Dominance

/-! # What the profiles count

The slot counters behind `Graph.flow` and `Graph.degree` never list pairs of links: they
multiply moment sizes, subtract the far ends two moments share, and slice time indices through
saturating windows. Here every slot is tied to the set it names. A link is taken as its far end
with its time; `Graph.namedPairs` holds the pairs of links at a node whose times relate as the
slot says within the maximum span and whose far ends differ or agree.
`profiles_count_named_pairs` says that a profile counted without limits holds the size of that
set in every slot, and the degree profile the number of links in each direction. -/

namespace TemporalMotif

/-- Whether time `t₂` stands to time `t₁` as the timing says, within the maximum span: after it
and at most the span later, before it and at most the span earlier, or equal to it. -/
def Timing.relates : Timing → MaxSpan → Int → Int → Bool
  | .later, span, t₁, t₂ => decide (t₁ < t₂) && span.admits (t₂ - t₁)
  | .earlier, span, t₁, t₂ => decide (t₂ < t₁) && span.admits (t₁ - t₂)
  | .same, _, t₁, t₂ => decide (t₁ = t₂)

/-- The saturating window of a timing admits a timestamp exactly when it relates to the first
one: pulling a sum or difference back into the timestamp range loses nothing. -/
theorem Timing.contains_window_eq (τ : Timing) (span : MaxSpan) {t₁ t₂ : Int}
    (h₁ : Stamp.InRange t₁) (h₂ : Stamp.InRange t₂) :
    (τ.window span t₁).contains t₂ = τ.relates span t₁ t₂ := by
  unfold Stamp.InRange Stamp.least Stamp.greatest at h₁ h₂
  rw [Bool.eq_iff_iff]
  cases τ <;> cases span <;>
    simp only [window, relates, MaxSpan.after, MaxSpan.before, MaxSpan.admits, Window.contains,
      Window.exactly, Endpoint.admitsAbove, Endpoint.admitsBelow, Stamp.addSat, Stamp.subSat,
      Stamp.clamp, Stamp.least, Stamp.greatest, Bool.and_true, Bool.true_and, Bool.and_eq_true,
      decide_eq_true_eq] <;> omega

namespace TimeIndex

/-- The links of an index, each as its far end and its time. -/
def stamps (ix : TimeIndex) : Finset (Nat × Int) :=
  (ix.entries.map fun a => (a.nbr, a.time)).toFinset

theorem mem_stamps {ix : TimeIndex} {p : Nat × Int} : p ∈ ix.stamps ↔ ∃ e, ix.Holds ⟨p.2, p.1, e⟩ := by
  simp only [stamps, List.mem_toFinset, List.mem_map, mem_entries]
  constructor
  · rintro ⟨a, ha, rfl⟩
    exact ⟨a.edge, ha⟩
  · rintro ⟨e, he⟩
    exact ⟨_, he, rfl⟩

end TimeIndex

namespace Graph

/-- The links of `x` in direction `d`, each as its far end and its time. -/
def linksOf (g : Graph) (x : Nat) (d : Direction) : Finset (Nat × Int) := (g.indexOf x d).stamps

/-- The pairs that flow slot `s` names at node `x`: a link in direction `s.first` and a link in
direction `s.second`, as far ends with times, whose times relate as `s.timing` says within
`span`, and whose far ends differ for a three-node slot and agree for a two-node slot. -/
def namedPairs (g : Graph) (x : Nat) (span : MaxSpan) (s : PairShape) :
    Finset ((Nat × Int) × (Nat × Int)) :=
  (g.linksOf x s.first ×ˢ g.linksOf x s.second).filter fun p =>
    s.timing.relates span p.1.2 p.2.2 && s.keep p.1.1 p.2.1

end Graph

namespace Built

variable {g : Graph} {directed : Bool} {ops : List GraphOp}

/-- A link of an index is fixed by its far end and its time. -/
theorem entry_eq_of_stamp (h : Built g directed ops) {x : Nat} {d : Direction} {a b : Entry}
    (ha : (g.indexOf x d).Holds a) (hb : (g.indexOf x d).Holds b) (hn : a.nbr = b.nbr)
    (ht : a.time = b.time) : a = b := by
  have hea := h.holds_iff_linkAt?.1 ha
  have heb := h.holds_iff_linkAt?.1 hb
  rw [hn, ht, heb] at hea
  obtain ⟨ta, na, ea⟩ := a
  obtain ⟨tb, nb, eb⟩ := b
  simp only at hn ht hea
  rw [hn, ht, Option.some.inj hea]

theorem card_stamps (h : Built g directed ops) (x : Nat) (d : Direction) :
    (g.indexOf x d).stamps.card = (g.indexOf x d).entries.length := by
  unfold TimeIndex.stamps
  refine (List.toFinset_card_of_nodup ((TimeIndex.nodup_entries _ h.nodup_links).map_on
    fun a ha b hb hab => ?_)).trans (List.length_map _)
  simp only [Prod.mk.injEq] at hab
  exact h.entry_eq_of_stamp (TimeIndex.mem_entries.1 ha) (TimeIndex.mem_entries.1 hb) hab.1 hab.2

/-- A flow slot names as many pairs of far ends with times as it counts pairs of links. -/
theorem card_namedPairs (h : Built g directed ops)
    (hstamps : ∀ e ∈ g.edges.toList, Stamp.InRange e.time) (x : Nat) (span : MaxSpan)
    (s : PairShape) : (g.namedPairs x span s).card = (g.pairs x span s).length := by
  let key : Entry × Entry → (Nat × Int) × (Nat × Int) := fun p => ((p.1.nbr, p.1.time), (p.2.nbr, p.2.time))
  have hinj : ∀ p ∈ g.pairs x span s, ∀ p' ∈ g.pairs x span s, key p = key p' → p = p' := by
    rintro ⟨a, b⟩ hp ⟨a', b'⟩ hp' hk
    rw [Graph.pairs, TimeIndex.mem_pairsWithin] at hp hp'
    simp only [key, Prod.mk.injEq] at hk
    rw [h.entry_eq_of_stamp hp.1 hp'.1 hk.1.1 hk.1.2, h.entry_eq_of_stamp hp.2.1 hp'.2.1 hk.2.1 hk.2.2]
  have hnd : ((g.pairs x span s).map key).Nodup :=
    (TimeIndex.nodup_pairsWithin _ _ _ _ h.nodup_links h.nodup_links).map_on hinj
  have hset : g.namedPairs x span s = ((g.pairs x span s).map key).toFinset := by
    ext ⟨⟨u, t₁⟩, ⟨w, t₂⟩⟩
    simp only [Graph.namedPairs, Graph.linksOf, Finset.mem_filter, Finset.mem_product,
      TimeIndex.mem_stamps, List.mem_toFinset, List.mem_map, Graph.pairs, TimeIndex.mem_pairsWithin,
      Bool.and_eq_true, key, Prod.exists, Prod.mk.injEq]
    constructor
    · rintro ⟨⟨⟨e₁, h₁⟩, ⟨e₂, h₂⟩⟩, hrel, hkeep⟩
      have hw := (s.timing.contains_window_eq span (h.inRange_of_holds hstamps h₁)
        (h.inRange_of_holds hstamps h₂)).trans hrel
      exact ⟨_, _, ⟨h₁, h₂, hw, hkeep⟩, ⟨rfl, rfl⟩, rfl, rfl⟩
    · rintro ⟨a, b, ⟨h₁, h₂, hw, hkeep⟩, ⟨rfl, rfl⟩, rfl, rfl⟩
      have hrel := (s.timing.contains_window_eq span (h.inRange_of_holds hstamps h₁)
        (h.inRange_of_holds hstamps h₂)).symm.trans hw
      exact ⟨⟨⟨a.edge, h₁⟩, ⟨b.edge, h₂⟩⟩, hrel, hkeep⟩
  rw [hset, List.toFinset_card_of_nodup hnd, List.length_map]

end Built

theorem Tally.profile_none (slots : List (List Nat)) : Tally.profile none slots = slots.map List.sum := by
  unfold Tally.profile
  conv_rhs => rw [← List.zipIdx_map_fst 0 slots]
  rw [List.map_map]
  rfl

/-- Without limits, the flow profile of a node counts, slot by slot, the pairs of its links that
the slot names: incoming then outgoing links later within the span (slots 0 and 3, and 7 and 10
for a repeated far end), earlier within the span (1 and 8) and at the same time (2 and 9); two
incoming (4) or two outgoing links (6) with distinct far ends at one time; outgoing then
outgoing links later within the span (5 and 11); and for an undirected graph, reciprocal then
reciprocal links later within the span (0 and 2) and at one time (1). The degree profile counts
the links in each direction. Links are taken as far ends with times, and timestamps are signed
64-bit values. -/
theorem profiles_count_named_pairs (directed : Bool) (ops : List GraphOp)
    (hstamps : ∀ e ∈ addedEdges ops, Stamp.InRange e.time) (x : Nat) (span : MaxSpan) :
    let g := Graph.ofOps directed ops
    let count := fun first second timing distinct =>
      (g.namedPairs x span ⟨first, second, timing, distinct⟩).card
    g.flow x none span =
      (if directed then
        [count .incoming .outgoing .later true, count .incoming .outgoing .earlier true,
          count .incoming .outgoing .same true, count .incoming .outgoing .later true,
          count .incoming .incoming .same true, count .outgoing .outgoing .later true,
          count .outgoing .outgoing .same true, count .incoming .outgoing .later false,
          count .incoming .outgoing .earlier false, count .incoming .outgoing .same false,
          count .incoming .outgoing .later false, count .outgoing .outgoing .later false]
      else
        [count .reciprocal .reciprocal .later true, count .reciprocal .reciprocal .same true,
          count .reciprocal .reciprocal .later false]) ∧
    g.degree x none =
      [(g.linksOf x .outgoing).card, (g.linksOf x .incoming).card, (g.linksOf x .reciprocal).card] := by
  intro g count
  have h : Built g directed ops := built_ofOps directed ops
  have hst : ∀ e ∈ g.edges.toList, Stamp.InRange e.time := by
    rw [h.edges_eq]
    exact hstamps
  constructor
  · rw [Graph.flow_eq_profile, Tally.profile_none, h.flowSlots_sum, h.directed_eq]
    simp only [← h.card_namedPairs hst]
    cases directed <;> rfl
  · rw [Graph.degree_eq_profile, Tally.profile_none, Graph.degreeSlots_sum]
    simp only [Graph.linksOf, h.card_stamps]
    rfl

/-- A hub with incoming links at times 1 and 3 (twice from node 1) and outgoing links at times
2, 3 and 9, counted within span 5. -/
theorem profiles_count_named_pairs_of_hub :
    let ops := [GraphOp.addNode 0 0, .addNode 1 0, .addNode 2 0, .addEdge 1 0 1 0,
      .addEdge 2 0 3 0, .addEdge 0 1 2 0, .addEdge 0 2 3 0, .addEdge 0 1 9 0, .addEdge 1 0 3 0]
    (∀ e ∈ addedEdges ops, Stamp.InRange e.time) ∧
      let g := Graph.ofOps true ops
      let count := fun first second timing distinct =>
        (g.namedPairs 0 (.within 5) ⟨first, second, timing, distinct⟩).card
      g.flow 0 none (.within 5) =
        [count .incoming .outgoing .later true, count .incoming .outgoing .earlier true,
          count .incoming .outgoing .same true, count .incoming .outgoing .later true,
          count .incoming .incoming .same true, count .outgoing .outgoing .later true,
          count .outgoing .outgoing .same true, count .incoming .outgoing .later false,
          count .incoming .outgoing .earlier false, count .incoming .outgoing .same false,
          count .incoming .outgoing .later false, count .outgoing .outgoing .later false] ∧
      g.degree 0 none =
        [(g.linksOf 0 .outgoing).card, (g.linksOf 0 .incoming).card, (g.linksOf 0 .reciprocal).card] :=
  ⟨by decide, profiles_count_named_pairs true _ (by decide) 0 (.within 5)⟩

example : (Graph.ofOps true [.addNode 0 0, .addNode 1 0, .addNode 2 0, .addEdge 1 0 1 0,
    .addEdge 2 0 3 0, .addEdge 0 1 2 0, .addEdge 0 2 3 0, .addEdge 0 1 9 0,
    .addEdge 1 0 3 0]).flow 0 none (.within 5) = [1, 1, 1, 1, 2, 1, 0, 1, 1, 1, 1, 0] := by
  decide

end TemporalMotif
