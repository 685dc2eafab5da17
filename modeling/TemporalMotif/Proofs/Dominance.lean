import TemporalMotif.Match.Domain
import TemporalMotif.Proofs.Embedding
import TemporalMotif.Proofs.Counting

/-! # Domains keep every occurrence

An occurrence carries each entry of a query node's index to an entry of its image, and each
pair of entries that a flow slot of the query counts to a pair that the same slot of the target
counts: directions are kept, times compare as before, two far ends are equal exactly when
their images are, and a pair that the query counts with an unbounded window lies within the
span in the target. So the image's degree and flow profiles dominate the query node's, slot by
slot, and capping a target slot at the largest query count keeps that. The main statement is
`domains_keep_occurrences`. -/

namespace TemporalMotif

namespace Profile

theorem get_eq_zero {p : Profile} {k : Nat} (hk : p.length ≤ k) : p.get k = 0 := by
  rw [get, List.getD_eq_getElem?_getD, List.getElem?_eq_none hk]
  rfl

theorem dominates_of_get_le {p q : Profile} (h : ∀ k, q.get k ≤ p.get k) : p.dominates q = true := by
  simp only [dominates, List.all_eq_true, decide_eq_true_eq]
  exact fun k _ => h k

theorem get_mergeMax (p q : Profile) (k : Nat) : (mergeMax p q).get k = max (p.get k) (q.get k) := by
  by_cases hk : k < max p.length q.length
  · rw [get, List.getD_eq_getElem?_getD, mergeMax, List.getElem?_map, List.getElem?_range hk]
    rfl
  · rw [get_eq_zero (by simp [mergeMax]; omega), get_eq_zero (by omega), get_eq_zero (by omega)]
    rfl

/-- A fold of `mergeMax` is at least its start and every profile it merges. -/
theorem le_get_foldl_mergeMax {α : Type} (f : α → Profile) (xs : List α) (init : Profile)
    (k : Nat) :
    init.get k ≤ (xs.foldl (fun p s => mergeMax p (f s)) init).get k ∧
      ∀ s ∈ xs, (f s).get k ≤ (xs.foldl (fun p s => mergeMax p (f s)) init).get k := by
  induction xs generalizing init with
  | nil => exact ⟨Nat.le_refl _, fun s hs => nomatch hs⟩
  | cons s xs ih =>
    obtain ⟨hinit, hrest⟩ := ih (mergeMax init (f s))
    rw [get_mergeMax] at hinit
    refine ⟨Nat.le_trans (Nat.le_max_left _ _) hinit, fun s' hs' => ?_⟩
    rcases List.mem_cons.1 hs' with rfl | hs'
    · exact Nat.le_trans (Nat.le_max_right _ _) hinit
    · exact hrest s' hs'

end Profile

namespace Tally

theorem capped_none (xs : List Nat) : capped none xs = xs.sum := rfl

theorem get_profile (limits : Option Profile) (slots : List (List Nat)) (k : Nat) :
    (profile limits slots).get k = ((slots[k]?).map (capped (Profile.capOf limits k))).getD 0 := by
  rw [Profile.get, List.getD_eq_getElem?_getD, profile, List.getElem?_map, List.getElem?_zipIdx]
  cases slots[k]? <;> simp

/-- A capped count is at least the cap or the whole sum, whichever is smaller. -/
theorem min_le_runUpTo (cap : Nat) : ∀ (acc : Nat) (xs : List Nat), min cap (acc + xs.sum) ≤ runUpTo cap acc xs
  | acc, [] => by
    rw [runUpTo, List.sum_nil, Nat.add_zero]
    exact Nat.min_le_right _ _
  | acc, x :: xs => by
    have ih := min_le_runUpTo cap (acc + x) xs
    rw [runUpTo]
    split
    · omega
    · rw [List.sum_cons]
      omega

/-- Capped slots dominate uncapped ones when each slot sum is at least the other's and the cap is
at least the uncapped count. -/
theorem dominates_profile {qs ts : List (List Nat)} {cap : Profile}
    (hle : ∀ k : Nat, ((qs.map List.sum)[k]?).getD 0 ≤ ((ts.map List.sum)[k]?).getD 0)
    (hcap : ∀ k, (profile none qs).get k ≤ cap.get k) :
    (profile (some cap) ts).dominates (profile none qs) = true := by
  refine Profile.dominates_of_get_le fun k => ?_
  have hk := hle k
  have hc := hcap k
  have hnone : Profile.capOf none k = none := rfl
  have hsome : Profile.capOf (some cap) k = some (cap.get k) := rfl
  simp only [get_profile, hnone, hsome] at hc ⊢
  rw [List.getElem?_map, List.getElem?_map] at hk
  cases hq : qs[k]? with
  | none => exact Nat.zero_le _
  | some xs =>
    simp only [hq, Option.map_some, Option.getD_some, capped_none] at hk hc ⊢
    cases ht : ts[k]? with
    | none =>
      simp only [ht, Option.map_none, Option.getD_none] at hk
      exact Nat.le_trans hk (Nat.zero_le _)
    | some ys =>
      have hrun := min_le_runUpTo (cap.get k) 0 ys
      rw [Nat.zero_add] at hrun
      simp only [ht, Option.map_some, Option.getD_some, capped] at hk ⊢
      omega

end Tally

/-- Two sums of one list compare as their terms do. -/
theorem getD_map_le {α : Type} (l : List α) {f g : α → Nat} (h : ∀ s ∈ l, f s ≤ g s) (k : Nat) :
    ((l.map f)[k]?).getD 0 ≤ ((l.map g)[k]?).getD 0 := by
  rw [List.getElem?_map, List.getElem?_map]
  cases hs : l[k]? with
  | none => exact Nat.le_refl _
  | some s => exact h s (List.mem_of_getElem? hs)

theorem lt_of_compare_eq {s t s' t' : Int} (hord : compare s' t' = compare s t) (h : s < t) :
    s' < t' := by
  rw [← Int.compare_eq_lt, hord, Int.compare_eq_lt]
  exact h

/-- A second time that an unbounded window admits is admitted by the window of the span once
both times are mapped to timestamps in the same order and within the span. -/
theorem Timing.contains_window (τ : Timing) (span : MaxSpan) {s t s' t' : Int}
    (hord : compare s' t' = compare s t) (hs' : Stamp.InRange s') (ht' : Stamp.InRange t')
    (hspan : ∀ v, span = .within v → s' - t' ≤ v ∧ t' - s' ≤ v)
    (h : (τ.window .unbounded s).contains t = true) : (τ.window span s').contains t' = true := by
  unfold Stamp.InRange Stamp.least Stamp.greatest at hs' ht'
  cases τ with
  | later =>
    have hlt : s' < t' := lt_of_compare_eq hord (by
      simpa [window, MaxSpan.after, Window.contains, Endpoint.admitsAbove, Endpoint.admitsBelow] using h)
    cases span with
    | unbounded =>
      simp [window, MaxSpan.after, Window.contains, Endpoint.admitsAbove, Endpoint.admitsBelow, hlt]
    | within v =>
      have hv := (hspan v rfl).2
      simp only [window, MaxSpan.after, Window.contains, Endpoint.admitsAbove,
        Endpoint.admitsBelow, Stamp.addSat, Stamp.clamp, Stamp.least, Stamp.greatest,
        Bool.and_eq_true, decide_eq_true_eq]
      omega
  | earlier =>
    have hlt : t' < s' := by
      have hord' : compare t' s' = compare t s := by
        rw [← Int.compare_swap s' t', ← Int.compare_swap s t, hord]
      exact lt_of_compare_eq hord' (by
        simpa [window, MaxSpan.before, Window.contains, Endpoint.admitsAbove, Endpoint.admitsBelow]
          using h)
    cases span with
    | unbounded =>
      simp [window, MaxSpan.before, Window.contains, Endpoint.admitsAbove, Endpoint.admitsBelow, hlt]
    | within v =>
      have hv := (hspan v rfl).1
      simp only [window, MaxSpan.before, Window.contains, Endpoint.admitsAbove,
        Endpoint.admitsBelow, Stamp.subSat, Stamp.clamp, Stamp.least, Stamp.greatest,
        Bool.and_eq_true, decide_eq_true_eq]
      omega
  | same =>
    have hts : t = s := by simpa [window, Window.contains_exactly] using h
    have heq : s' = t' := by rw [← Int.compare_eq_eq, hord, Int.compare_eq_eq, hts]
    simp [window, Window.contains_exactly, heq]

/-- The far-end test of a slot reads the same through an injective node map. -/
theorem PairShape.keep_map (s : PairShape) {φ : Nat → Nat} {a b : Nat} (hinj : φ a = φ b → a = b) :
    s.keep (φ a) (φ b) = s.keep a b := by
  have hiff : φ a = φ b ↔ a = b := ⟨hinj, fun h => h ▸ rfl⟩
  obtain ⟨first, second, timing, distinct⟩ := s
  unfold keep
  cases distinct
  · simp only [Bool.false_eq_true, if_false]
    rw [Bool.eq_iff_iff, beq_iff_eq, beq_iff_eq]
    exact hiff
  · simp only [if_true]
    rw [Bool.eq_iff_iff, bne_iff_ne, bne_iff_ne]
    exact not_congr hiff

namespace Built

variable {g : Graph} {directed : Bool} {ops : List GraphOp}

theorem nodup_links (h : Built g directed ops) {x : Nat} {d : Direction} :
    ∀ mo ∈ (g.indexOf x d).moments, mo.links.Nodup :=
  fun _ hmo => (h.nodup_nbrs hmo).of_map _

theorem timeOf_edge (h : Built g directed ops) {x : Nat} {d : Direction} {a : Entry}
    (ha : (g.indexOf x d).Holds a) : g.timeOf a.edge = a.time := by
  obtain ⟨-, -, e, he, het, -⟩ := h.holds_iff.1 ha
  simp [Graph.timeOf, he, het]

theorem inRange_of_holds (h : Built g directed ops)
    (hstamps : ∀ e ∈ g.edges.toList, Stamp.InRange e.time) {x : Nat} {d : Direction} {a : Entry}
    (ha : (g.indexOf x d).Holds a) : Stamp.InRange a.time := by
  obtain ⟨-, -, e, he, het, -⟩ := h.holds_iff.1 ha
  rw [← het]
  exact hstamps e (List.mem_of_getElem? (by rw [Array.getElem?_toList]; exact he))

theorem nbr_declared (h : Built g directed ops)
    (hends : ∀ e ∈ g.edges.toList, g.containsNode e.source = true ∧ g.containsNode e.dest = true)
    {x : Nat} {d : Direction} {a : Entry} (ha : (g.indexOf x d).Holds a) :
    a.nbr ∈ g.nodes.map Prod.fst := by
  obtain ⟨-, -, e, he, -, hx⟩ := h.holds_iff.1 ha
  have hdecl := hends e (List.mem_of_getElem? (by rw [Array.getElem?_toList]; exact he))
  have hcontains : ∀ y, g.containsNode y = true → y ∈ g.nodes.map Prod.fst := fun y hy => by
    simpa [Graph.containsNode] using hy
  rcases Edge.mem_ends hx with hn | hn
  · rw [hn]; exact hcontains _ hdecl.1
  · rw [hn]; exact hcontains _ hdecl.2

end Built

namespace IsOccurrence

variable {q t : Graph} {directed : Bool} {qops tops : List GraphOp} {span : MaxSpan}
  {m : Embedding}

/-- An occurrence maps the entries of a query node's index injectively into those of its image. -/
theorem length_entries_le (hq : Built q directed qops) (ht : Built t directed tops)
    (hocc : IsOccurrence q t span m) (x : Nat) (d : Direction) :
    (q.indexOf x d).entries.length ≤ (t.indexOf (m.node x) d).entries.length := by
  refine length_le_of_injOn (m.entry t) (TimeIndex.nodup_entries _ hq.nodup_links) ?_ ?_
  · intro a ha b hb hab
    exact hocc.entry_injOn hq (TimeIndex.mem_entries.1 ha) (TimeIndex.mem_entries.1 hb) hab
  · intro a ha
    exact TimeIndex.mem_entries.2 (hocc.holds_entry hq ht (TimeIndex.mem_entries.1 ha))

theorem contains_entry (hq : Built q directed qops) (ht : Built t directed tops)
    (hocc : IsOccurrence q t span m) (hstamps : ∀ e ∈ t.edges.toList, Stamp.InRange e.time)
    {x : Nat} {d d' : Direction} {a b : Entry} (ha : (q.indexOf x d).Holds a)
    (hb : (q.indexOf x d').Holds b) (τ : Timing) (h : (τ.window .unbounded a.time).contains b.time = true) :
    (τ.window span (m.entry t a).time).contains (m.entry t b).time = true := by
  have hla := (hq.holds_iff.1 ha).2.1
  have hlb := (hq.holds_iff.1 hb).2.1
  have hord : compare (m.entry t a).time (m.entry t b).time = compare a.time b.time := by
    rw [Embedding.entry, Embedding.entry, hocc.compare_timeOf hla hlb, hq.timeOf_edge ha,
      hq.timeOf_edge hb]
  exact τ.contains_window span hord (ht.inRange_of_holds hstamps (hocc.holds_entry hq ht ha))
    (ht.inRange_of_holds hstamps (hocc.holds_entry hq ht hb))
    (fun v hv => ⟨hocc.sub_timeOf_le hv hla hlb, hocc.sub_timeOf_le hv hlb hla⟩) h

/-- An occurrence maps the pairs that a flow slot counts at a query node injectively into those
it counts at the image, the query counted with an unbounded window and the target with the
span. -/
theorem length_pairs_le (hq : Built q directed qops) (ht : Built t directed tops)
    (hocc : IsOccurrence q t span m)
    (hends : ∀ e ∈ q.edges.toList, q.containsNode e.source = true ∧ q.containsNode e.dest = true)
    (hstamps : ∀ e ∈ t.edges.toList, Stamp.InRange e.time) (x : Nat) (s : PairShape) :
    (q.pairs x .unbounded s).length ≤ (t.pairs (m.node x) span s).length := by
  refine length_le_of_injOn (fun p => (m.entry t p.1, m.entry t p.2))
    (TimeIndex.nodup_pairsWithin _ _ _ _ hq.nodup_links hq.nodup_links) ?_ ?_
  · rintro ⟨a, b⟩ hab ⟨a', b'⟩ hab' heq
    obtain ⟨ha, hb, -, -⟩ := TimeIndex.mem_pairsWithin.1 hab
    obtain ⟨ha', hb', -, -⟩ := TimeIndex.mem_pairsWithin.1 hab'
    obtain ⟨h1, h2⟩ := Prod.mk.inj heq
    rw [hocc.entry_injOn hq ha ha' h1, hocc.entry_injOn hq hb hb' h2]
  · rintro ⟨a, b⟩ hab
    obtain ⟨ha, hb, hw, hk⟩ := TimeIndex.mem_pairsWithin.1 hab
    refine TimeIndex.mem_pairsWithin.2 ⟨hocc.holds_entry hq ht ha, hocc.holds_entry hq ht hb,
      hocc.contains_entry hq ht hstamps ha hb s.timing hw, ?_⟩
    have hinj : m.node a.nbr = m.node b.nbr → a.nbr = b.nbr :=
      hocc.node_injOn hq.nodup_ids (hq.nbr_declared hends ha) (hq.nbr_declared hends hb)
    show s.keep (m.node a.nbr) (m.node b.nbr) = true
    rw [s.keep_map hinj]
    exact hk

theorem degree_dominates (hq : Built q directed qops) (ht : Built t directed tops)
    (hocc : IsOccurrence q t span m) (x : Nat) (cap : Profile)
    (hcap : ∀ k, (q.degree x none).get k ≤ cap.get k) :
    (t.degree (m.node x) (some cap)).dominates (q.degree x none) = true := by
  simp only [Graph.degree_eq_profile] at hcap ⊢
  refine Tally.dominates_profile (fun k => ?_) hcap
  rw [Graph.degreeSlots_sum, Graph.degreeSlots_sum]
  exact getD_map_le Direction.all (fun d _ => hocc.length_entries_le hq ht x d) k

theorem flow_dominates (hq : Built q directed qops) (ht : Built t directed tops)
    (hocc : IsOccurrence q t span m)
    (hends : ∀ e ∈ q.edges.toList, q.containsNode e.source = true ∧ q.containsNode e.dest = true)
    (hstamps : ∀ e ∈ t.edges.toList, Stamp.InRange e.time) (x : Nat) (cap : Profile)
    (hcap : ∀ k, (q.flow x none .unbounded).get k ≤ cap.get k) :
    (t.flow (m.node x) (some cap) span).dominates (q.flow x none .unbounded) = true := by
  simp only [Graph.flow_eq_profile] at hcap ⊢
  refine Tally.dominates_profile (fun k => ?_) hcap
  rw [hq.flowSlots_sum, ht.flowSlots_sum, hq.directed_eq, ht.directed_eq]
  exact getD_map_le _ (fun s _ => hocc.length_pairs_le hq ht hends hstamps x s) k

end IsOccurrence

theorem mem_of_lookup {l : List (Nat × Nat)} {k v : Nat} (h : l.lookup k = some v) : (k, v) ∈ l := by
  obtain ⟨l₁, l₂, rfl, -⟩ := List.lookup_eq_some_iff.1 h
  exact List.mem_append_right _ List.mem_cons_self

theorem Positions.mem_ofGraph (g : Graph) {p : Nat} (hp : p < (Positions.ofGraph g).size) :
    ((Positions.ofGraph g).node p, (Positions.ofGraph g).label p) ∈ g.nodes := by
  have hp' : p < g.nodes.length := by simpa [Positions.ofGraph, Positions.size] using hp
  have hnode : (Positions.ofGraph g).node p = g.nodes[p].1 := by
    simp [Positions.ofGraph, Positions.node, Array.getD_eq_getD_getElem?, hp']
  have hlabel : (Positions.ofGraph g).label p = g.nodes[p].2 := by
    simp [Positions.ofGraph, Positions.label, Array.getD_eq_getD_getElem?, hp']
  rw [hnode, hlabel]
  exact List.getElem_mem hp'

namespace Domains

/-- A target node of the position's label whose capped profiles dominate the query node's is in
the position's domain. -/
theorem mem_build {q target : Graph} {pos : Positions} {span : MaxSpan} {p y : Nat}
    (hp : p < pos.size) (hy : (y, pos.label p) ∈ target.nodes)
    (hdeg : (target.degree y (some ((signatures q pos).foldl
      (fun c s => Profile.mergeMax c s.degree) []))).dominates (q.degree (pos.node p) none) = true)
    (hflow : (target.flow y (some ((signatures q pos).foldl
      (fun c s => Profile.mergeMax c s.flow) [])) span).dominates
        (q.flow (pos.node p) none .unbounded) = true) :
    y ∈ (build q target pos span).getD p [] := by
  have hsig : (signatures q pos)[p]? =
      some ⟨pos.label p, q.degree (pos.node p) none, q.flow (pos.node p) none .unbounded⟩ := by
    simp [signatures, hp]
  have hany : (signatures q pos).any (·.label == pos.label p) = true :=
    List.any_eq_true.2 ⟨_, List.mem_of_getElem? hsig, beq_self_eq_true _⟩
  simp only [build, Array.getD_eq_getD_getElem?, List.getElem?_toArray, List.getElem?_map, hsig,
    Option.map_some, Option.getD_some, List.mem_filterMap, List.mem_map, List.mem_filter]
  refine ⟨_, ⟨(y, pos.label p), ⟨hy, hany⟩, rfl⟩, ?_⟩
  simp [hdeg, hflow]

theorem mem_signatures (q : Graph) (pos : Positions) {p : Nat} (hp : p < pos.size) :
    (⟨pos.label p, q.degree (pos.node p) none, q.flow (pos.node p) none .unbounded⟩ : Signature) ∈
      signatures q pos :=
  List.mem_map.2 ⟨p, List.mem_range.2 hp, rfl⟩

theorem filterMap_sublist (c : Nat × Nat → Bool) {F : Nat × Nat → Option Nat}
    (hF : ∀ x y, F x = some y → y = x.1 ∧ c x = true) :
    ∀ l : List (Nat × Nat), (l.filterMap F).Sublist ((l.filter c).map Prod.fst)
  | [] => List.Sublist.slnil
  | x :: l => by
    have ih := filterMap_sublist c hF l
    rw [List.filter_cons]
    cases hx : F x with
    | none =>
      rw [List.filterMap_cons_none hx]
      split
      · exact ih.cons _
      · exact ih
    | some y =>
      rw [List.filterMap_cons_some hx]
      obtain ⟨rfl, hc⟩ := hF x y hx
      rw [if_pos hc]
      exact ih.cons_cons _

/-- A domain lists target nodes of its position's label, in the target's node order. -/
theorem sublist_build (q target : Graph) (pos : Positions) (span : MaxSpan) (p : Nat) :
    ((build q target pos span).getD p []).Sublist
      ((target.nodes.filter fun x => x.2 == pos.label p).map Prod.fst) := by
  simp only [build, Array.getD_eq_getD_getElem?, List.getElem?_toArray, List.getElem?_map]
  cases hs : (signatures q pos)[p]? with
  | none => exact List.nil_sublist _
  | some s =>
    have hlabel : s.label = pos.label p := by
      simp only [signatures, List.getElem?_map] at hs
      obtain ⟨k, hk, rfl⟩ := Option.map_eq_some_iff.1 hs
      obtain ⟨hk, rfl⟩ := List.getElem?_eq_some_iff.1 hk
      simp
    simp only [Option.map_some, Option.getD_some, List.filterMap_map]
    refine (filterMap_sublist (fun x => x.2 == pos.label p) ?_ _).trans
      ((List.filter_sublist.filter _).map _)
    intro x y hxy
    simp only [Function.comp_apply] at hxy
    split at hxy
    · rename_i hc
      cases hxy
      simp only [Bool.and_eq_true, beq_iff_eq] at hc
      simp [← hlabel, hc.1.1]
    · cases hxy

theorem label_of_mem_build {q target : Graph} {pos : Positions} {span : MaxSpan} {p y : Nat}
    (hids : (target.nodes.map Prod.fst).Nodup) (hy : y ∈ (build q target pos span).getD p []) :
    target.label? y = some (pos.label p) := by
  obtain ⟨⟨n, l⟩, hnl, rfl⟩ := List.mem_map.1 ((sublist_build q target pos span p).subset hy)
  obtain ⟨hmem, hl⟩ := List.mem_filter.1 hnl
  have hl' : l = pos.label p := beq_iff_eq.1 hl
  subst hl'
  exact lookup_of_mem hids hmem

theorem nodup_build (q target : Graph) (pos : Positions) (span : MaxSpan) (p : Nat)
    (hids : (target.nodes.map Prod.fst).Nodup) : ((build q target pos span).getD p []).Nodup :=
  ((sublist_build q target pos span p).trans (List.filter_sublist.map _)).nodup hids

end Domains

namespace IsOccurrence

variable {q t : Graph} {directed : Bool} {qops tops : List GraphOp} {span : MaxSpan}
  {m : Embedding}

/-- In every occurrence, the target node of each query position is in that position's domain. -/
theorem node_mem_domain (hq : Built q directed qops) (ht : Built t directed tops)
    (hends : ∀ e ∈ q.edges.toList, q.containsNode e.source = true ∧ q.containsNode e.dest = true)
    (hstamps : ∀ e ∈ t.edges.toList, Stamp.InRange e.time) (hocc : IsOccurrence q t span m)
    {p : Nat} (hp : p < (Positions.ofGraph q).size) :
    m.node ((Positions.ofGraph q).node p) ∈
      (Domains.build q t (Positions.ofGraph q) span).getD p [] := by
  have hnode := Positions.mem_ofGraph q hp
  have hx : (Positions.ofGraph q).node p ∈ q.nodes.map Prod.fst := List.mem_map_of_mem hnode
  have hlabel : t.label? (m.node ((Positions.ofGraph q).node p)) =
      some ((Positions.ofGraph q).label p) := by
    rw [hocc.node_label _ (hocc.mem_nodes hq.nodup_ids hx)]
    exact lookup_of_mem hq.nodup_ids hnode
  have hsig := Domains.mem_signatures q (Positions.ofGraph q) hp
  refine Domains.mem_build hp (mem_of_lookup hlabel) ?_ ?_
  · exact hocc.degree_dominates hq ht _ _
      fun k => (Profile.le_get_foldl_mergeMax (·.degree) _ _ k).2 _ hsig
  · exact hocc.flow_dominates hq ht hends hstamps _ _
      fun k => (Profile.le_get_foldl_mergeMax (·.flow) _ _ k).2 _ hsig

end IsOccurrence

/-- Domain filtering is sound: in every occurrence, the target node of each query position is in
that position's domain. The query and the target are built by `addNode`/`addEdge` calls of one
kind, every query edge joins two added query nodes, and the target's timestamps are in range. -/
theorem domains_keep_occurrences (directed : Bool) (qops tops : List GraphOp) (span : MaxSpan) :
    let q := Graph.ofOps directed qops
    let t := Graph.ofOps directed tops
    let pos := Positions.ofGraph q
    (∀ e ∈ q.edges.toList, q.containsNode e.source = true ∧ q.containsNode e.dest = true) →
    (∀ e ∈ t.edges.toList, Stamp.InRange e.time) →
    ∀ m, IsOccurrence q t span m → ∀ p < pos.size,
      m.node (pos.node p) ∈ (Domains.build q t pos span).getD p [] := by
  intro q t pos hends hstamps m hocc p hp
  exact hocc.node_mem_domain (built_ofOps directed qops) (built_ofOps directed tops) hends hstamps hp

/-- A one-edge query matched on the first of two edges of a three-node target, within span 2. -/
theorem domains_keep_occurrences_witness :
    let q := Graph.ofOps true [.addNode 0 7, .addNode 1 7, .addEdge 0 1 5 3]
    let t := Graph.ofOps true
      [.addNode 4 7, .addNode 2 7, .addNode 9 7, .addEdge 2 9 8 3, .addEdge 9 4 6 3]
    let m : Embedding := ⟨[(0, 2), (1, 9)], [(0, 0)]⟩
    (∀ e ∈ q.edges.toList, q.containsNode e.source = true ∧ q.containsNode e.dest = true) ∧
    (∀ e ∈ t.edges.toList, Stamp.InRange e.time) ∧ IsOccurrence q t (.within 2) m ∧
    ∀ p < (Positions.ofGraph q).size,
      m.node ((Positions.ofGraph q).node p) ∈
        (Domains.build q t (Positions.ofGraph q) (.within 2)).getD p [] := by
  intro q t m
  have hends : ∀ e ∈ q.edges.toList, q.containsNode e.source = true ∧ q.containsNode e.dest = true := by
    decide
  have hstamps : ∀ e ∈ t.edges.toList, Stamp.InRange e.time := by decide
  have hocc : IsOccurrence q t (.within 2) m := by decide
  exact ⟨hends, hstamps, hocc, domains_keep_occurrences true _ _ _ hends hstamps m hocc⟩

end TemporalMotif
