import TemporalMotif.Match.Order
import TemporalMotif.Proofs.Dominance

/-! # The matching order

The node order grows like a search through the query: the first node is drawn from all
nodes, each next one from the frontier of nodes next to those already ordered. Four facts
about a growth carry everything: its three lists together hold every position once, each
frontier node has an ordered neighbour, no unseen node has one, and each ordered node after the
first has an earlier neighbour. From them, the order of a connected query holds every position,
and each node state after the first is joined to an earlier one, so the edge states run through
the node states one after another. -/

namespace TemporalMotif

namespace Positions

theorem size_ofGraph (g : Graph) : (ofGraph g).size = g.nodes.length := by
  simp [ofGraph, size]

theorem node_ofGraph (g : Graph) {p : Nat} (hp : p < g.nodes.length) :
    (ofGraph g).node p = g.nodes[p].1 := by
  simp [ofGraph, node, Array.getD_eq_getD_getElem?, hp]

theorem position?_ofGraph_eq_some {g : Graph} {nbr r : Nat} (h : (ofGraph g).position? nbr = some r) :
    r < g.nodes.length ∧ (ofGraph g).node r = nbr := by
  unfold position? at h
  simp only [ofGraph, List.findIdx?_toArray, List.findIdx?_eq_some_iff_getElem] at h
  obtain ⟨hr, heq, -⟩ := h
  have hr' : r < g.nodes.length := by simpa using hr
  refine ⟨hr', ?_⟩
  rw [node_ofGraph g hr']
  simpa using heq

theorem position?_node {g : Graph} (hnd : (g.nodes.map Prod.fst).Nodup) {r : Nat}
    (hr : r < g.nodes.length) : (ofGraph g).position? ((ofGraph g).node r) = some r := by
  rw [node_ofGraph g hr]
  unfold position?
  simp only [ofGraph, List.findIdx?_toArray, List.findIdx?_eq_some_iff_getElem]
  have hr2 : r < (g.nodes.map Prod.fst).length := by simpa using hr
  refine ⟨hr2, by simp, fun j hj hbeq => ?_⟩
  have hj2 : j < (g.nodes.map Prod.fst).length := by omega
  have hjr : (g.nodes.map Prod.fst)[j] = (g.nodes.map Prod.fst)[r] := by simpa using hbeq
  have := (hnd.getElem_inj_iff).1 hjr
  omega

theorem node_injOn {g : Graph} (hnd : (g.nodes.map Prod.fst).Nodup) {p r : Nat}
    (hp : p < g.nodes.length) (hr : r < g.nodes.length)
    (h : (ofGraph g).node p = (ofGraph g).node r) : p = r := by
  have := position?_node hnd hp
  rw [h, position?_node hnd hr] at this
  exact (Option.some.inj this).symm

theorem exists_node_eq {g : Graph} {x : Nat} (hx : x ∈ g.nodes.map Prod.fst) :
    ∃ p < g.nodes.length, (ofGraph g).node p = x := by
  obtain ⟨⟨y, l⟩, hy, rfl⟩ := List.mem_map.1 hx
  obtain ⟨p, hp, hget⟩ := List.mem_iff_getElem.1 hy
  exact ⟨p, hp, by rw [node_ofGraph g hp, hget]⟩

end Positions

namespace MatchingOrder

variable {q : Graph} {pos : Positions} {sizes : List Nat}

theorem foldl_some_mem {f : Option (Nat × Nat) → Nat → Option (Nat × Nat)}
    (hf : ∀ b p r, f b p = some r → r.1 = p ∨ b = some r) :
    ∀ (pool : List Nat) (init : Option (Nat × Nat)) (r : Nat × Nat),
      pool.foldl f init = some r → r.1 ∈ pool ∨ init = some r
  | [], _, _, h => .inr h
  | p :: pool, init, r, h => by
    rcases foldl_some_mem hf pool (f init p) r h with hr | hr
    · exact .inl (List.mem_cons_of_mem _ hr)
    · rcases hf init p r hr with hp | hp
      · exact .inl (hp ▸ List.mem_cons_self)
      · exact .inr hp

theorem foldl_isSome {f : Option (Nat × Nat) → Nat → Option (Nat × Nat)}
    (hf : ∀ b p, (f b p).isSome) :
    ∀ (pool : List Nat) (init : Option (Nat × Nat)), pool ≠ [] → (pool.foldl f init).isSome
  | [], _, h => absurd rfl h
  | [p], init, _ => hf init p
  | p :: p' :: pool, init, _ => foldl_isSome hf (p' :: pool) (f init p) (List.cons_ne_nil _ _)

theorem pick_mem {pool reference : List Nat} {p : Nat}
    (h : pick q pos sizes pool reference = some p) : p ∈ pool := by
  unfold pick at h
  obtain ⟨r, hr, rfl⟩ := Option.map_eq_some_iff.1 h
  refine (foldl_some_mem (fun b p r hb => ?_) pool none r hr).resolve_right (fun h => nomatch h)
  cases b with
  | none => cases hb; exact .inl rfl
  | some b =>
    simp only at hb
    split at hb
    · cases hb; exact .inl rfl
    · exact .inr hb

theorem pick_isSome {pool reference : List Nat} (h : pool ≠ []) :
    (pick q pos sizes pool reference).isSome := by
  unfold pick
  rw [Option.isSome_map]
  refine foldl_isSome (fun b p => ?_) pool none h
  cases b with
  | none => rfl
  | some b =>
    simp only
    split <;> rfl

/-- One visit of `reach`: an unseen position met in direction `d` joins the frontier. -/
def visitStep (pos : Positions) (state : Nat) (g : Growth) (dn : Direction × Nat) : Growth :=
  match pos.position? dn.2 with
  | some r =>
    if g.unseen.contains r then
      { g with unseen := g.unseen.erase r, frontier := g.frontier ++ [r]
               parent := (r, ⟨state, dn.1⟩) :: g.parent }
    else g
  | none => g

/-- The neighbours of `x` in the order `reach` meets them, with their directions. -/
def visits (q : Graph) (x : Nat) : List (Direction × Nat) :=
  Direction.all.flatMap fun d =>
    (q.indexOf x d).moments.flatMap fun m => m.links.map fun l => (d, l.1)

theorem reach_eq (q : Graph) (pos : Positions) (state p : Nat) (g : Growth) :
    reach q pos state p g = (visits q (pos.node p)).foldl (visitStep pos state) g := by
  simp only [reach, visits, List.foldl_flatMap, List.foldl_map]
  rfl

theorem exists_mem_visits_iff (q : Graph) (x nbr : Nat) :
    (∃ d, (d, nbr) ∈ visits q x) ↔ q.areNeighbours x nbr = true := by
  simp only [visits, List.mem_flatMap, List.mem_map, Prod.mk.injEq, Graph.areNeighbours,
    List.any_eq_true, TimeIndex.hasNeighbour, Links.hasNeighbour_iff, Links.nbrs]
  constructor
  · rintro ⟨d, d', hd', m, hm, l, hl, rfl, rfl⟩
    exact ⟨_, hd', m, hm, l, hl, rfl⟩
  · rintro ⟨d, hd, m, hm, l, hl, rfl⟩
    exact ⟨d, d, hd, m, hm, l, hl, rfl, rfl⟩

/-- Positions `p` and `r` hold neighbouring query nodes. -/
def Adjacent (q : Graph) (pos : Positions) (p r : Nat) : Prop :=
  q.areNeighbours (pos.node p) (pos.node r) = true

theorem visitStep_spec (state : Nat) (g : Growth) (dn : Direction × Nat) (hnd : g.unseen.Nodup) :
    (visitStep pos state g dn).ordered = g.ordered ∧
    (visitStep pos state g dn).unseen.Nodup ∧
    (g.ordered ++ (visitStep pos state g dn).frontier ++ (visitStep pos state g dn).unseen).Perm
      (g.ordered ++ g.frontier ++ g.unseen) ∧
    (∀ r ∈ (visitStep pos state g dn).frontier, r ∈ g.frontier ∨ pos.position? dn.2 = some r) ∧
    (∀ r ∈ (visitStep pos state g dn).unseen, r ∈ g.unseen ∧ pos.position? dn.2 ≠ some r) := by
  cases hpos : pos.position? dn.2 with
  | none =>
    have hstep : visitStep pos state g dn = g := by simp only [visitStep, hpos]
    rw [hstep]
    exact ⟨rfl, hnd, List.Perm.refl _, fun r hr => .inl hr, fun r hr => ⟨hr, fun h => nomatch h⟩⟩
  | some r0 =>
    by_cases hc : g.unseen.contains r0 = true
    · have hmem : r0 ∈ g.unseen := by simpa using hc
      have hstep : visitStep pos state g dn =
          { g with unseen := g.unseen.erase r0, frontier := g.frontier ++ [r0],
                   parent := (r0, ⟨state, dn.1⟩) :: g.parent } := by
        simp only [visitStep, hpos, hc, if_true]
      rw [hstep]
      refine ⟨rfl, hnd.erase r0, ?_, fun r hr => ?_, fun r hr => ?_⟩
      · rw [List.append_assoc, List.append_assoc, List.append_assoc, List.singleton_append]
        exact ((List.perm_cons_erase hmem).symm.append_left _).append_left _
      · rcases List.mem_append.1 hr with hr | hr
        · exact .inl hr
        · exact .inr (by rw [List.mem_singleton.1 hr])
      · obtain ⟨hne, hr⟩ := (hnd.mem_erase_iff).1 hr
        exact ⟨hr, fun h => hne (Option.some.inj h).symm⟩
    · have hstep : visitStep pos state g dn = g := by
        simp only [visitStep, hpos, hc, if_false, Bool.false_eq_true]
      rw [hstep]
      refine ⟨rfl, hnd, List.Perm.refl _, fun r hr => .inl hr, fun r hr => ⟨hr, fun h => ?_⟩⟩
      cases Option.some.inj h
      exact hc (by simpa using hr)

theorem foldl_visitStep_spec (state : Nat) :
    ∀ (L : List (Direction × Nat)) (g : Growth), g.unseen.Nodup →
      (L.foldl (visitStep pos state) g).ordered = g.ordered ∧
      (g.ordered ++ (L.foldl (visitStep pos state) g).frontier ++
        (L.foldl (visitStep pos state) g).unseen).Perm (g.ordered ++ g.frontier ++ g.unseen) ∧
      (∀ r ∈ (L.foldl (visitStep pos state) g).frontier,
        r ∈ g.frontier ∨ ∃ dn ∈ L, pos.position? dn.2 = some r) ∧
      (∀ r ∈ (L.foldl (visitStep pos state) g).unseen,
        r ∈ g.unseen ∧ ∀ dn ∈ L, pos.position? dn.2 ≠ some r)
  | [], g, _ => ⟨rfl, List.Perm.refl _, fun r hr => .inl hr, fun r hr => ⟨hr, fun _ h => nomatch h⟩⟩
  | dn :: L, g, hnd => by
    obtain ⟨hord, hnd', hperm, hfr, hun⟩ := @visitStep_spec pos state g dn hnd
    obtain ⟨hord', hperm', hfr', hun'⟩ := foldl_visitStep_spec state L (visitStep pos state g dn) hnd'
    rw [List.foldl_cons]
    rw [hord] at hord' hperm'
    refine ⟨hord', hperm'.trans hperm, fun r hr => ?_, fun r hr => ?_⟩
    · rcases hfr' r hr with hr | ⟨dn', hdn', h⟩
      · rcases hfr r hr with hr | h
        · exact .inl hr
        · exact .inr ⟨dn, List.mem_cons_self, h⟩
      · exact .inr ⟨dn', List.mem_cons_of_mem _ hdn', h⟩
    · obtain ⟨hr1, hr2⟩ := hun' r hr
      obtain ⟨hr3, hr4⟩ := hun r hr1
      refine ⟨hr3, fun dn' hdn' => ?_⟩
      rcases List.mem_cons.1 hdn' with rfl | hdn'
      · exact hr4
      · exact hr2 dn' hdn'

theorem grow_eq_some {g g' : Growth} {state : Nat} (h : grow q pos sizes g state = some g') :
    ∃ p, pick q pos sizes (if state = 0 then g.unseen else g.frontier)
        (if state = 0 then g.unseen else g.ordered) = some p ∧
      g' = reach q pos state p { g with ordered := g.ordered ++ [p], unseen := g.unseen.erase p,
                                        frontier := g.frontier.erase p } := by
  unfold grow at h
  by_cases hs : state = 0
  · simp only [hs, if_true] at h ⊢
    cases hp : pick q pos sizes g.unseen g.unseen with
    | none => rw [hp] at h; cases h
    | some p => rw [hp] at h; exact ⟨p, rfl, (Option.some.inj h).symm⟩
  · simp only [hs, if_false] at h ⊢
    cases hp : pick q pos sizes g.frontier g.ordered with
    | none => rw [hp] at h; cases h
    | some p => rw [hp] at h; exact ⟨p, rfl, (Option.some.inj h).symm⟩

/-- What a growth keeps: its lists together hold every position once, a frontier position has
an ordered neighbour and an unseen one has none, and each ordered position after the first has
an earlier neighbour. -/
structure GrowthInv (q : Graph) (pos : Positions) (g : Growth) : Prop where
  nodup : (g.ordered ++ g.frontier ++ g.unseen).Nodup
  mem_iff : ∀ r, r ∈ g.ordered ++ g.frontier ++ g.unseen ↔ r < pos.size
  frontier_adj : ∀ r ∈ g.frontier, ∃ p ∈ g.ordered, Adjacent q pos p r
  unseen_closed : ∀ p ∈ g.ordered, ∀ r ∈ g.unseen, ¬ Adjacent q pos p r
  parent : ∀ i r, 0 < i → g.ordered[i]? = some r →
    ∃ j < i, ∃ p, g.ordered[j]? = some p ∧ Adjacent q pos p r
  start : g.ordered = [] → g.frontier = []

theorem GrowthInv.init (q : Graph) (pos : Positions) :
    GrowthInv q pos ⟨[], [], List.range pos.size, []⟩ where
  nodup := by simpa using List.nodup_range
  mem_iff := by simp
  frontier_adj := by simp
  unseen_closed := by simp
  parent := by simp
  start := fun _ => rfl

/-- Moving a member of the frontier or of the unseen positions to the end of the ordered ones
keeps the three lists together a permutation of what they were. -/
theorem perm_move {O F U : List Nat} {p : Nat} (hnd : (O ++ F ++ U).Nodup) (hp : p ∈ F ++ U) :
    ((O ++ [p]) ++ F.erase p ++ U.erase p).Perm (O ++ F ++ U) := by
  have hFU : (F ++ U).Nodup := (List.nodup_append.1 (by simpa [List.append_assoc] using hnd)).2.1
  rcases List.mem_append.1 hp with hF | hU
  · have hnU : p ∉ U := fun hU => (List.nodup_append.1 hFU).2.2 p hF p hU rfl
    rw [List.erase_of_not_mem hnU, List.append_assoc O, List.singleton_append, List.append_assoc,
      List.append_assoc]
    exact ((List.perm_cons_erase hF).symm.append_right U).append_left O
  · have hnF : p ∉ F := fun hF => (List.nodup_append.1 hFU).2.2 p hF p hU rfl
    rw [List.erase_of_not_mem hnF, List.append_assoc O, List.singleton_append, List.append_assoc O,
      List.append_assoc O, List.cons_append]
    refine List.Perm.append_left O ?_
    exact (List.perm_middle.symm).trans (List.Perm.append_left F (List.perm_cons_erase hU).symm)

/-- A step of the growth keeps its invariant and appends one position to the order. -/
theorem GrowthInv.grow (hids : (q.nodes.map Prod.fst).Nodup) {g g' : Growth} {state : Nat}
    (hinv : GrowthInv q (Positions.ofGraph q) g) (hlen : g.ordered.length = state)
    (h : grow q (Positions.ofGraph q) sizes g state = some g') :
    GrowthInv q (Positions.ofGraph q) g' ∧ ∃ p, g'.ordered = g.ordered ++ [p] := by
  obtain ⟨p, hpick, rfl⟩ := grow_eq_some h
  have hpool := pick_mem hpick
  have hpFU : p ∈ g.frontier ++ g.unseen := by
    split at hpool
    · exact List.mem_append_right _ hpool
    · exact List.mem_append_left _ hpool
  let g0 : Growth := { g with ordered := g.ordered ++ [p], unseen := g.unseen.erase p,
                              frontier := g.frontier.erase p }
  have hperm0 : (g0.ordered ++ g0.frontier ++ g0.unseen).Perm (g.ordered ++ g.frontier ++ g.unseen) :=
    perm_move hinv.nodup hpFU
  have hnd0 : g0.unseen.Nodup := ((hperm0.nodup_iff.2 hinv.nodup).sublist (List.sublist_append_right _ _))
  obtain ⟨hord, hperm, hfr, hun⟩ := foldl_visitStep_spec state (visits q ((Positions.ofGraph q).node p)) g0 hnd0
  have hall := hperm.trans hperm0
  rw [reach_eq]
  refine ⟨⟨?_, ?_, ?_, ?_, ?_, ?_⟩, p, hord⟩
  · rw [hord]; exact hall.nodup_iff.2 hinv.nodup
  · intro r; rw [hord, hall.mem_iff]; exact hinv.mem_iff r
  · intro r hr
    rw [hord]
    rcases hfr r hr with hr | ⟨dn, hdn, hr⟩
    · obtain ⟨p0, hp0, hadj⟩ := hinv.frontier_adj r (List.mem_of_mem_erase hr)
      exact ⟨p0, List.mem_append_left _ hp0, hadj⟩
    · obtain ⟨-, hnode⟩ := Positions.position?_ofGraph_eq_some hr
      refine ⟨p, List.mem_append_right _ (List.mem_singleton_self p), ?_⟩
      unfold Adjacent
      rw [hnode, ← exists_mem_visits_iff]
      exact ⟨dn.1, hdn⟩
  · intro p' hp' r hr hadj
    rw [hord] at hp'
    obtain ⟨hr0, hvis⟩ := hun r hr
    rcases List.mem_append.1 hp' with hp' | hp'
    · exact hinv.unseen_closed p' hp' r (List.mem_of_mem_erase hr0) hadj
    · rw [List.mem_singleton.1 hp'] at hadj
      obtain ⟨d, hd⟩ := (exists_mem_visits_iff _ _ _).2 hadj
      have hrsize : r < q.nodes.length := by
        rw [← Positions.size_ofGraph]
        exact (hinv.mem_iff r).1 (List.mem_append_right _ (List.mem_of_mem_erase hr0))
      exact hvis _ hd (Positions.position?_node hids hrsize)
  · intro i r hi hr
    rw [hord] at hr
    rcases Nat.lt_or_ge i g.ordered.length with hlt | hge
    · rw [List.getElem?_append_left hlt] at hr
      obtain ⟨j, hj, p0, hp0, hadj⟩ := hinv.parent i r hi hr
      refine ⟨j, hj, p0, ?_, hadj⟩
      rw [hord, List.getElem?_append_left (by omega)]
      exact hp0
    · rw [List.getElem?_append_right hge] at hr
      have hi' : i = g.ordered.length := by
        rcases Nat.lt_or_ge (i - g.ordered.length) 1 with h1 | h1
        · omega
        · rw [List.getElem?_eq_none (by simp; omega)] at hr; cases hr
      subst hi'
      simp only [Nat.sub_self, List.getElem?_cons_zero, Option.some.injEq] at hr
      subst hr
      have hstate : state ≠ 0 := by omega
      rw [if_neg hstate] at hpool
      obtain ⟨p0, hp0, hadj⟩ := hinv.frontier_adj _ hpool
      obtain ⟨j, hj⟩ := List.mem_iff_getElem?.1 hp0
      refine ⟨j, ?_, p0, ?_, hadj⟩
      · exact (List.getElem?_eq_some_iff.1 hj).1
      · rw [hord, List.getElem?_append_left (List.getElem?_eq_some_iff.1 hj).1]
        exact hj
  · intro h0
    rw [hord] at h0
    exact absurd h0 (List.append_ne_nil_of_right_ne_nil _ (List.cons_ne_nil _ _))

/-- The start of the growth that `build` folds from. -/
def Growth.start (n : Nat) : Growth := ⟨[], [], List.range n, []⟩

theorem foldlM_grow_spec (hids : (q.nodes.map Prod.fst).Nodup) (k : Nat) {g : Growth}
    (h : (List.range k).foldlM (grow q (Positions.ofGraph q) sizes)
      (Growth.start (Positions.ofGraph q).size) = some g) :
    GrowthInv q (Positions.ofGraph q) g ∧ g.ordered.length = k := by
  induction k generalizing g with
  | zero =>
    cases h
    exact ⟨GrowthInv.init _ _, rfl⟩
  | succ k ih =>
    rw [List.range_succ, List.foldlM_append] at h
    obtain ⟨g1, h1, h2⟩ := Option.bind_eq_some_iff.1 h
    obtain ⟨hinv1, hlen1⟩ := ih h1
    simp only [List.foldlM_cons, List.foldlM_nil] at h2
    obtain ⟨g2, h3, h4⟩ := Option.bind_eq_some_iff.1 h2
    cases h4
    obtain ⟨hinv2, p, hp⟩ := hinv1.grow hids hlen1 h3
    exact ⟨hinv2, by rw [hp, List.length_append, hlen1]; rfl⟩

theorem grow_isSome {g : Growth} {state : Nat}
    (h : (pick q pos sizes (if state = 0 then g.unseen else g.frontier)
      (if state = 0 then g.unseen else g.ordered)).isSome) :
    (grow q pos sizes g state).isSome := by
  unfold grow
  by_cases hs : state = 0
  · simp only [hs, if_true] at h ⊢
    obtain ⟨p, hp⟩ := Option.isSome_iff_exists.1 h
    rw [hp]; rfl
  · simp only [hs, if_false] at h ⊢
    obtain ⟨p, hp⟩ := Option.isSome_iff_exists.1 h
    rw [hp]; rfl

/-- Positions `p` and `r` below `n` hold neighbouring query nodes. -/
def AdjacentIn (q : Graph) (pos : Positions) (p r : Nat) : Prop :=
  p < pos.size ∧ r < pos.size ∧ Adjacent q pos p r

/-- In a connected query the frontier is never empty while positions are left. -/
theorem GrowthInv.frontier_ne_nil {g : Growth} (hinv : GrowthInv q pos g)
    (hconn : ∀ p r, p < pos.size → r < pos.size → Relation.ReflTransGen (AdjacentIn q pos) p r)
    (hpos : 0 < g.ordered.length) (hlt : g.ordered.length < pos.size) : g.frontier ≠ [] := by
  intro hfr
  have hordnd : g.ordered.Nodup := (List.nodup_append.1 (List.nodup_append.1 hinv.nodup).1).1
  obtain ⟨r, hr, hrord⟩ : ∃ r < pos.size, r ∉ g.ordered := by
    rcases Classical.em (∀ r < pos.size, r ∈ g.ordered) with hall | hex
    · have hsub : List.range pos.size ⊆ g.ordered := fun r hr => hall r (List.mem_range.1 hr)
      have := (List.subperm_of_subset List.nodup_range hsub).length_le
      simp at this; omega
    · push Not at hex
      exact hex
  have hrun : r ∈ g.unseen := by
    have := (hinv.mem_iff r).2 hr
    simp only [hfr, List.append_nil, List.mem_append] at this
    exact this.resolve_left hrord
  obtain ⟨p0, hp0⟩ : ∃ p0, p0 ∈ g.ordered := ⟨_, List.getElem_mem hpos⟩
  have hp0lt : p0 < pos.size := (hinv.mem_iff p0).1 (List.mem_append_left _ (List.mem_append_left _ hp0))
  -- the ordered positions are closed under adjacency, so the path from `p0` stays in them
  have hclosed : ∀ x, Relation.ReflTransGen (AdjacentIn q pos) p0 x → x ∈ g.ordered := by
    intro x hx
    induction hx with
    | refl => exact hp0
    | tail _ hyz ih =>
      obtain ⟨-, hz, hadj⟩ := hyz
      have hmem := (hinv.mem_iff _).2 hz
      simp only [hfr, List.append_nil, List.mem_append] at hmem
      exact hmem.resolve_right fun hzun => hinv.unseen_closed _ ih _ hzun hadj
  exact hrord (hclosed r (hconn p0 r hp0lt hr))

theorem foldlM_grow_isSome (hids : (q.nodes.map Prod.fst).Nodup)
    (hconn : ∀ p r, p < (Positions.ofGraph q).size → r < (Positions.ofGraph q).size →
      Relation.ReflTransGen (AdjacentIn q (Positions.ofGraph q)) p r) :
    ∀ k ≤ (Positions.ofGraph q).size, ∃ g, (List.range k).foldlM (grow q (Positions.ofGraph q) sizes)
      (Growth.start (Positions.ofGraph q).size) = some g
  | 0, _ => ⟨_, rfl⟩
  | k + 1, hk => by
    obtain ⟨g, hg⟩ := foldlM_grow_isSome hids hconn k (by omega)
    obtain ⟨hinv, hlen⟩ := foldlM_grow_spec hids k hg
    have hpool : (if k = 0 then g.unseen else g.frontier) ≠ [] := by
      split
      · rename_i hk0
        subst hk0
        have hord : g.ordered = [] := List.eq_nil_of_length_eq_zero hlen
        have h0 := (hinv.mem_iff 0).2 (by omega)
        rw [hord, hinv.start hord] at h0
        exact List.ne_nil_of_mem (by simpa using h0)
      · exact hinv.frontier_ne_nil hconn (by omega) (by omega)
    obtain ⟨g', hg'⟩ := Option.isSome_iff_exists.1 (grow_isSome
      (@pick_isSome q (Positions.ofGraph q) sizes _ (if k = 0 then g.unseen else g.ordered) hpool))
    refine ⟨g', ?_⟩
    rw [List.range_succ, List.foldlM_append, hg]
    simp [hg']

/-- A growth that has ordered as many positions as there are holds every one of them once. -/
theorem GrowthInv.ordered_complete {g : Growth} (hinv : GrowthInv q pos g)
    (hlen : g.ordered.length = pos.size) : g.ordered.Nodup ∧ ∀ p, p ∈ g.ordered ↔ p < pos.size := by
  have hnd := hinv.nodup
  have hsub : g.ordered ++ g.frontier ++ g.unseen ⊆ List.range pos.size :=
    fun r hr => List.mem_range.2 ((hinv.mem_iff r).1 hr)
  have hlen3 := (List.subperm_of_subset hnd hsub).length_le
  simp only [List.length_append, List.length_range, hlen] at hlen3
  have hrest : ∀ r, r ∉ g.frontier ++ g.unseen := by
    intro r hr
    have : (g.frontier ++ g.unseen).length = 0 := by simp only [List.length_append]; omega
    rw [List.length_eq_zero_iff.1 this] at hr
    exact List.not_mem_nil hr
  refine ⟨(List.nodup_append.1 (List.nodup_append.1 hnd).1).1, fun p => ?_⟩
  rw [← hinv.mem_iff, List.append_assoc, List.mem_append]
  exact ⟨.inl, fun h => h.resolve_right (hrest p)⟩

/-- The order a plan uses holds every position once, and each node state after the first
is next to an earlier one. -/
theorem build_spec (hids : (q.nodes.map Prod.fst).Nodup) {o : MatchingOrder}
    (h : build q (Positions.ofGraph q) sizes = some o) :
    o.nodes.Nodup ∧ (∀ p, p ∈ o.nodes ↔ p < q.nodes.length) ∧
      (∀ i r, 0 < i → o.nodes[i]? = some r →
        ∃ j < i, ∃ p, o.nodes[j]? = some p ∧ Adjacent q (Positions.ofGraph q) p r) ∧
      o.edges = edgeStates q (Positions.ofGraph q) o.nodes ∧ o.edges ≠ [] := by
  unfold build at h
  split at h
  · cases h
  obtain ⟨g, hg, h⟩ := Option.bind_eq_some_iff.1 h
  obtain ⟨hinv, hlen⟩ := foldlM_grow_spec hids _ hg
  dsimp only at h
  split at h
  · cases h
  rename_i hne
  cases h
  obtain ⟨hnd, hmem⟩ := hinv.ordered_complete hlen
  exact ⟨hnd, fun p => by rw [hmem, Positions.size_ofGraph], hinv.parent, rfl, by simpa using hne⟩

theorem pairwise_zipIdx_lt {α : Type} (l : List α) : l.zipIdx.Pairwise fun a b => a.2 < b.2 := by
  rw [List.pairwise_iff_getElem]
  intro i j hi hj hij
  simpa [List.getElem_zipIdx] using hij

theorem mem_edgeStates {q : Graph} {pos : Positions} {N : List Nat} {oe : OrderedEdge} :
    oe ∈ edgeStates q pos N ↔ oe.dest < oe.source ∧ ∃ sp dp, N[oe.source]? = some sp ∧
      N[oe.dest]? = some dp ∧
      ∃ m ∈ (q.indexOf (pos.node sp) oe.dir).moments, m.links.edgeTo? (pos.node dp) = some oe.edge := by
  obtain ⟨e, i, j, d⟩ := oe
  simp only [edgeStates, List.mem_flatMap, List.mem_filterMap, Option.map_eq_some_iff,
    List.mem_zipIdx_iff_getElem?, List.getElem?_take]
  constructor
  · rintro ⟨⟨sp, i'⟩, hsp, ⟨dp, j'⟩, hdp, d', -, m, hm, e', he', heq⟩
    simp only [OrderedEdge.mk.injEq] at heq
    obtain ⟨rfl, rfl, rfl, rfl⟩ := heq
    split at hdp
    · exact ⟨‹_›, sp, dp, hsp, hdp, m, hm, he'⟩
    · cases hdp
  · rintro ⟨hji, sp, dp, hsp, hdp, m, hm, he⟩
    refine ⟨(sp, i), hsp, (dp, j), by simp [hji, hdp], d, ?_, m, hm, e, he, rfl⟩
    cases d <;> simp [Direction.all]

theorem source_of_mem_edgeStates_part {q : Graph} {pos : Positions} {N : List Nat} {sp i : Nat}
    {oe : OrderedEdge}
    (h : oe ∈ (N.take i).zipIdx.flatMap fun (dp, j) => Direction.all.flatMap fun d =>
      (q.indexOf (pos.node sp) d).moments.filterMap fun m =>
        (m.links.edgeTo? (pos.node dp)).map fun e => ⟨e, i, j, d⟩) : oe.source = i := by
  simp only [List.mem_flatMap, List.mem_filterMap, Option.map_eq_some_iff] at h
  obtain ⟨-, -, -, -, -, -, -, -, rfl⟩ := h
  rfl

theorem ends_of_mem_edgeStates_part {q : Graph} {pos : Positions} {sp dp i j : Nat}
    {oe : OrderedEdge}
    (h : oe ∈ Direction.all.flatMap fun d => (q.indexOf (pos.node sp) d).moments.filterMap fun m =>
      (m.links.edgeTo? (pos.node dp)).map fun e => (⟨e, i, j, d⟩ : OrderedEdge)) :
    oe.source = i ∧ oe.dest = j := by
  simp only [List.mem_flatMap, List.mem_filterMap, Option.map_eq_some_iff] at h
  obtain ⟨-, -, -, -, -, -, rfl⟩ := h
  exact ⟨rfl, rfl⟩

/-- Edge states come by increasing source state, and within one source state by increasing
destination state. -/
theorem sorted_lex_edgeStates (q : Graph) (pos : Positions) (N : List Nat) :
    (edgeStates q pos N).Pairwise fun a b =>
      a.source < b.source ∨ a.source = b.source ∧ a.dest ≤ b.dest := by
  unfold edgeStates
  rw [List.pairwise_flatMap]
  refine ⟨fun ⟨sp, i⟩ _ => ?_, (pairwise_zipIdx_lt N).imp fun {a b} hab x hx y hy => ?_⟩
  · -- within one source state the destination states come in the order of `N`
    rw [List.pairwise_flatMap]
    refine ⟨fun ⟨dp, j⟩ _ => ?_, (pairwise_zipIdx_lt _).imp fun {a b} hab x hx y hy => ?_⟩
    · rw [List.pairwise_iff_getElem]
      intro k l hk hl _
      have hkl := ends_of_mem_edgeStates_part (List.getElem_mem hk)
      have hkl' := ends_of_mem_edgeStates_part (List.getElem_mem hl)
      omega
    · obtain ⟨dp, j⟩ := a
      obtain ⟨dp', j'⟩ := b
      have hxy := ends_of_mem_edgeStates_part hx
      have hxy' := ends_of_mem_edgeStates_part hy
      dsimp only at hab
      omega
  · obtain ⟨sp, i⟩ := a
    obtain ⟨sp', i'⟩ := b
    rw [source_of_mem_edgeStates_part hx, source_of_mem_edgeStates_part hy]
    exact .inl hab

/-- Edge states come by increasing source state. -/
theorem sorted_edgeStates (q : Graph) (pos : Positions) (N : List Nat) :
    (edgeStates q pos N).Pairwise fun a b => a.source ≤ b.source :=
  (sorted_lex_edgeStates q pos N).imp fun h => by omega

end MatchingOrder

namespace Edge

/-- Two links that an edge without a loop makes from one end, in directions a graph keeps, are
made in one direction. -/
theorem dir_eq_of_links {e : Edge} (hloop : e.source ≠ e.dest) {directed : Bool} {d d' : Direction}
    (hd : d.serves directed = true) (hd' : d'.serves directed = true) {x y y' : Nat}
    (h : (x, y) ∈ e.links d) (h' : (x, y') ∈ e.links d') : d = d' := by
  cases d <;> cases d' <;> cases directed <;>
    simp_all [Direction.serves, mem_links_outgoing, mem_links_incoming, mem_links_reciprocal]

/-- Links of one edge from different ends are each other reversed. -/
theorem links_swap {e : Edge} {d d' : Direction} {x y x' y' : Nat} (h : (x, y) ∈ e.links d)
    (h' : (x', y') ∈ e.links d') (hx : x ≠ x') : x' = y ∧ y' = x := by
  cases d <;> cases d' <;>
    simp only [mem_links_outgoing, mem_links_incoming, mem_links_reciprocal] at h h' <;> omega

/-- A link of an edge joins its two ends, in one order or the other. -/
theorem joins_of_mem_links {e : Edge} {d : Direction} {x y : Nat} (h : (x, y) ∈ e.links d) :
    e.source = x ∧ e.dest = y ∨ e.source = y ∧ e.dest = x := by
  cases d <;> simp only [mem_links_outgoing, mem_links_incoming, mem_links_reciprocal] at h <;>
    omega

/-- An edge between distinct ends links the first to the second outgoing when it leaves the
first and incoming when it enters it, in a directed graph, and reciprocally in an undirected one. -/
theorem dir_eq_of_mem_links {e : Edge} {directed : Bool} {d : Direction} {x y : Nat} (hxy : x ≠ y)
    (hd : d.serves directed = true) (h : (x, y) ∈ e.links d) :
    d = if directed then (if e.source = x then .outgoing else .incoming) else .reciprocal := by
  cases d <;> cases directed <;> simp_all [Direction.serves, Ne.symm hxy]

/-- An edge that joins `x` and `y` links `x` to `y` in some direction a graph keeps. -/
theorem exists_dir_links (e : Edge) (directed : Bool) {x y : Nat}
    (h : e.source = x ∧ e.dest = y ∨ e.source = y ∧ e.dest = x) :
    ∃ d : Direction, d.serves directed = true ∧ (x, y) ∈ e.links d := by
  cases directed
  · exact ⟨.reciprocal, rfl, by simpa using h⟩
  · rcases h with h | h
    · exact ⟨.outgoing, rfl, by simpa using h⟩
    · exact ⟨.incoming, rfl, by simpa using h⟩

end Edge


/-- Nodes `a` and `b` are the two ends of one edge of `g`. -/
def Graph.Joined (g : Graph) (a b : Nat) : Prop :=
  ∃ e ∈ g.edges.toList, e.source = a ∧ e.dest = b ∨ e.source = b ∧ e.dest = a

/-- Every two declared nodes of `g` are linked by a path of edges. -/
def Graph.Connected (g : Graph) : Prop :=
  ∀ a ∈ g.nodes.map Prod.fst, ∀ b ∈ g.nodes.map Prod.fst, Relation.ReflTransGen g.Joined a b

namespace Built

variable {q : Graph} {directed : Bool} {ops : List GraphOp}

theorem holds_of_edgeTo? (h : Built q directed ops) {x y e : Nat} {d : Direction} {m : Moment}
    (hm : m ∈ (q.indexOf x d).moments) (he : m.links.edgeTo? y = some e) :
    (q.indexOf x d).Holds ⟨q.timeOf e, y, e⟩ := by
  have hold : (q.indexOf x d).Holds ⟨m.time, y, e⟩ :=
    ⟨m, hm, rfl, (Links.mem_iff_edgeTo? (h.nodup_nbrs hm) y e).2 he⟩
  rw [h.timeOf_edge hold]
  exact hold

theorem edgeTo?_of_holds (h : Built q directed ops) {x : Nat} {d : Direction} {a : Entry}
    (ha : (q.indexOf x d).Holds a) :
    ∃ m ∈ (q.indexOf x d).moments, m.links.edgeTo? a.nbr = some a.edge := by
  obtain ⟨m, hm, -, hl⟩ := ha
  exact ⟨m, hm, (Links.mem_iff_edgeTo? (h.nodup_nbrs hm) _ _).1 hl⟩

/-- Neighbouring nodes have an entry for each other in some direction. -/
theorem exists_holds_of_areNeighbours (h : Built q directed ops) {x y : Nat}
    (hxy : q.areNeighbours x y = true) :
    ∃ d i, (q.indexOf x d).Holds ⟨q.timeOf i, y, i⟩ := by
  simp only [Graph.areNeighbours, List.any_eq_true, TimeIndex.hasNeighbour,
    Links.hasNeighbour_iff] at hxy
  obtain ⟨d, -, m, hm, hy⟩ := hxy
  obtain ⟨i, hi⟩ := Option.isSome_iff_exists.1 ((Links.edgeTo?_isSome_iff _ _).2 hy)
  exact ⟨d, i, h.holds_of_edgeTo? hm hi⟩

/-- In a connected query whose edges join declared nodes, every two positions are linked by a
path of adjacent positions. -/
theorem adjacentIn_of_connected (h : Built q directed ops)
    (hends : ∀ e ∈ q.edges.toList, q.containsNode e.source = true ∧ q.containsNode e.dest = true)
    (hconn : q.Connected) {p r : Nat} (hp : p < (Positions.ofGraph q).size)
    (hr : r < (Positions.ofGraph q).size) :
    Relation.ReflTransGen (MatchingOrder.AdjacentIn q (Positions.ofGraph q)) p r := by
  rw [Positions.size_ofGraph] at hp hr
  have hdecl : ∀ {y z}, q.Joined y z → ∃ r < q.nodes.length, (Positions.ofGraph q).node r = z := by
    rintro y z ⟨e, he, hyz⟩
    obtain ⟨hs, hd⟩ := hends e he
    rcases hyz with ⟨-, rfl⟩ | ⟨rfl, -⟩
    · exact Positions.exists_node_eq ((Graph.containsNode_iff _ _).1 hd)
    · exact Positions.exists_node_eq ((Graph.containsNode_iff _ _).1 hs)
  -- follow the path of joined nodes from the node at `p`, one position at a time
  have key : ∀ z, Relation.ReflTransGen q.Joined ((Positions.ofGraph q).node p) z →
      ∃ r' < q.nodes.length, (Positions.ofGraph q).node r' = z ∧
        Relation.ReflTransGen (MatchingOrder.AdjacentIn q (Positions.ofGraph q)) p r' := by
    intro z hz
    induction hz with
    | refl => exact ⟨p, hp, rfl, .refl⟩
    | @tail y z _ hyz ih =>
      obtain ⟨r1, hr1, hy, hpath⟩ := ih
      obtain ⟨r2, hr2, hz⟩ := hdecl hyz
      have hadj : MatchingOrder.Adjacent q (Positions.ofGraph q) r1 r2 := by
        unfold MatchingOrder.Adjacent
        rw [hy, hz, h.areNeighbours_iff, ← h.edges_eq]
        exact hyz
      rw [← Positions.size_ofGraph] at hr1 hr2
      exact ⟨r2, by rwa [Positions.size_ofGraph] at hr2, hz, hpath.tail ⟨hr1, hr2, hadj⟩⟩
  have hmem : ∀ {k}, k < q.nodes.length → (Positions.ofGraph q).node k ∈ q.nodes.map Prod.fst := by
    intro k hk
    rw [Positions.node_ofGraph q hk]
    exact List.mem_map_of_mem (List.getElem_mem hk)
  obtain ⟨r', hr', hnode, hpath⟩ := key _ (hconn _ (hmem hp) _ (hmem hr))
  rwa [Positions.node_injOn h.nodup_ids hr' hr hnode] at hpath

end Built

namespace MatchingOrder

/-- What the search needs of its edge states: each joins an earlier node state to a later one,
they come by increasing later state, and every node state after the first is the later state
of one. -/
structure Chain (E : List OrderedEdge) (n : Nat) : Prop where
  dest_lt : ∀ oe ∈ E, oe.dest < oe.source
  source_lt : ∀ oe ∈ E, oe.source < n
  sorted : E.Pairwise fun a b => a.source ≤ b.source
  covers : ∀ s, 0 < s → s < n → ∃ oe ∈ E, oe.source = s

variable {q : Graph} {directed : Bool} {ops : List GraphOp} {N : List Nat}

/-- In a built query, an edge state is a live edge joining the nodes of its two states, seen
from the later one. -/
theorem mem_edgeStates_iff (h : Built q directed ops) {oe : OrderedEdge} :
    oe ∈ edgeStates q (Positions.ofGraph q) N ↔ oe.dest < oe.source ∧ ∃ sp dp,
      N[oe.source]? = some sp ∧ N[oe.dest]? = some dp ∧
      ((q.indexOf ((Positions.ofGraph q).node sp) oe.dir).Holds
        ⟨q.timeOf oe.edge, (Positions.ofGraph q).node dp, oe.edge⟩) := by
  rw [mem_edgeStates]
  constructor
  · rintro ⟨hlt, sp, dp, hsp, hdp, m, hm, he⟩
    exact ⟨hlt, sp, dp, hsp, hdp, h.holds_of_edgeTo? hm he⟩
  · rintro ⟨hlt, sp, dp, hsp, hdp, hold⟩
    exact ⟨hlt, sp, dp, hsp, hdp, h.edgeTo?_of_holds hold⟩

/-- No edge state comes twice: within one pair of states and one direction, the moments have
distinct times and an edge has one time. -/
theorem nodup_edgeStates (h : Built q directed ops) (pos : Positions) (N : List Nat) :
    (edgeStates q pos N).Nodup := by
  have hzip : ∀ l : List Nat, l.zipIdx.Pairwise fun a b => a.2 ≠ b.2 :=
    fun l => (pairwise_zipIdx_lt l).imp Nat.ne_of_lt
  unfold edgeStates
  refine nodup_flatMap_of_key Prod.snd OrderedEdge.source (hzip N) (fun ⟨sp, i⟩ _ => ?_)
    (fun ⟨sp, i⟩ _ oe hoe => source_of_mem_edgeStates_part hoe)
  refine nodup_flatMap_of_key Prod.snd OrderedEdge.dest (hzip _) (fun ⟨dp, j⟩ _ => ?_)
    (fun ⟨dp, j⟩ _ oe hoe => ?_)
  · refine nodup_flatMap_of_key id OrderedEdge.dir (by decide) (fun d _ => ?_)
      (fun d _ oe hoe => ?_)
    · rw [List.filterMap_eq_flatMap_toList]
      refine nodup_flatMap_of_key Moment.time (fun oe => q.timeOf oe.edge)
        ((q.indexOf (pos.node sp) d).increasing.imp Int.ne_of_lt) (fun m _ => ?_)
        (fun m hm oe hoe => ?_)
      · cases (m.links.edgeTo? (pos.node dp)).map fun e => (⟨e, i, j, d⟩ : OrderedEdge) <;> simp
      · simp only [Option.mem_toList, Option.map_eq_some_iff] at hoe
        obtain ⟨e, he, rfl⟩ := hoe
        have hold : (q.indexOf (pos.node sp) d).Holds ⟨m.time, pos.node dp, e⟩ :=
          ⟨m, hm, rfl, (Links.mem_iff_edgeTo? (h.nodup_nbrs hm) _ _).2 he⟩
        exact h.timeOf_edge hold
    · simp only [List.mem_filterMap, Option.map_eq_some_iff] at hoe
      obtain ⟨-, -, -, -, rfl⟩ := hoe
      rfl
  · simp only [List.mem_flatMap, List.mem_filterMap, Option.map_eq_some_iff] at hoe
    obtain ⟨-, -, -, -, -, -, rfl⟩ := hoe
    rfl


/-- A live query edge between the nodes of two node states is an edge state, seen from the
later one. -/
theorem exists_mem_edgeStates (h : Built q directed ops) {i a b pa pb : Nat} {qe : Edge}
    (ha : N[a]? = some pa) (hb : N[b]? = some pb) (hba : b < a) (hlive : q.IsLiveEdge i)
    (hqe : q.edges[i]? = some qe)
    (hjoin : qe.source = (Positions.ofGraph q).node pa ∧ qe.dest = (Positions.ofGraph q).node pb ∨
      qe.source = (Positions.ofGraph q).node pb ∧ qe.dest = (Positions.ofGraph q).node pa) :
    ∃ d, (⟨i, a, b, d⟩ : OrderedEdge) ∈ edgeStates q (Positions.ofGraph q) N := by
  obtain ⟨d, hd, hl⟩ := Edge.exists_dir_links qe directed hjoin
  have htime : qe.time = q.timeOf i := by simp [Graph.timeOf, hqe]
  exact ⟨d, (mem_edgeStates_iff h).2 ⟨hba, pa, pb, ha, hb, h.holds_iff.2 ⟨hd, hlive, qe, hqe, htime, hl⟩⟩⟩

/-- Adjacent positions at two node states give an edge state from the later to the earlier. -/
theorem exists_mem_edgeStates_of_adjacent (h : Built q directed ops) {i j p r : Nat}
    (hr : N[i]? = some r) (hp : N[j]? = some p) (hji : j < i)
    (hadj : Adjacent q (Positions.ofGraph q) p r) :
    ∃ e d, (⟨e, i, j, d⟩ : OrderedEdge) ∈ edgeStates q (Positions.ofGraph q) N := by
  obtain ⟨d, e, hold⟩ := h.exists_holds_of_areNeighbours hadj
  obtain ⟨-, hlive, qe, hqe, -, hl⟩ := h.holds_iff.1 hold
  obtain ⟨d', hoe⟩ := exists_mem_edgeStates h hr hp hji hlive hqe (Edge.joins_of_mem_links hl).symm
  exact ⟨e, d', hoe⟩

/-- An edge state over node states without repeats is a live edge that links the distinct nodes
of its two states, seen from the later one. -/
theorem link_of_mem_edgeStates (h : Built q directed ops) (hN : N.Nodup)
    (hNlt : ∀ p ∈ N, p < q.nodes.length) {oe : OrderedEdge}
    (hoe : oe ∈ edgeStates q (Positions.ofGraph q) N) :
    ∃ sp dp qe, N[oe.source]? = some sp ∧ N[oe.dest]? = some dp ∧
      (Positions.ofGraph q).node sp ≠ (Positions.ofGraph q).node dp ∧
      q.edges[oe.edge]? = some qe ∧ q.IsLiveEdge oe.edge ∧ oe.dir.serves directed = true ∧
      ((Positions.ofGraph q).node sp, (Positions.ofGraph q).node dp) ∈ qe.links oe.dir := by
  obtain ⟨hlt, sp, dp, hsp, hdp, hold⟩ := (mem_edgeStates_iff h).1 hoe
  obtain ⟨hd, hlive, qe, hqe, -, hx⟩ := h.holds_iff.1 hold
  refine ⟨sp, dp, qe, hsp, hdp, fun heq => ?_, hqe, hlive, hd, hx⟩
  -- one node at both states would be one position at two places of `N`
  have hpos := Positions.node_injOn h.nodup_ids (hNlt _ (List.mem_of_getElem? hsp))
    (hNlt _ (List.mem_of_getElem? hdp)) heq
  subst hpos
  have := (List.getElem?_inj (List.getElem?_eq_some_iff.1 hsp).1 hN).1 (hsp.trans hdp.symm)
  omega

/-- Two edge states of one edge are one: a link of an edge between distinct nodes fixes its
direction and its far end, and the two ends of the edge cannot both be the later state. -/
theorem edge_injOn_edgeStates (h : Built q directed ops) (hN : N.Nodup)
    (hNlt : ∀ p ∈ N, p < q.nodes.length)
    {oe oe' : OrderedEdge} (hoe : oe ∈ edgeStates q (Positions.ofGraph q) N)
    (hoe' : oe' ∈ edgeStates q (Positions.ofGraph q) N) (heq : oe.edge = oe'.edge) : oe = oe' := by
  have hids := h.nodup_ids
  have hlen : ∀ {i p}, N[i]? = some p → p < q.nodes.length :=
    fun hi => hNlt _ (List.mem_of_getElem? hi)
  have hidx : ∀ {i j p}, N[i]? = some p → N[j]? = some p → i = j :=
    fun hi hj => (List.getElem?_inj (List.getElem?_eq_some_iff.1 hi).1 hN).1 (hi.trans hj.symm)
  obtain ⟨sp, dp, qe, hsp, hdp, hne, hqe, -, hd, hx⟩ := link_of_mem_edgeStates h hN hNlt hoe
  obtain ⟨sp', dp', qe', hsp', hdp', -, hqe', -, hd', hx'⟩ := link_of_mem_edgeStates h hN hNlt hoe'
  rw [← heq, hqe] at hqe'
  cases hqe'
  have hloop' : qe.source ≠ qe.dest := by
    rcases Edge.joins_of_mem_links hx with ⟨h1, h2⟩ | ⟨h1, h2⟩ <;> rw [h1, h2]
    exacts [hne, hne ∘ Eq.symm]
  by_cases hsame : (Positions.ofGraph q).node sp = (Positions.ofGraph q).node sp'
  · -- one near end: the direction and then the far end agree
    have hsp_eq := Positions.node_injOn hids (hlen hsp) (hlen hsp') hsame
    subst hsp_eq
    have hdir : oe.dir = oe'.dir := Edge.dir_eq_of_links hloop' hd hd' hx hx'
    rw [← hdir] at hx'
    have hdp_eq := Positions.node_injOn hids (hlen hdp) (hlen hdp') (Edge.nbr_unique hx hx')
    subst hdp_eq
    have hsrc := hidx hsp hsp'
    have hdst := hidx hdp hdp'
    cases oe
    cases oe'
    simp_all
  · -- the near end of each is the far end of the other, so each is later than the other
    obtain ⟨h1, h2⟩ := Edge.links_swap hx hx' hsame
    have e1 := Positions.node_injOn hids (hlen hsp') (hlen hdp) h1
    have e2 := Positions.node_injOn hids (hlen hdp') (hlen hsp) h2
    subst e1 e2
    have := hidx hsp' hdp
    have := hidx hdp' hsp
    have := (mem_edgeStates.1 hoe).1
    have := (mem_edgeStates.1 hoe').1
    omega

/-- A live query edge between two distinct declared nodes is the edge of an edge state, for node
states that hold every position. -/
theorem mem_map_edge_edgeStates_of_live (h : Built q directed ops)
    (hN : ∀ p, p ∈ N ↔ p < q.nodes.length) {i : Nat} (hlive : q.IsLiveEdge i) {qe : Edge}
    (hqe : q.edges[i]? = some qe) (hloop : qe.source ≠ qe.dest)
    (hs : q.containsNode qe.source = true) (hd : q.containsNode qe.dest = true) :
    i ∈ (edgeStates q (Positions.ofGraph q) N).map (·.edge) := by
  obtain ⟨ps, hps, hnode_s⟩ := Positions.exists_node_eq ((Graph.containsNode_iff _ _).1 hs)
  obtain ⟨pd, hpd, hnode_d⟩ := Positions.exists_node_eq ((Graph.containsNode_iff _ _).1 hd)
  obtain ⟨a, ha⟩ := List.mem_iff_getElem?.1 ((hN ps).2 hps)
  obtain ⟨b, hb⟩ := List.mem_iff_getElem?.1 ((hN pd).2 hpd)
  have hne : a ≠ b := by
    rintro rfl
    rw [ha] at hb
    cases hb
    exact hloop (hnode_s.symm.trans hnode_d)
  rcases Nat.lt_or_gt_of_ne hne with hab | hab
  · obtain ⟨d, hoe⟩ := exists_mem_edgeStates h hb ha hab hlive hqe (.inr ⟨hnode_s.symm, hnode_d.symm⟩)
    exact List.mem_map.2 ⟨_, hoe, rfl⟩
  · obtain ⟨d, hoe⟩ := exists_mem_edgeStates h ha hb hab hlive hqe (.inl ⟨hnode_s.symm, hnode_d.symm⟩)
    exact List.mem_map.2 ⟨_, hoe, rfl⟩

/-- For node states that hold every position once, the edges of the edge states are exactly the
live query edges, each once. -/
theorem mem_map_edge_edgeStates (h : Built q directed ops) (hN : ∀ p, p ∈ N ↔ p < q.nodes.length)
    (hends : ∀ e ∈ q.edges.toList, q.containsNode e.source = true ∧ q.containsNode e.dest = true)
    (hloop : ∀ e ∈ q.edges.toList, e.source ≠ e.dest) (i : Nat) :
    i ∈ (edgeStates q (Positions.ofGraph q) N).map (·.edge) ↔ q.IsLiveEdge i := by
  constructor
  · intro hi
    obtain ⟨oe, hoe, rfl⟩ := List.mem_map.1 hi
    obtain ⟨-, _, _, -, -, hold⟩ := (mem_edgeStates_iff h).1 hoe
    exact (h.holds_iff.1 hold).2.1
  · intro hlive
    obtain ⟨qe, hqe, -⟩ := id hlive
    have hmem := List.mem_of_getElem? hqe
    have hqe' : q.edges[i]? = some qe := by rw [← Array.getElem?_toList]; exact hqe
    exact mem_map_edge_edgeStates_of_live h hN hlive hqe' (hloop qe hmem) (hends qe hmem).1
      (hends qe hmem).2

/-- The edge states of a planned order run through its node states one after another. -/
theorem build_chain (h : Built q directed ops) {sizes : List Nat} {o : MatchingOrder}
    (hbuild : build q (Positions.ofGraph q) sizes = some o) : Chain o.edges o.nodes.length := by
  obtain ⟨-, -, hparent, hedges, -⟩ := build_spec h.nodup_ids hbuild
  rw [hedges]
  refine ⟨fun oe hoe => (mem_edgeStates.1 hoe).1, fun oe hoe => ?_, sorted_edgeStates _ _ _,
    fun s hs hsn => ?_⟩
  · obtain ⟨-, sp, _, hsp, -⟩ := mem_edgeStates.1 hoe
    exact (List.getElem?_eq_some_iff.1 hsp).1
  · -- node state `s` is next to an earlier one, through a live edge that is an edge state
    obtain ⟨j, hj, p, hp, hadj⟩ := hparent s o.nodes[s] hs (List.getElem?_eq_getElem hsn)
    obtain ⟨e, d, hoe⟩ := exists_mem_edgeStates_of_adjacent h (List.getElem?_eq_getElem hsn) hp hj hadj
    exact ⟨_, hoe, rfl⟩

/-- A connected query with an edge, whose edges join two declared nodes each and none a node to
itself, has a matching order. -/
theorem build_isSome (h : Built q directed ops)
    (hends : ∀ e ∈ q.edges.toList, q.containsNode e.source = true ∧ q.containsNode e.dest = true)
    (hloop : ∀ e ∈ q.edges.toList, e.source ≠ e.dest) (hconn : q.Connected)
    (hedge : 0 < q.edges.size) (sizes : List Nat) :
    (build q (Positions.ofGraph q) sizes).isSome := by
  have hsize := Positions.size_ofGraph q
  -- the last edge is live, and its ends give positions
  have hlive := q.isLiveEdge_last hedge
  obtain ⟨qe, hqe, -⟩ := id hlive
  have hpos : 0 < q.nodes.length := by
    obtain ⟨hs, -⟩ := hends qe (List.mem_of_getElem? hqe)
    obtain ⟨p, hp, -⟩ := Positions.exists_node_eq ((Graph.containsNode_iff _ _).1 hs)
    omega
  obtain ⟨g, hg⟩ := @foldlM_grow_isSome q sizes h.nodup_ids
    (fun _ _ hp hr => h.adjacentIn_of_connected hends hconn hp hr) _ (Nat.le_refl _)
  obtain ⟨hinv, hlen⟩ := foldlM_grow_spec h.nodup_ids _ hg
  obtain ⟨-, hmem⟩ := hinv.ordered_complete hlen
  have hne : edgeStates q (Positions.ofGraph q) g.ordered ≠ [] := by
    intro hnil
    have := (mem_map_edge_edgeStates h (fun p => by rw [hmem, hsize]) hends hloop _).2 hlive
    rw [hnil] at this
    exact List.not_mem_nil this
  unfold build
  rw [if_neg (by omega)]
  unfold Growth.start at hg
  simp [hg, hne]

theorem joined_iff_adjacent (h : Built q directed ops) (p r : Nat) :
    q.Joined ((Positions.ofGraph q).node p) ((Positions.ofGraph q).node r) ↔
      Adjacent q (Positions.ofGraph q) p r := by
  rw [Adjacent, h.areNeighbours_iff, ← h.edges_eq]
  rfl

/-- A relation that leads from each node state's parent to the state chains the node at state 0
to every node state of a planned order. -/
theorem chain_of_build (h : Built q directed ops) {sizes : List Nat} {o : MatchingOrder}
    (hbuild : build q (Positions.ofGraph q) sizes = some o) {R : Nat → Nat → Prop}
    (hstep : ∀ i j p (hi : i < o.nodes.length), j < i → o.nodes[j]? = some p →
      Adjacent q (Positions.ofGraph q) p o.nodes[i] → R p o.nodes[i]) :
    ∀ i (hi : i < o.nodes.length), Relation.ReflTransGen R (o.nodeAt 0) o.nodes[i] := by
  obtain ⟨-, -, hparent, -, -⟩ := build_spec h.nodup_ids hbuild
  intro i
  -- by strong induction: the parent of state `i` comes earlier
  induction i using Nat.strongRecOn with
  | ind i ih =>
    intro hi
    rcases Nat.eq_zero_or_pos i with rfl | hpos
    · rw [nodeAt, List.getD_eq_getElem?_getD, List.getElem?_eq_getElem hi]
      exact .refl
    · obtain ⟨j, hj, p, hp, hadj⟩ := hparent i o.nodes[i] hpos (List.getElem?_eq_getElem hi)
      have hjl : j < o.nodes.length := by omega
      have hpj : o.nodes[j] = p := Option.some.inj ((List.getElem?_eq_getElem hjl).symm.trans hp)
      exact (ih j hj hjl).tail (hpj ▸ hstep i j p hi hj hp hadj)

/-- Each node state of a planned order is joined by a path to the node at state 0. -/
theorem joined_of_build (h : Built q directed ops) {sizes : List Nat} {o : MatchingOrder}
    (hbuild : build q (Positions.ofGraph q) sizes = some o) :
    ∀ i (hi : i < o.nodes.length),
      Relation.ReflTransGen q.Joined ((Positions.ofGraph q).node (o.nodeAt 0))
        ((Positions.ofGraph q).node o.nodes[i]) := fun i hi =>
  Relation.ReflTransGen.lift (Positions.ofGraph q).node (fun _ _ hab => hab) _ _
    (chain_of_build h hbuild (R := fun a b => q.Joined ((Positions.ofGraph q).node a)
      ((Positions.ofGraph q).node b)) (fun _ _ p _ _ _ hadj => (joined_iff_adjacent h p _).2 hadj)
      i hi)

/-- A query with a matching order is connected. -/
theorem connected_of_build (h : Built q directed ops) {sizes : List Nat} {o : MatchingOrder}
    (hbuild : build q (Positions.ofGraph q) sizes = some o) : q.Connected := by
  obtain ⟨-, hmem, -, -, -⟩ := build_spec h.nodup_ids hbuild
  have hsymm : ∀ a b, q.Joined a b → q.Joined b a := by
    rintro a b ⟨e, he, hab⟩
    exact ⟨e, he, hab.symm⟩
  -- every declared node lies on a path from the node at state 0
  have hroot : ∀ a ∈ q.nodes.map Prod.fst,
      Relation.ReflTransGen q.Joined ((Positions.ofGraph q).node (o.nodeAt 0)) a := by
    intro a ha
    obtain ⟨p, hp, rfl⟩ := Positions.exists_node_eq ha
    obtain ⟨i, hi, rfl⟩ := List.getElem_of_mem ((hmem p).2 hp)
    exact joined_of_build h hbuild i hi
  intro a ha b hb
  exact (Relation.ReflTransGen.mono (fun x y => hsymm y x) _ _ (hroot a ha).swap).trans (hroot b hb)

end MatchingOrder

end TemporalMotif
