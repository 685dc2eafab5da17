import TemporalMotif.Proofs.Order

/-! # The matching order is greedy

`build_isSome_iff` says when a query has a matching order: it has two positions or more, linked
through edges between distinct nodes. `build_greedy_spanning_order` says what the order then is
(`GreedyOrder`). Each node state is the greedy pick after the states before it (`pick_spec`,
carried along the growth by `ChoiceInv`); each later state has a parent link to an earlier state
whose node reaches it (`LinkInv`); and the edge states list every edge between two distinct
declared nodes once, from the later of its states to the earlier, by increasing pair of states. -/

namespace TemporalMotif

theorem Positions.containsNode_node {q : Graph} {p : Nat} (hp : p < q.nodes.length) :
    q.containsNode ((Positions.ofGraph q).node p) = true := by
  rw [Graph.containsNode_iff, Positions.node_ofGraph q hp]
  exact List.mem_map_of_mem (List.getElem_mem hp)

namespace MatchingOrder

variable {q : Graph} {pos : Positions} {sizes : List Nat}

/-- Position `w` is at least as good a pick as `r` when neighbours are counted among the nodes at
`reference`: it has more of them, or as many and a domain no larger. -/
def AtLeastAsGood (q : Graph) (pos : Positions) (sizes reference : List Nat) (w r : Nat) : Prop :=
  q.relativeDegree (pos.node r) (reference.map pos.node) <
      q.relativeDegree (pos.node w) (reference.map pos.node) ∨
    q.relativeDegree (pos.node r) (reference.map pos.node) =
        q.relativeDegree (pos.node w) (reference.map pos.node) ∧
      sizes.getD w 0 ≤ sizes.getD r 0

/-- A fold that keeps, of its candidate and each new member, one at least as good as the other
ends with a member at least as good as every member. -/
theorem foldl_best {f : Option (Nat × Nat) → Nat → Option (Nat × Nat)} {deg : Nat → Nat}
    {good : Nat → Nat → Prop} (hrefl : ∀ p, good p p)
    (htrans : ∀ a b c, good a b → good b c → good a c)
    (hf : ∀ b p, f (some (b, deg b)) p = some (p, deg p) ∧ good p b ∨
      f (some (b, deg b)) p = some (b, deg b) ∧ good b p) :
    ∀ (xs : List Nat) (b : Nat) {w dw : Nat}, xs.foldl f (some (b, deg b)) = some (w, dw) →
      w ∈ b :: xs ∧ ∀ r ∈ b :: xs, good w r
  | [], b, w, dw, h => by
    simp only [List.foldl_nil, Option.some.injEq, Prod.mk.injEq] at h
    obtain ⟨rfl, -⟩ := h
    exact ⟨List.mem_cons_self, fun r hr => by rw [List.mem_singleton.1 hr]; exact hrefl b⟩
  | p :: xs, b, w, dw, h => by
    rw [List.foldl_cons] at h
    rcases hf b p with ⟨hstep, hgood⟩ | ⟨hstep, hgood⟩
    · -- the new member takes over
      rw [hstep] at h
      obtain ⟨hmem, hbest⟩ := foldl_best hrefl htrans hf xs p h
      refine ⟨List.mem_cons_of_mem _ hmem, fun r hr => ?_⟩
      rcases List.mem_cons.1 hr with rfl | hr
      · exact htrans _ _ _ (hbest p List.mem_cons_self) hgood
      · exact hbest r hr
    · -- the candidate stays
      rw [hstep] at h
      obtain ⟨hmem, hbest⟩ := foldl_best hrefl htrans hf xs b h
      refine ⟨?_, fun r hr => ?_⟩
      · rcases List.mem_cons.1 hmem with h | h
        · exact h ▸ List.mem_cons_self
        · exact List.mem_cons_of_mem _ (List.mem_cons_of_mem _ h)
      · rcases List.mem_cons.1 hr with rfl | hr
        · exact hbest r List.mem_cons_self
        · rcases List.mem_cons.1 hr with rfl | hr
          · exact htrans _ _ _ (hbest b List.mem_cons_self) hgood
          · exact hbest r (List.mem_cons_of_mem _ hr)

theorem atLeastAsGood_refl (reference : List Nat) (p : Nat) :
    AtLeastAsGood q pos sizes reference p p :=
  .inr ⟨rfl, Nat.le_refl _⟩

theorem AtLeastAsGood.trans {reference : List Nat} {a b c : Nat}
    (hab : AtLeastAsGood q pos sizes reference a b) (hbc : AtLeastAsGood q pos sizes reference b c) :
    AtLeastAsGood q pos sizes reference a c := by
  unfold AtLeastAsGood at *
  omega

/-- A pick is a member of the pool at least as good as every member. -/
theorem pick_spec {pool reference : List Nat} {w : Nat}
    (h : pick q pos sizes pool reference = some w) :
    w ∈ pool ∧ ∀ r ∈ pool, AtLeastAsGood q pos sizes reference w r := by
  unfold pick at h
  obtain ⟨⟨w', dw⟩, hfold, rfl⟩ := Option.map_eq_some_iff.1 h
  cases pool with
  | nil => cases hfold
  | cons b xs =>
    rw [List.foldl_cons] at hfold
    refine @foldl_best _ (fun p => q.relativeDegree (pos.node p) (reference.map pos.node)) _
      (atLeastAsGood_refl reference) (fun _ _ _ => AtLeastAsGood.trans) (fun b p => ?_) xs b _ _ hfold
    -- one step of the fold: the new member wins on more neighbours, or as many and a smaller domain
    dsimp only
    split
    · rename_i hc
      refine .inl ⟨rfl, ?_⟩
      simp only [Bool.or_eq_true, decide_eq_true_eq, Bool.and_eq_true, beq_iff_eq] at hc
      unfold AtLeastAsGood
      omega
    · rename_i hc
      refine .inr ⟨rfl, ?_⟩
      simp only [Bool.or_eq_true, decide_eq_true_eq, Bool.and_eq_true, beq_iff_eq, not_or,
        not_and, not_lt] at hc
      unfold AtLeastAsGood
      omega

/-- Positions `p` and `r` of the query are distinct and joined by one of its edges. -/
def Linked (q : Graph) (pos : Positions) (p r : Nat) : Prop :=
  p ≠ r ∧ p < pos.size ∧ r < pos.size ∧ q.Joined (pos.node p) (pos.node r)

theorem Linked.symm {p r : Nat} (h : Linked q pos p r) : Linked q pos r p := by
  obtain ⟨hne, hp, hr, e, he, hj⟩ := h
  exact ⟨Ne.symm hne, hr, hp, e, he, hj.symm⟩

section Built

variable {directed : Bool} {ops : List GraphOp}

/-- In a planned order every node state after the first is linked to an earlier one, so every
position is linked by a path to the one at state 0. -/
theorem linked_of_build (h : Built q directed ops) {o : MatchingOrder}
    (hbuild : build q (Positions.ofGraph q) sizes = some o) :
    ∀ i (hi : i < o.nodes.length), Relation.ReflTransGen (Linked q (Positions.ofGraph q))
      (o.nodeAt 0) o.nodes[i] := by
  obtain ⟨hnd, hmem, -, -, -⟩ := build_spec h.nodup_ids hbuild
  have hlt : ∀ {j} (hj : j < o.nodes.length), o.nodes[j] < (Positions.ofGraph q).size := fun hj => by
    rw [Positions.size_ofGraph]
    exact (hmem _).1 (List.getElem_mem hj)
  refine chain_of_build h hbuild fun i j p hi hj hp hadj => ?_
  have hjl : j < o.nodes.length := by omega
  have hpj : o.nodes[j] = p := Option.some.inj ((List.getElem?_eq_getElem hjl).symm.trans hp)
  -- the parent is another state, so another position
  have hne : p ≠ o.nodes[i] := by
    rw [← hpj]
    exact fun heq => absurd ((hnd.getElem_inj_iff).1 heq) (by omega)
  exact ⟨hne, hpj ▸ hlt hjl, hlt hi, (joined_iff_adjacent h _ _).2 hadj⟩

theorem edgeStates_ne_nil_of_linked (h : Built q directed ops) {N : List Nat} {a b : Nat}
    (hab : Linked q (Positions.ofGraph q) a b) (ha : a ∈ N) (hb : b ∈ N) :
    edgeStates q (Positions.ofGraph q) N ≠ [] := by
  obtain ⟨hne, -, -, hj⟩ := hab
  obtain ⟨ia, hia⟩ := List.mem_iff_getElem?.1 ha
  obtain ⟨ib, hib⟩ := List.mem_iff_getElem?.1 hb
  have hiab : ia ≠ ib := by
    rintro rfl
    rw [hia] at hib
    exact hne (Option.some.inj hib)
  -- seen from the later of the two states, the earlier one is adjacent
  rcases Nat.lt_or_gt_of_ne hiab with hlt | hlt
  · obtain ⟨e, he, hends⟩ := hj
    obtain ⟨e, d, hoe⟩ := exists_mem_edgeStates_of_adjacent h hib hia hlt
      ((joined_iff_adjacent h a b).1 ⟨e, he, hends⟩)
    exact List.ne_nil_of_mem hoe
  · obtain ⟨e, he, hends⟩ := hj
    obtain ⟨e, d, hoe⟩ := exists_mem_edgeStates_of_adjacent h hia hib hlt
      ((joined_iff_adjacent h b a).1 ⟨e, he, hends.symm⟩)
    exact List.ne_nil_of_mem hoe

theorem nodes_perm_of_build (h : Built q directed ops) {o : MatchingOrder}
    (hbuild : build q (Positions.ofGraph q) sizes = some o) :
    o.nodes.Perm (List.range (Positions.ofGraph q).size) := by
  obtain ⟨hnd, hmem, -⟩ := build_spec h.nodup_ids hbuild
  refine (List.perm_ext_iff_of_nodup hnd List.nodup_range).2 fun p => ?_
  rw [hmem, List.mem_range, Positions.size_ofGraph]

/-- The query has a matching order exactly when it has two positions or more and they are
connected through edges between distinct positions. -/
theorem build_isSome_iff (h : Built q directed ops) :
    (build q (Positions.ofGraph q) sizes).isSome ↔
      2 ≤ (Positions.ofGraph q).size ∧ ∀ p < (Positions.ofGraph q).size, ∀ r < (Positions.ofGraph q).size,
        Relation.ReflTransGen (Linked q (Positions.ofGraph q)) p r := by
  constructor
  · intro hsome
    obtain ⟨o, hbuild⟩ := Option.isSome_iff_exists.1 hsome
    obtain ⟨-, hmem, -, hedges, hne⟩ := build_spec h.nodup_ids hbuild
    have hlen := (nodes_perm_of_build h hbuild).length_eq.trans List.length_range
    refine ⟨?_, fun p hp r hr => ?_⟩
    · -- an edge state joins two distinct node states
      obtain ⟨oe, hoe⟩ := List.exists_mem_of_ne_nil _ hne
      rw [hedges] at hoe
      obtain ⟨hlt, sp, -, hsp, -⟩ := mem_edgeStates.1 hoe
      have := (List.getElem?_eq_some_iff.1 hsp).1
      omega
    · -- both positions are linked to the one at state 0
      have hroot : ∀ x < (Positions.ofGraph q).size,
          Relation.ReflTransGen (Linked q (Positions.ofGraph q)) (o.nodeAt 0) x := by
        intro x hx
        obtain ⟨i, hi, rfl⟩ := List.getElem_of_mem ((hmem x).2 (by rwa [← Positions.size_ofGraph]))
        exact linked_of_build h hbuild i hi
      exact (Relation.ReflTransGen.mono (fun _ _ hl => Linked.symm hl) _ _ (hroot p hp).swap).trans
        (hroot r hr)
  · rintro ⟨htwo, hconn⟩
    have hadj : ∀ p r, p < (Positions.ofGraph q).size → r < (Positions.ofGraph q).size →
        Relation.ReflTransGen (AdjacentIn q (Positions.ofGraph q)) p r := fun p r hp hr =>
      Relation.ReflTransGen.mono (fun a b hl => ⟨hl.2.1, hl.2.2.1, (joined_iff_adjacent h a b).1 hl.2.2.2⟩)
        _ _ (hconn p hp r hr)
    obtain ⟨g, hg⟩ := @foldlM_grow_isSome q sizes h.nodup_ids hadj _ (Nat.le_refl _)
    obtain ⟨hinv, hlen⟩ := foldlM_grow_spec h.nodup_ids _ hg
    obtain ⟨-, hmem⟩ := hinv.ordered_complete hlen
    -- the path from position 0 to position 1 starts with a link between two positions
    obtain ⟨a, b, hab⟩ : ∃ a b, Linked q (Positions.ofGraph q) a b := by
      rcases Relation.ReflTransGen.cases_head (hconn 0 (by omega) 1 (by omega)) with h01 | ⟨c, h0c, -⟩
      · exact absurd h01 (by omega)
      · exact ⟨0, c, h0c⟩
    have hne := edgeStates_ne_nil_of_linked h hab ((hmem a).2 hab.2.1) ((hmem b).2 hab.2.2.1)
    unfold build
    rw [if_neg (by omega)]
    unfold Growth.start at hg
    simp [hg, hne]

end Built

/-- The positions a greedy step picks from once `pre` is ordered: every position at the start,
then the unordered positions next to an ordered one. -/
def poolAfter (q : Graph) (pos : Positions) (pre : List Nat) : Set Nat :=
  if pre = [] then {r | r < pos.size}
  else {r | r < pos.size ∧ r ∉ pre ∧ ∃ p ∈ pre, Adjacent q pos p r}

/-- The positions among whose nodes a greedy step counts neighbours once `pre` is ordered: every
position at the start, then the ordered ones. -/
def referenceAfter (pos : Positions) (pre : List Nat) : List Nat :=
  if pre = [] then List.range pos.size else pre

/-- Position `p` is the greedy choice once `pre` is ordered: a member of the pool at least as
good as every member. -/
def GreedyChoice (q : Graph) (pos : Positions) (sizes pre : List Nat) (p : Nat) : Prop :=
  p ∈ poolAfter q pos pre ∧
    ∀ r ∈ poolAfter q pos pre, AtLeastAsGood q pos sizes (referenceAfter pos pre) p r

/-- Link `l` reaches position `r` from the order `N`: the position at state `l.state` has the
node of `r` among its neighbours in direction `l.dir`. -/
def Reaches (q : Graph) (pos : Positions) (N : List Nat) (l : ParentLink) (r : Nat) : Prop :=
  ∃ p, N[l.state]? = some p ∧ (q.indexOf (pos.node p) l.dir).hasNeighbour (pos.node r) = true

theorem Reaches.append {N : List Nat} {l : ParentLink} {r : Nat} (h : Reaches q pos N l r)
    (M : List Nat) : Reaches q pos (N ++ M) l r := by
  obtain ⟨p, hp, hn⟩ := h
  exact ⟨p, by rw [List.getElem?_append_left (List.getElem?_eq_some_iff.1 hp).1]; exact hp, hn⟩

theorem Reaches.state_lt {N : List Nat} {l : ParentLink} {r : Nat} (h : Reaches q pos N l r) :
    l.state < N.length :=
  (List.getElem?_eq_some_iff.1 h.choose_spec.1).1

/-- What the parent links of a growth keep, besides its three lists holding each position once:
no unseen position and not the first ordered one has a link, and every other reached position
has a link to an earlier ordered position that reaches it. -/
structure LinkInv (q : Graph) (pos : Positions) (g : Growth) : Prop where
  nodup : (g.ordered ++ g.frontier ++ g.unseen).Nodup
  unseen_none : ∀ r ∈ g.unseen, g.parent.lookup r = none
  first_none : ∀ r, g.ordered.head? = some r → g.parent.lookup r = none
  frontier_link : ∀ r ∈ g.frontier, ∃ l, g.parent.lookup r = some l ∧ Reaches q pos g.ordered l r
  ordered_link : ∀ s r, 0 < s → g.ordered[s]? = some r →
    ∃ l, g.parent.lookup r = some l ∧ l.state < s ∧ Reaches q pos g.ordered l r

theorem lookup_cons_ne {l : List (Nat × ParentLink)} {r r' : Nat} (h : r' ≠ r) (v : ParentLink) :
    ((r, v) :: l).lookup r' = l.lookup r' := by
  simp only [List.lookup_cons, beq_eq_false_iff_ne.2 h]

theorem LinkInv.not_mem_unseen {g : Growth} (hinv : LinkInv q pos g) {r : Nat}
    (hr : r ∈ g.ordered ∨ r ∈ g.frontier) : r ∉ g.unseen := by
  intro hu
  have hnd := hinv.nodup
  rw [List.nodup_append] at hnd
  rcases hr with hr | hr
  · exact hnd.2.2 r (List.mem_append_left _ hr) r hu rfl
  · exact hnd.2.2 r (List.mem_append_right _ hr) r hu rfl

/-- A visit from the position at `state` keeps the links: a newly reached position gets a link
to that position. -/
theorem LinkInv.visit {g : Growth} (hinv : LinkInv q (Positions.ofGraph q) g) {state p : Nat}
    (hp : g.ordered[state]? = some p) {dn : Direction × Nat}
    (hvisit : (q.indexOf ((Positions.ofGraph q).node p) dn.1).hasNeighbour dn.2 = true) :
    LinkInv q (Positions.ofGraph q) (visitStep (Positions.ofGraph q) state g dn) := by
  have hU : g.unseen.Nodup := hinv.nodup.sublist (List.sublist_append_right _ _)
  obtain ⟨hord, -, hperm, -, -⟩ := @visitStep_spec (Positions.ofGraph q) state g dn hU
  cases hpos : (Positions.ofGraph q).position? dn.2 with
  | none =>
    have hstep : visitStep (Positions.ofGraph q) state g dn = g := by simp only [visitStep, hpos]
    rw [hstep]; exact hinv
  | some r =>
    by_cases hc : g.unseen.contains r = true
    · have hr : r ∈ g.unseen := by simpa using hc
      have hstep : visitStep (Positions.ofGraph q) state g dn =
          { g with unseen := g.unseen.erase r, frontier := g.frontier ++ [r],
                   parent := (r, ⟨state, dn.1⟩) :: g.parent } := by
        simp only [visitStep, hpos, hc, if_true]
      have hnd' := hperm.nodup_iff.2 hinv.nodup
      rw [hstep] at hnd'
      rw [hstep]
      -- every position other than `r` keeps its lookup
      have hother : ∀ r', r' ≠ r → ((r, (⟨state, dn.1⟩ : ParentLink)) :: g.parent).lookup r' =
          g.parent.lookup r' := fun r' h => lookup_cons_ne h _
      have hseen : ∀ r', r' ∈ g.ordered ∨ r' ∈ g.frontier → r' ≠ r :=
        fun r' h' heq => hinv.not_mem_unseen h' (heq ▸ hr)
      refine ⟨hnd', fun r' hr' => ?_, fun r' hr' => ?_, fun r' hr' => ?_, fun s r' hs hr' => ?_⟩
      · obtain ⟨hne, hr'⟩ := (hU.mem_erase_iff).1 hr'
        rw [hother r' hne]
        exact hinv.unseen_none r' hr'
      · have hmem : r' ∈ g.ordered := List.mem_of_mem_head? hr'
        rw [hother r' (hseen r' (.inl hmem))]
        exact hinv.first_none r' hr'
      · rcases List.mem_append.1 hr' with hr' | hr'
        · rw [hother r' (hseen r' (.inr hr'))]
          exact hinv.frontier_link r' hr'
        · rw [List.mem_singleton.1 hr']
          obtain ⟨-, hnode⟩ := Positions.position?_ofGraph_eq_some hpos
          refine ⟨⟨state, dn.1⟩, by simp, p, hp, ?_⟩
          rw [hnode]
          exact hvisit
      · rw [hother r' (hseen r' (.inl (List.mem_of_getElem? hr')))]
        exact hinv.ordered_link s r' hs hr'
    · have hstep : visitStep (Positions.ofGraph q) state g dn = g := by
        simp only [visitStep, hpos, hc, if_false, Bool.false_eq_true]
      rw [hstep]; exact hinv

theorem LinkInv.foldl_visit {state p : Nat} :
    ∀ (L : List (Direction × Nat)) {g : Growth}, LinkInv q (Positions.ofGraph q) g →
      g.ordered[state]? = some p →
      (∀ dn ∈ L, (q.indexOf ((Positions.ofGraph q).node p) dn.1).hasNeighbour dn.2 = true) →
      LinkInv q (Positions.ofGraph q) (L.foldl (visitStep (Positions.ofGraph q) state) g)
  | [], _, hinv, _, _ => hinv
  | dn :: L, g, hinv, hp, hvisit => by
    have hU : g.unseen.Nodup := hinv.nodup.sublist (List.sublist_append_right _ _)
    have hord := (@visitStep_spec (Positions.ofGraph q) state g dn hU).1
    rw [List.foldl_cons]
    exact LinkInv.foldl_visit L (hinv.visit hp (hvisit dn List.mem_cons_self))
      (by rw [hord]; exact hp) fun dn' h => hvisit dn' (List.mem_cons_of_mem _ h)

theorem hasNeighbour_of_mem_visits {x : Nat} {dn : Direction × Nat} (h : dn ∈ visits q x) :
    (q.indexOf x dn.1).hasNeighbour dn.2 = true := by
  simp only [visits, List.mem_flatMap, List.mem_map] at h
  obtain ⟨d, -, m, hm, l, hl, rfl⟩ := h
  simp only [TimeIndex.hasNeighbour, List.any_eq_true, Links.hasNeighbour_iff, Links.nbrs]
  exact ⟨m, hm, List.mem_map.2 ⟨l, hl, rfl⟩⟩

/-- On a growth past its first step, the frontier is the pool of the next greedy step. -/
theorem GrowthInv.mem_frontier_iff {g : Growth} (hinv : GrowthInv q pos g) (hne : g.ordered ≠ [])
    (r : Nat) : r ∈ g.frontier ↔ r ∈ poolAfter q pos g.ordered := by
  rw [poolAfter, if_neg hne]
  have hOF := (List.nodup_append.1 (List.nodup_append.1 hinv.nodup).1).2.2
  constructor
  · intro hr
    refine ⟨(hinv.mem_iff r).1 (List.mem_append_left _ (List.mem_append_right _ hr)),
      fun ho => hOF r ho r hr rfl, hinv.frontier_adj r hr⟩
  · rintro ⟨hlt, hno, p, hp, hadj⟩
    have hmem := (hinv.mem_iff r).2 hlt
    simp only [List.mem_append] at hmem
    rcases hmem with (ho | hf) | hu
    · exact absurd ho hno
    · exact hf
    · exact absurd hadj (hinv.unseen_closed p hp r hu)

/-- What the choices of a growth keep: before the first step every position is unseen, every
ordered position was the greedy choice after those before it, and the parent links keep
`LinkInv`. -/
structure ChoiceInv (q : Graph) (pos : Positions) (sizes : List Nat) (g : Growth) : Prop where
  start : g.ordered = [] → g.unseen = List.range pos.size
  greedy : ∀ s p, g.ordered[s]? = some p → GreedyChoice q pos sizes (g.ordered.take s) p
  links : LinkInv q pos g

theorem ChoiceInv.init (q : Graph) (pos : Positions) (sizes : List Nat) :
    ChoiceInv q pos sizes (Growth.start pos.size) where
  start := fun _ => rfl
  greedy := by simp [Growth.start]
  links := ⟨by simpa [Growth.start] using List.nodup_range, by simp [Growth.start],
    by simp [Growth.start], by simp [Growth.start], by simp [Growth.start]⟩

/-- A step of the growth orders its greedy choice and links every position it reaches to it. -/
theorem ChoiceInv.grow {g g' : Growth} {state : Nat}
    (hgrow : GrowthInv q (Positions.ofGraph q) g) (hinv : ChoiceInv q (Positions.ofGraph q) sizes g)
    (hlen : g.ordered.length = state) (h : grow q (Positions.ofGraph q) sizes g state = some g') :
    ChoiceInv q (Positions.ofGraph q) sizes g' := by
  obtain ⟨p, hpick, rfl⟩ := grow_eq_some h
  have hpool := pick_mem hpick
  let g0 : Growth := { g with ordered := g.ordered ++ [p], unseen := g.unseen.erase p,
                              frontier := g.frontier.erase p }
  have hpFU : p ∈ g.frontier ++ g.unseen := by
    split at hpool
    · exact List.mem_append_right _ hpool
    · exact List.mem_append_left _ hpool
  have hnd0 : (g0.ordered ++ g0.frontier ++ g0.unseen).Nodup :=
    (perm_move hgrow.nodup hpFU).nodup_iff.2 hgrow.nodup
  have hord : (reach q (Positions.ofGraph q) state p g0).ordered = g.ordered ++ [p] := by
    rw [reach_eq]
    exact (foldl_visitStep_spec state _ g0 (hnd0.sublist (List.sublist_append_right _ _))).1
  have hstate : (g.ordered ++ [p])[state]? = some p := by simp [← hlen]
  -- at the first step the pool is every position; later it is the frontier
  have hchoice : GreedyChoice q (Positions.ofGraph q) sizes g.ordered p := by
    obtain ⟨hmem, hbest⟩ := pick_spec hpick
    by_cases hs : state = 0
    · have ho : g.ordered = [] := List.eq_nil_of_length_eq_zero (hlen.trans hs)
      simp only [hs, if_true, hinv.start ho] at hmem hbest
      rw [GreedyChoice, poolAfter, referenceAfter, if_pos ho, if_pos ho]
      exact ⟨List.mem_range.1 hmem, fun r hr => hbest r (List.mem_range.2 hr)⟩
    · have ho : g.ordered ≠ [] := fun h => hs (by rw [← hlen, h]; rfl)
      simp only [hs, if_false] at hmem hbest
      refine ⟨(hgrow.mem_frontier_iff ho p).1 hmem, fun r hr => ?_⟩
      rw [referenceAfter, if_neg ho]
      exact hbest r ((hgrow.mem_frontier_iff ho r).2 hr)
  -- a later state was picked from the frontier, so it already has its link
  have hlater : state ≠ 0 → ∃ l, g.parent.lookup p = some l ∧ l.state < g.ordered.length ∧
      Reaches q (Positions.ofGraph q) g.ordered l p := by
    intro hs
    rw [if_neg hs] at hpool
    obtain ⟨l, hl, hreach⟩ := hinv.links.frontier_link p hpool
    exact ⟨l, hl, hreach.state_lt, hreach⟩
  have hl0 : LinkInv q (Positions.ofGraph q) g0 := by
    refine ⟨hnd0, fun r hr => hinv.links.unseen_none r (List.mem_of_mem_erase hr),
      fun r hr => ?_, fun r hr => ?_, fun s r hs hr => ?_⟩
    · by_cases ho : g.ordered = []
      · -- the first position was unseen when it was picked
        have hs : state = 0 := by rw [← hlen, ho]; rfl
        rw [if_pos hs] at hpool
        simp only [g0, ho, List.nil_append, List.head?_cons, Option.some.injEq] at hr
        exact hr ▸ hinv.links.unseen_none p hpool
      · obtain ⟨a, rest, hcons⟩ := List.exists_cons_of_ne_nil ho
        simp only [g0, hcons, List.cons_append, List.head?_cons] at hr
        exact hinv.links.first_none r (by rw [hcons]; exact hr)
    · obtain ⟨l, hl, hreach⟩ := hinv.links.frontier_link r (List.mem_of_mem_erase hr)
      exact ⟨l, hl, hreach.append [p]⟩
    · rcases Nat.lt_or_ge s g.ordered.length with hlt | hge
      · rw [List.getElem?_append_left hlt] at hr
        obtain ⟨l, hl, hls, hreach⟩ := hinv.links.ordered_link s r hs hr
        exact ⟨l, hl, hls, hreach.append [p]⟩
      · have hseq : s = g.ordered.length := by
          have := (List.getElem?_eq_some_iff.1 hr).1
          simp only [g0, List.length_append, List.length_singleton] at this
          omega
        subst hseq
        simp only [g0, List.getElem?_append_right (Nat.le_refl _), Nat.sub_self,
          List.getElem?_cons_zero, Option.some.injEq] at hr
        subst hr
        obtain ⟨l, hl, hls, hreach⟩ := hlater (by omega)
        exact ⟨l, hl, hls, hreach.append [p]⟩
  refine ⟨fun h => absurd h (by rw [hord]; simp), fun s r hr => ?_, ?_⟩
  · rw [hord] at hr ⊢
    rcases Nat.lt_or_ge s g.ordered.length with hlt | hge
    · rw [List.getElem?_append_left hlt] at hr
      rw [List.take_append_of_le_length (Nat.le_of_lt hlt)]
      exact hinv.greedy s r hr
    · have hseq : s = g.ordered.length := by
        have := (List.getElem?_eq_some_iff.1 hr).1
        simp at this
        omega
      subst hseq
      simp only [List.getElem?_append_right (Nat.le_refl _), Nat.sub_self, List.getElem?_cons_zero,
        Option.some.injEq] at hr
      subst hr
      rw [List.take_left' rfl]
      exact hchoice
  · rw [reach_eq]
    exact hl0.foldl_visit _ hstate fun dn hdn => hasNeighbour_of_mem_visits hdn

theorem foldlM_grow_choice (hids : (q.nodes.map Prod.fst).Nodup) (k : Nat) {g : Growth}
    (h : (List.range k).foldlM (grow q (Positions.ofGraph q) sizes)
      (Growth.start (Positions.ofGraph q).size) = some g) :
    ChoiceInv q (Positions.ofGraph q) sizes g := by
  induction k generalizing g with
  | zero =>
    cases h
    exact ChoiceInv.init _ _ _
  | succ k ih =>
    rw [List.range_succ, List.foldlM_append] at h
    obtain ⟨g1, h1, h2⟩ := Option.bind_eq_some_iff.1 h
    simp only [List.foldlM_cons, List.foldlM_nil] at h2
    obtain ⟨g2, h3, h4⟩ := Option.bind_eq_some_iff.1 h2
    cases h4
    obtain ⟨hgrow1, hlen1⟩ := foldlM_grow_spec hids k h1
    exact (ih h1).grow hgrow1 hlen1 h3

theorem build_eq_some {o : MatchingOrder} (h : build q pos sizes = some o) :
    ∃ g, (List.range pos.size).foldlM (grow q pos sizes) (Growth.start pos.size) = some g ∧
      o = ⟨g.ordered, g.ordered.map (List.lookup · g.parent), edgeStates q pos g.ordered⟩ := by
  unfold build at h
  split at h
  · cases h
  obtain ⟨g, hg, h⟩ := Option.bind_eq_some_iff.1 h
  dsimp only at h
  split at h
  · cases h
  cases h
  exact ⟨g, hg, rfl⟩

theorem nodeAt_eq_of_getElem? {o : MatchingOrder} {s p : Nat} (h : o.nodes[s]? = some p) :
    o.nodeAt s = p := by
  simp [nodeAt, List.getD_eq_getElem?_getD, h]

section Built

variable {directed : Bool} {ops : List GraphOp} {o : MatchingOrder}

/-- The first node state of a planned order has no parent; every later one has a parent link
to an earlier state whose node has it as a neighbour in the link's direction. -/
theorem parents_of_build (h : Built q directed ops)
    (hbuild : build q (Positions.ofGraph q) sizes = some o) :
    o.parents.length = o.nodes.length ∧ (0 < o.nodes.length → o.parents[0]? = some none) ∧
      ∀ s, 0 < s → s < o.nodes.length → ∃ l, o.parents[s]? = some (some l) ∧ l.state < s ∧
        (q.indexOf ((Positions.ofGraph q).node (o.nodeAt l.state)) l.dir).hasNeighbour
          ((Positions.ofGraph q).node (o.nodeAt s)) = true := by
  obtain ⟨g, hg, rfl⟩ := build_eq_some hbuild
  have hinv := (foldlM_grow_choice h.nodup_ids _ hg).links
  refine ⟨List.length_map _, fun hpos => ?_, fun s hs hsn => ?_⟩
  · have hr := List.getElem?_eq_getElem hpos
    rw [List.getElem?_map, hr, Option.map_some,
      hinv.first_none _ (by rw [List.head?_eq_getElem?]; exact hr)]
  · have hr := List.getElem?_eq_getElem hsn
    obtain ⟨l, hl, hls, p, hp, hn⟩ := hinv.ordered_link s _ hs hr
    refine ⟨l, by rw [List.getElem?_map, hr, Option.map_some, hl], hls, ?_⟩
    rw [@nodeAt_eq_of_getElem? ⟨g.ordered, _, _⟩ _ _ hp, @nodeAt_eq_of_getElem? ⟨g.ordered, _, _⟩ _ _ hr]
    exact hn

/-- Every node state of a planned order holds the greedy choice after the states before it. -/
theorem greedy_of_build (h : Built q directed ops)
    (hbuild : build q (Positions.ofGraph q) sizes = some o) :
    ∀ s < o.nodes.length, GreedyChoice q (Positions.ofGraph q) sizes (o.nodes.take s) (o.nodeAt s) := by
  obtain ⟨g, hg, rfl⟩ := build_eq_some hbuild
  intro s hs
  have hget := List.getElem?_eq_getElem hs
  rw [nodeAt_eq_of_getElem? hget]
  exact (foldlM_grow_choice h.nodup_ids _ hg).greedy s _ hget

theorem nodup_edges_of_build (h : Built q directed ops)
    (hbuild : build q (Positions.ofGraph q) sizes = some o) : (o.edges.map (·.edge)).Nodup := by
  obtain ⟨hnd, hmem, -, hedges, -⟩ := build_spec h.nodup_ids hbuild
  rw [hedges]
  exact (nodup_edgeStates h _ _).map_on fun oe hoe oe' hoe' heq =>
    edge_injOn_edgeStates h hnd (fun p hp => (hmem p).1 hp) hoe hoe' heq

/-- The edges of a planned order are the live query edges between two distinct declared
nodes. -/
theorem mem_edges_of_build (h : Built q directed ops)
    (hbuild : build q (Positions.ofGraph q) sizes = some o) (i : Nat) :
    i ∈ o.edges.map (·.edge) ↔ q.IsLiveEdge i ∧ ∃ e, q.edges[i]? = some e ∧ e.source ≠ e.dest ∧
      q.containsNode e.source = true ∧ q.containsNode e.dest = true := by
  obtain ⟨hnd, hmem, -, hedges, -⟩ := build_spec h.nodup_ids hbuild
  rw [hedges]
  constructor
  · intro hi
    obtain ⟨oe, hoe, rfl⟩ := List.mem_map.1 hi
    obtain ⟨sp, dp, qe, hsp, hdp, hne, hqe, hlive, -, hx⟩ :=
      link_of_mem_edgeStates h hnd (fun p hp => (hmem p).1 hp) hoe
    -- the ends of the edge are the nodes of the two states, and those are declared
    have hdecl : ∀ {s p}, o.nodes[s]? = some p →
        q.containsNode ((Positions.ofGraph q).node p) = true := fun hp =>
      Positions.containsNode_node ((hmem _).1 (List.mem_of_getElem? hp))
    rcases Edge.joins_of_mem_links hx with ⟨h1, h2⟩ | ⟨h1, h2⟩
    · exact ⟨hlive, qe, hqe, by rw [h1, h2]; exact hne, h1 ▸ hdecl hsp, h2 ▸ hdecl hdp⟩
    · exact ⟨hlive, qe, hqe, by rw [h1, h2]; exact hne ∘ Eq.symm, h1 ▸ hdecl hdp, h2 ▸ hdecl hsp⟩
  · rintro ⟨hlive, qe, hqe, hloop, hs, hd⟩
    exact mem_map_edge_edgeStates_of_live h hmem hlive hqe hloop hs hd

/-- Each edge state of a planned order is a query edge between the nodes of a later and an
earlier node state, in the direction it has seen from the later one. -/
theorem link_of_mem_edges (h : Built q directed ops)
    (hbuild : build q (Positions.ofGraph q) sizes = some o) {oe : OrderedEdge}
    (hoe : oe ∈ o.edges) :
    oe.dest < oe.source ∧ oe.source < o.nodes.length ∧ ∃ e, q.edges[oe.edge]? = some e ∧
      (e.source = (Positions.ofGraph q).node (o.nodeAt oe.source) ∧
          e.dest = (Positions.ofGraph q).node (o.nodeAt oe.dest) ∨
        e.source = (Positions.ofGraph q).node (o.nodeAt oe.dest) ∧
          e.dest = (Positions.ofGraph q).node (o.nodeAt oe.source)) ∧
      oe.dir = if directed then
        (if e.source = (Positions.ofGraph q).node (o.nodeAt oe.source) then .outgoing
          else .incoming)
      else .reciprocal := by
  obtain ⟨hnd, hmem, -, hedges, -⟩ := build_spec h.nodup_ids hbuild
  rw [hedges] at hoe
  obtain ⟨sp, dp, qe, hsp, hdp, hne, hqe, -, hd, hx⟩ :=
    link_of_mem_edgeStates h hnd (fun p hp => (hmem p).1 hp) hoe
  rw [nodeAt_eq_of_getElem? hsp, nodeAt_eq_of_getElem? hdp]
  exact ⟨(mem_edgeStates.1 hoe).1, (List.getElem?_eq_some_iff.1 hsp).1, qe, hqe,
    Edge.joins_of_mem_links hx, Edge.dir_eq_of_mem_links hne hd hx⟩

/-- The first edge state of a planned order joins node states 1 and 0: the edge states come in
order of their states, and state 1 was picked next to state 0. -/
theorem head_edges_of_build (h : Built q directed ops)
    (hbuild : build q (Positions.ofGraph q) sizes = some o) :
    ∃ first rest, o.edges = first :: rest ∧ first.source = 1 ∧ first.dest = 0 := by
  obtain ⟨-, -, hparent, hedges, hne⟩ := build_spec h.nodup_ids hbuild
  obtain ⟨first, rest, hcons⟩ := List.exists_cons_of_ne_nil hne
  have hfirst : first ∈ edgeStates q (Positions.ofGraph q) o.nodes := by
    rw [← hedges, hcons]
    exact List.mem_cons_self
  obtain ⟨hlt, sp, -, hsp, -⟩ := mem_edgeStates.1 hfirst
  have h1 : 1 < o.nodes.length := by
    have := (List.getElem?_eq_some_iff.1 hsp).1
    omega
  obtain ⟨j, hj, p, hp, hadj⟩ := hparent 1 o.nodes[1] Nat.one_pos (List.getElem?_eq_getElem h1)
  obtain ⟨e, d, h10⟩ := exists_mem_edgeStates_of_adjacent h (List.getElem?_eq_getElem h1) hp hj hadj
  -- the first edge state comes no later than the one between states 1 and 0
  have hle : first.source < 1 ∨ first.source = 1 ∧ first.dest ≤ j := by
    have hs := sorted_lex_edgeStates q (Positions.ofGraph q) o.nodes
    rw [← hedges, hcons] at hs h10
    rcases List.mem_cons.1 h10 with heq | hmem
    · rw [← heq]
      exact .inr ⟨rfl, Nat.le_refl _⟩
    · exact List.rel_of_pairwise_cons hs hmem
  exact ⟨first, rest, hcons, by omega, by omega⟩

end Built

/-- What a planned order of query `q` is: it binds every position once, the first with most
neighbours overall and each next one, among the positions next to those bound, with most
neighbours among them, ties going to the smaller domain; each position after the first has a
parent link to the earlier state it was reached from; and the edge states list every live query
edge between two distinct declared nodes once, from its later state to its earlier one, in the
direction it has seen from the later node, by increasing pair of states, the first between
states 1 and 0. -/
structure GreedyOrder (q : Graph) (pos : Positions) (sizes : List Nat) (o : MatchingOrder) :
    Prop where
  perm : o.nodes.Perm (List.range pos.size)
  length_parents : o.parents.length = pos.size
  parent_first : o.parents[0]? = some none
  parent_link : ∀ s, 0 < s → s < pos.size → ∃ l, o.parents[s]? = some (some l) ∧ l.state < s ∧
    (q.indexOf (pos.node (o.nodeAt l.state)) l.dir).hasNeighbour (pos.node (o.nodeAt s)) = true
  greedy : ∀ s < pos.size, GreedyChoice q pos sizes (o.nodes.take s) (o.nodeAt s)
  nodup_edges : (o.edges.map (·.edge)).Nodup
  mem_edges : ∀ i, i ∈ o.edges.map (·.edge) ↔ q.IsLiveEdge i ∧ ∃ e, q.edges[i]? = some e ∧
    e.source ≠ e.dest ∧ q.containsNode e.source = true ∧ q.containsNode e.dest = true
  edge_link : ∀ oe ∈ o.edges, oe.dest < oe.source ∧ oe.source < pos.size ∧
    ∃ e, q.edges[oe.edge]? = some e ∧
      (e.source = pos.node (o.nodeAt oe.source) ∧ e.dest = pos.node (o.nodeAt oe.dest) ∨
        e.source = pos.node (o.nodeAt oe.dest) ∧ e.dest = pos.node (o.nodeAt oe.source)) ∧
      oe.dir = if q.directed then
        (if e.source = pos.node (o.nodeAt oe.source) then .outgoing else .incoming)
      else .reciprocal
  sorted : o.edges.Pairwise fun a b => a.source < b.source ∨ a.source = b.source ∧ a.dest ≤ b.dest
  first_edge : ∃ first rest, o.edges = first :: rest ∧ first.source = 1 ∧ first.dest = 0

/-- The matching order exists exactly when the query has two positions or more, connected
through edges between distinct nodes, and it is then a greedy order. -/
theorem build_greedy_spanning_order (directed : Bool) (ops : List GraphOp) (sizes : List Nat) :
    let q := Graph.ofOps directed ops
    let pos := Positions.ofGraph q
    ((build q pos sizes).isSome ↔
      2 ≤ pos.size ∧ ∀ p < pos.size, ∀ r < pos.size, Relation.ReflTransGen (Linked q pos) p r) ∧
    ∀ o, build q pos sizes = some o → GreedyOrder q pos sizes o := by
  dsimp only
  have h := built_ofOps directed ops
  refine ⟨build_isSome_iff h, fun o hbuild => ?_⟩
  have hperm := nodes_perm_of_build h hbuild
  have hlen := hperm.length_eq.trans List.length_range
  have htwo := ((build_isSome_iff h).1 (Option.isSome_of_eq_some hbuild)).1
  obtain ⟨hplen, hzero, hlink⟩ := parents_of_build h hbuild
  refine ⟨hperm, hplen.trans hlen, hzero (by omega), fun s hs hsn => hlink s hs (by omega),
    fun s hs => greedy_of_build h hbuild s (by omega), nodup_edges_of_build h hbuild,
    mem_edges_of_build h hbuild, fun oe hoe => ?_, ?_, head_edges_of_build h hbuild⟩
  · obtain ⟨hlt, hsrc, hrest⟩ := link_of_mem_edges h hbuild hoe
    rw [h.directed_eq]
    exact ⟨hlt, by omega, hrest⟩
  · rw [(build_spec h.nodup_ids hbuild).2.2.2.1]
    exact sorted_lex_edgeStates _ _ _

/-- The directed triangle 0 → 1 → 2, 0 → 2 has a matching order. -/
theorem build_greedy_spanning_order_of_triangle :
    let q := Graph.ofOps true [.addNode 0 0, .addNode 1 0, .addNode 2 0, .addEdge 0 1 5 0,
      .addEdge 1 2 7 0, .addEdge 0 2 9 0]
    let pos := Positions.ofGraph q
    (build q pos [2, 1, 1]).isSome = true ∧
      ((build q pos [2, 1, 1]).isSome ↔ 2 ≤ pos.size ∧
        ∀ p < pos.size, ∀ r < pos.size, Relation.ReflTransGen (Linked q pos) p r) ∧
      ∀ o, build q pos [2, 1, 1] = some o → GreedyOrder q pos [2, 1, 1] o :=
  ⟨by decide +kernel, build_greedy_spanning_order true _ _⟩

-- every node has two neighbours, so the smaller domain of node 1 puts it first, and node 2
-- comes before node 0 for the same reason
example : ((build (Graph.ofOps true [.addNode 0 0, .addNode 1 0, .addNode 2 0, .addEdge 0 1 5 0,
    .addEdge 1 2 7 0, .addEdge 0 2 9 0]) (Positions.ofGraph (Graph.ofOps true [.addNode 0 0,
    .addNode 1 0, .addNode 2 0, .addEdge 0 1 5 0, .addEdge 1 2 7 0, .addEdge 0 2 9 0]))
    [2, 1, 1]).map (·.nodes)) = some [1, 2, 0] := by
  decide +kernel

end MatchingOrder

end TemporalMotif
