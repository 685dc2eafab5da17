import TemporalMotif.Proofs.Backtracking
import TemporalMotif.Proofs.Correspondence

/-!
# The search state at every turn

At the top of every turn of the loop, at edge state `si`, the context binds exactly the edge
states below `si` and the node states they reach, and what it binds is a partial occurrence:
distinct target nodes from their positions' domains, distinct live target edges with the query
edges' labels joining the images of their two node states in the planned direction, at times
ordered as the query's and within the maximum span of each other. The matched sets hold exactly
the bound nodes and edges, and the multiset of times exactly the bound times. Undoing a binding
right after making it gives back a context that holds the same (`loop_state_invariant`).

The proof carries `SearchInv` along the turns: the loop's own invariant `LoopInv`, the states
from the current one on unbound, the assignment before each state up to the current one a
consistent partial occurrence, and the candidates loaded there offered over it. One lemma per
kind of turn keeps it (`searchInv_take_last`, `searchInv_take_next`, `searchInv_climb`,
`searchInv_reload`), and the step lemma `searchInv_step` assembles them.
-/

namespace TemporalMotif

namespace SearchSpace

variable {sp : SearchSpace}

theorem assign_nil : sp.assign [] [] = Assignment.init sp.order.nodes.length := by
  simp [assign, Assignment.init]

variable (sp) in
/-- The candidates `cs` loaded at edge state `j` over the assignment `a` before it are offered
there: starts at a root from node state 0's domain at state 0, and the state's extensions of `a`
at a later state. -/
def Offers : Nat → Assignment → List Candidate → Prop
  | 0, _, cs => ∀ c ∈ cs, ∃ r, sp.domains.allows (sp.order.nodeAt 0) r = true ∧ c ∈ sp.starts r
  | j + 1, a, cs => ∀ c ∈ cs, c ∈ sp.extensions a (j + 1) (sp.order.edgeAt (j + 1))

variable (sp) in
/-- The invariant the loop keeps between turns. -/
structure SearchInv (l : SearchLoop) : Prop where
  loop : sp.LoopInv l
  unbound : ∀ j, l.state ≤ j → l.ctx.active.getD j none = none
  consistent : ∀ j ≤ l.state, ∃ Φ Ψ, sp.replay l.ctx j = sp.assign Φ Ψ ∧ Ψ.length = j ∧
    sp.Consistent Φ Ψ
  offers : ∀ j ≤ l.state, sp.Offers j (sp.replay l.ctx j) (l.ctx.candidates.getD j [])
  roots : ∀ r ∈ l.roots, sp.domains.allows (sp.order.nodeAt 0) r = true

variable {l : SearchLoop}

/-- Nothing bound is a consistent partial occurrence of no edge state. -/
theorem consistent_replay_zero (ctx : SearchContext) :
    ∃ Φ Ψ, sp.replay ctx 0 = sp.assign Φ Ψ ∧ Ψ.length = 0 ∧ sp.Consistent Φ Ψ :=
  ⟨[], [], assign_nil.symm, rfl, consistent_nil⟩

/-- A turn that changes neither the edge state, the active candidates, the loaded candidates nor
the roots keeps the invariant, once the loop's own invariant is kept. -/
theorem SearchInv.of_same (hinv : sp.SearchInv l) {l' : SearchLoop} (hloop : sp.LoopInv l')
    (hs : l'.state = l.state) (ha : l'.ctx.active = l.ctx.active)
    (hc : l'.ctx.candidates = l.ctx.candidates) (hr : l'.roots = l.roots) : sp.SearchInv l' := by
  have hrep : ∀ j, sp.replay l'.ctx j = sp.replay l.ctx j := fun j =>
    replay_congr fun i _ => by rw [ha]
  refine ⟨hloop, fun j hj => ?_, fun j hj => ?_, fun j hj => ?_, fun r h => hinv.roots r (hr ▸ h)⟩
  · rw [ha]
    exact hinv.unbound j (hs ▸ hj)
  · rw [hrep]
    exact hinv.consistent j (hs ▸ hj)
  · rw [hrep, hc]
    exact hinv.offers j (hs ▸ hj)

theorem SearchInv.tick (hinv : sp.SearchInv l) (n : Nat) : sp.SearchInv { l with steps := n } :=
  hinv.of_same (hinv.loop.tick n) rfl rfl rfl rfl

/-- A candidate offered over a consistent partial occurrence of `j` edge states binds a consistent
one of `j + 1`. -/
theorem consistent_bind (hp : sp.Planned tops) {j : Nat} (hj : j < sp.order.edges.length)
    {Φ Ψ : List Nat} (hlen : Ψ.length = j) (hc : sp.Consistent Φ Ψ) {cs : List Candidate}
    (hoff : sp.Offers j (sp.assign Φ Ψ) cs) {c : Candidate} (hmem : c ∈ cs) :
    ∃ Φ' Ψ', sp.bindCandidate (sp.assign Φ Ψ) (sp.order.edgeAt j) c = sp.assign Φ' Ψ' ∧
      Ψ'.length = j + 1 ∧ sp.Consistent Φ' Ψ' := by
  have hoe := edgeAt_getElem? hj
  cases j with
  | zero =>
    -- the first edge state binds a start at a root of node state 0's domain
    obtain ⟨r, hr, hcr⟩ := hoff c hmem
    obtain ⟨far, e, -, hc', hbind⟩ := starts_sound hp hoe hr hcr
    obtain ⟨rfl, rfl⟩ : Φ = [] ∧ Ψ = [] := by
      have hΨ := List.length_eq_zero_iff.1 hlen
      subst hΨ
      exact ⟨List.length_eq_zero_iff.1 (by rw [hc.bound]; rfl), rfl⟩
    exact ⟨[r, far], [e], by rw [assign_nil]; exact hbind, rfl, hc'⟩
  | succ j =>
    have hoe' : sp.order.edges[Ψ.length]? = some (sp.order.edgeAt (j + 1)) := hlen ▸ hoe
    obtain ⟨Φ', -, hc', hbind⟩ :=
      extensions_sound hp hc hoe' (by omega) (by rw [hlen]; exact hoff c hmem)
    exact ⟨Φ', Ψ ++ [c.edge], hbind, by simp [hlen], hc'⟩

/-- Taking the last state's candidate hands on an occurrence and undoes the binding at once: the
context is the old one with the state's cursor moved on. -/
theorem searchInv_take_last (hinv : sp.SearchInv l) {c : Candidate} {ctx : SearchContext}
    (h : l.ctx.nextCandidate l.state = some (c, ctx))
    (hlast : l.state = sp.order.edges.length - 1) :
    let ctx' := ctx.bind l.state (sp.order.edgeAt l.state) c (sp.targetTime c.edge)
    sp.SearchInv { l with steps := l.steps + 1,
                          ctx := ctx'.unbind l.state (sp.order.edgeAt l.state),
                          found := l.found ++ [ctx'.bound],
                          summary := { l.summary with occurrences := l.summary.occurrences + 1 },
                          progress := { l.progress with
                                        occurrences := l.progress.occurrences + 1 } } := by
  intro ctx'
  have ha := advances_take_last hinv.loop h hlast
  obtain ⟨-, hfit, rfl⟩ := take_facts hinv.loop h
  have hs : l.state < ({ l.ctx with cursors := l.ctx.cursors.modify l.state (· + 1) } :
      SearchContext).active.size := by
    rw [hinv.loop.size_active]; exact hinv.loop.state_lt
  have htr : ({ l.ctx with cursors := l.ctx.cursors.modify l.state (· + 1) } :
      SearchContext).Tracks := hinv.loop.tracks.congr rfl rfl rfl rfl
  -- the binding is undone at once, so only the state's cursor has moved
  have hsame := htr.unbind_bind hs (hinv.unbound l.state (Nat.le_refl _)) hfit hinv.loop.sizes.1
    hinv.loop.sizes.2 (sp.targetTime c.edge)
  exact hinv.of_same ha.inv rfl hsame.active hsame.candidates rfl

/-- Taking a candidate at an earlier state binds it, as a consistent extension, and loads the next
state's extensions. -/
theorem searchInv_take_next (hp : sp.Planned tops) (hinv : sp.SearchInv l) {c : Candidate}
    {ctx : SearchContext} (h : l.ctx.nextCandidate l.state = some (c, ctx))
    (hlast : l.state ≠ sp.order.edges.length - 1) :
    let ctx' := ctx.bind l.state (sp.order.edgeAt l.state) c (sp.targetTime c.edge)
    sp.SearchInv { l with
      steps := l.steps + 1,
      ctx := ctx'.load (l.state + 1)
        (sp.extensionsOf ctx'.bindings (l.state + 1) (sp.order.edgeAt (l.state + 1))),
      state := l.state + 1 } := by
  intro ctx'
  have ha := advances_take_next hp.chain.joins hinv.loop h hlast
  obtain ⟨-, hfit, -⟩ := take_facts hinv.loop h
  obtain ⟨hdrop, rfl⟩ := nextCandidate_eq_some h
  -- the sets follow the arrays after the binding, so the candidates loaded are the search's
  have hload : sp.extensionsOf ctx'.bindings (l.state + 1) (sp.order.edgeAt (l.state + 1)) =
      sp.extensions ctx'.bound (l.state + 1) (sp.order.edgeAt (l.state + 1)) := by
    rw [(hinv.loop.tracks_bind hfit _).bindings_eq]
    rfl
  have hmem : c ∈ l.ctx.candidates.getD l.state [] :=
    List.mem_of_mem_drop (hdrop ▸ List.mem_cons_self)
  set s := l.state with hs_def
  set next := ctx'.load (s + 1) (sp.extensionsOf ctx'.bindings (s + 1) (sp.order.edgeAt (s + 1)))
    with hnext
  have hb : l.ctx.bound = sp.replay l.ctx s := hinv.loop.bound
  have hs := hinv.loop.state_lt
  have hs1 : s + 1 < sp.order.edges.length := by omega
  have hsa : s < l.ctx.active.size := by rw [hinv.loop.size_active]; exact hs
  have hsc : s + 1 < l.ctx.candidates.size := by rw [hinv.loop.size_candidates]; exact hs1
  -- the new context binds `c` at `s` and loads state `s + 1`; below `s` nothing changes
  have hact : ∀ i, i ≠ s → next.active.getD i none = l.ctx.active.getD i none := fun i hi =>
    Array.getD_setIfInBounds_of_ne _ (Ne.symm hi) _
  have hcand : ∀ i, i ≠ s + 1 → next.candidates.getD i [] = l.ctx.candidates.getD i [] :=
    fun i hi =>
    Array.getD_setIfInBounds_of_ne _ (Ne.symm hi) _
  have hc : next.active.getD s none = some c :=
    Array.getD_setIfInBounds_self _ hsa _
  have hrep : ∀ j ≤ s, sp.replay next j = sp.replay l.ctx j := fun j hj =>
    replay_congr fun i hi => hact i (by omega)
  have hrep' : sp.replay next (s + 1) = ctx'.bound := by
    simp only [replay, hc, hrep s (Nat.le_refl s), ← hb]
    rfl
  refine ⟨ha.inv, fun j hj => ?_, fun j hj => ?_, fun j hj => ?_, hinv.roots⟩
  · rw [hact j (by simp only at hj; omega)]
    exact hinv.unbound j (by simp only at hj; omega)
  · have hj' : j ≤ s + 1 := hj
    rcases Nat.lt_or_eq_of_le hj' with hj' | rfl
    · rw [hrep j (by omega)]
      exact hinv.consistent j (by omega)
    · -- the new binding extends the consistent partial occurrence before `s`
      obtain ⟨Φ, Ψ, hΦΨ, hlen, hcons⟩ := hinv.consistent s (Nat.le_refl s)
      have hoff := hinv.offers s (Nat.le_refl s)
      rw [hΦΨ] at hoff
      rw [hrep', show ctx'.bound = sp.bindCandidate (sp.assign Φ Ψ) (sp.order.edgeAt s) c by
        rw [← hΦΨ, ← hb]; rfl]
      exact consistent_bind hp hs hlen hcons hoff hmem
  · have hj' : j ≤ s + 1 := hj
    rcases Nat.lt_or_eq_of_le hj' with hj' | rfl
    · rw [hrep j (by omega), hcand j (by omega)]
      exact hinv.offers j (by omega)
    · -- the loaded candidates are the extensions over the new binding
      have hloaded : next.candidates.getD (s + 1) [] =
          sp.extensions ctx'.bound (s + 1) (sp.order.edgeAt (s + 1)) :=
        (Array.getD_setIfInBounds_self _ hsc _).trans hload
      show sp.Offers (s + 1) (sp.replay next (s + 1)) (next.candidates.getD (s + 1) [])
      rw [hrep', hloaded]
      intro c' hc'
      exact hc'

/-- A state that has run out climbs back and unbinds the state below it. -/
theorem searchInv_climb (hinv : sp.SearchInv l) (h : l.ctx.nextCandidate l.state = none)
    (hs0 : l.state ≠ 0) :
    sp.SearchInv { l with
      steps := l.steps + 1, state := l.state - 1,
      ctx := l.ctx.unbind (l.state - 1) (sp.order.edgeAt (l.state - 1)) } := by
  have ha := advances_climb hinv.loop h hs0
  obtain ⟨c₀, hc₀, -⟩ := hinv.loop.active (l.state - 1) (by omega)
  have hsa : l.state - 1 < l.ctx.active.size := by
    rw [hinv.loop.size_active]; have := hinv.loop.state_lt; omega
  have hact : (l.ctx.unbind (l.state - 1) (sp.order.edgeAt (l.state - 1))).active =
      l.ctx.active.setIfInBounds (l.state - 1) none :=
    (SearchContext.unbind_of_active _ hc₀).2.1
  have hrep : ∀ j ≤ l.state - 1,
      sp.replay (l.ctx.unbind (l.state - 1) (sp.order.edgeAt (l.state - 1))) j = sp.replay l.ctx j :=
    fun j hj => replay_congr fun i hi => by
      rw [hact, Array.getD_setIfInBounds_of_ne _ (by omega)]
  refine ⟨ha.inv, fun j hj => ?_, fun j hj => ?_, fun j hj => ?_, hinv.roots⟩
  · simp only at hj
    rw [hact]
    rcases Nat.lt_or_eq_of_le hj with hj' | rfl
    · rw [Array.getD_setIfInBounds_of_ne _ (by omega)]
      exact hinv.unbound j (by omega)
    · exact Array.getD_setIfInBounds_self _ hsa _
  · rw [hrep j hj]
    exact hinv.consistent j (by simp only at hj; omega)
  · have hcand : (l.ctx.unbind (l.state - 1) (sp.order.edgeAt (l.state - 1))).candidates =
        l.ctx.candidates :=
      (SearchContext.unbind_slots _ _ _).1
    show sp.Offers j _ ((l.ctx.unbind (l.state - 1) (sp.order.edgeAt (l.state - 1))).candidates.getD j [])
    rw [hrep j hj, hcand]
    exact hinv.offers j (by simp only at hj; omega)

/-- Loading a root: the next root that has start candidates, all of which are offered there. -/
theorem searchInv_reload (hp : sp.Planned tops) (hinv : sp.SearchInv l)
    (h : l.ctx.nextCandidate l.state = none)
    (hs : l.state = 0) {l' : SearchLoop} (hl : sp.loadRoot false l.roots l = (true, l')) :
    sp.SearchInv l' := by
  have ha := advances_reload hp.chain.joins hinv.loop h hs hl
  cases hd : l.roots.dropWhile (fun x => (sp.starts x).isEmpty) with
  | nil => rw [loadRoot_eq_false hd] at hl; cases hl
  | cons r rest =>
    rw [loadRoot_eq_true hd] at hl
    obtain rfl := (Prod.mk.inj hl).2
    have hsuf : (r :: rest) <:+ l.roots := hd ▸ List.dropWhile_suffix _
    have hr : sp.domains.allows (sp.order.nodeAt 0) r = true :=
      hinv.roots r (hsuf.subset List.mem_cons_self)
    have hsize : 0 < l.ctx.candidates.size := by
      rw [hinv.loop.size_candidates]; exact hs ▸ hinv.loop.state_lt
    refine ⟨ha.inv, fun j _ => hinv.unbound j (by omega), fun j hj => ?_, fun j hj => ?_,
      fun x hx => hinv.roots x (hsuf.subset (List.mem_cons_of_mem r hx))⟩
    · obtain rfl : j = 0 := by simp only at hj; omega
      exact consistent_replay_zero _
    · obtain rfl : j = 0 := by simp only at hj; omega
      -- state 0 now holds the starts at `r`
      intro c hc
      simp only [SearchContext.load, Array.getD_setIfInBounds_self _ hsize] at hc
      exact ⟨r, hr, hc⟩

/-- The step lemma: every turn that goes on keeps the invariant, with the cancellation flag up or
down. -/
theorem searchInv_step (hp : sp.Planned tops) {cancelled : Bool} (hinv : sp.SearchInv l)
    {l' : SearchLoop} (hstep : sp.step cancelled l = .more l') : sp.SearchInv l' := by
  have h' : sp.step false l = .more l' := by
    cases cancelled
    · exact hstep
    · exact step_of_cancelled hstep
  cases h : l.ctx.nextCandidate l.state with
  | some x =>
    obtain ⟨c, ctx⟩ := x
    rw [step_take h] at h'
    by_cases hlast : l.state = sp.order.edges.length - 1
    · rw [if_pos hlast] at h'
      cases h'
      exact searchInv_take_last hinv h hlast
    · rw [if_neg hlast] at h'
      cases h'
      exact searchInv_take_next hp hinv h hlast
  | none =>
    by_cases hs : l.state = 0
    · obtain ⟨b, l₂, hb⟩ : ∃ b l₂, sp.loadRoot false l.roots { l with steps := l.steps + 1 } =
          (b, l₂) := ⟨_, _, rfl⟩
      cases b
      · rw [step_finish h hs hb] at h'
        cases h'
      · rw [step_reload h hs hb] at h'
        cases h'
        exact searchInv_reload hp (hinv.tick (l.steps + 1)) h hs hb
    · rw [step_climb h hs] at h'
      cases h'
      exact searchInv_climb hinv h hs

variable (sp) in
/-- The loop states that a run over `roots` is in at the top of a turn: the state once the first
root is loaded, and every state a turn that goes on leads to. -/
inductive Reaches (cancelled : Bool) (roots : List Nat) (p : Progress) : SearchLoop → Prop
  | start {l : SearchLoop} : sp.loadRoot cancelled roots (sp.initLoop roots p) = (true, l) →
      Reaches cancelled roots p l
  | turn {l l' : SearchLoop} : Reaches cancelled roots p l → sp.step cancelled l = .more l' →
      Reaches cancelled roots p l'

/-- The run lemma: every state a run over roots from node state 0's domain reaches keeps the
invariant. -/
theorem searchInv_of_reaches (hp : sp.Planned tops) {roots : List Nat}
    (hroots : ∀ r ∈ roots, sp.domains.allows (sp.order.nodeAt 0) r = true) {cancelled : Bool}
    {p : Progress} (h : sp.Reaches cancelled roots p l) : sp.SearchInv l := by
  induction h with
  | start hl =>
    -- only an uncancelled run loads its first root
    obtain rfl : cancelled = false := by
      cases cancelled
      · rfl
      · have := loadRoot_cancelled sp roots (sp.initLoop roots p)
        rw [hl] at this
        cases this
    have h0 := edges_pos_of_loadRoot hl
    have hinit : sp.SearchInv (sp.initLoop roots p) := by
      refine ⟨loopInv_new h0, fun j _ => Array.getD_replicate _ _ _, fun j hj => ?_, fun j hj => ?_,
        hroots⟩
      · obtain rfl : j = 0 := Nat.le_zero.1 hj
        exact consistent_replay_zero _
      · obtain rfl : j = 0 := Nat.le_zero.1 hj
        intro c hc
        simp only [initLoop, SearchContext.new, Array.getD_replicate] at hc
        exact absurd hc List.not_mem_nil
    exact searchInv_reload hp hinit (nextCandidate_new _ _) rfl hl
  | turn _ hstep ih => exact searchInv_step hp ih hstep

variable (sp) in
/-- What holds at the top of every turn of the loop, at edge state `si = l.state`. The edge states
below `si` are bound and the others unbound; the node states bound are those up to the later node
state of edge state `si - 1`; the bound edges and their times are listed in state order. The
matched sets hold exactly the nodes and the edges bound, and the multiset of times exactly the
bound times, each with its copies. What is bound is a partial occurrence: distinct nodes from
their positions' domains; distinct live edges with the query edges' labels, each joining the
images of its two node states in the planned direction; times ordered as the query's and within
the maximum span of each other. Binding any candidate of state `si` and undoing it at once gives
back a context that holds the same arrays, sets and multiset. -/
structure TurnState (l : SearchLoop) : Prop where
  bound_below : ∀ j < l.state, (l.ctx.active.getD j none).isSome
  unbound_from : ∀ j, l.state ≤ j → l.ctx.active.getD j none = none
  node_states : ∀ s, (l.ctx.bound.nodeAt? s).isSome ↔
    0 < l.state ∧ s ≤ (sp.order.edgeAt (l.state - 1)).source
  edge_states : l.ctx.bound.edges.size = l.state
  times : l.ctx.bound.times.toList = l.ctx.bound.edges.toList.map sp.targetTime
  matched_nodes : ∀ v, v ∈ l.ctx.matchedNodes ↔ ∃ s, l.ctx.bound.nodeAt? s = some v
  matched_edges : ∀ e, e ∈ l.ctx.matchedEdges ↔ ∃ s < l.state, l.ctx.bound.edges[s]? = some e
  time_copies : l.ctx.times.Holds ↑l.ctx.bound.times.toList
  nodes_inj : ∀ s s' v, l.ctx.bound.nodeAt? s = some v → l.ctx.bound.nodeAt? s' = some v → s = s'
  edges_nodup : l.ctx.bound.edges.toList.Nodup
  domain : ∀ s v, l.ctx.bound.nodeAt? s = some v → sp.domains.allows (sp.order.nodeAt s) v = true
  edge : ∀ s < l.state, ∃ e x y te, l.ctx.bound.edges[s]? = some e ∧
    l.ctx.bound.nodeAt? (sp.order.edgeAt s).source = some x ∧
    l.ctx.bound.nodeAt? (sp.order.edgeAt s).dest = some y ∧
    sp.target.edges[e]? = some te ∧ sp.target.IsLiveEdge e ∧
    sp.targetLabel? e = sp.queryLabel? (sp.order.edgeAt s).edge ∧
    (x, y) ∈ te.links (sp.order.edgeAt s).dir
  order : ∀ j < l.state, ∀ k < l.state,
    compare (l.ctx.bound.timeAt j) (l.ctx.bound.timeAt k) = compare (sp.queryTime j) (sp.queryTime k)
  within : ∀ v, sp.span = .within v → ∀ j < l.state, ∀ k < l.state,
    l.ctx.bound.timeAt j - l.ctx.bound.timeAt k ≤ v
  restores : ∀ c ∈ l.ctx.candidates.getD l.state [], ∀ t : Int,
    ((l.ctx.bind l.state (sp.order.edgeAt l.state) c t).unbind l.state
      (sp.order.edgeAt l.state)).Same l.ctx

/-- The node states bound after the first `j` edge states are those up to the later node state of
edge state `j - 1`. -/
theorem lt_boundAfter_iff {j : Nat} (hj : j ≤ sp.order.edges.length) (s : Nat) :
    s < MatchingOrder.boundAfter sp.order.edges j ↔
      0 < j ∧ s ≤ (sp.order.edgeAt (j - 1)).source := by
  cases j with
  | zero => simp [MatchingOrder.boundAfter]
  | succ j =>
    rw [MatchingOrder.boundAfter_succ (edgeAt_getElem? (by omega))]
    simp only [Nat.lt_succ_iff, Nat.add_sub_cancel]
    omega

/-- The edge state `s` of a consistent partial occurrence binds a live target edge with the query
edge's label, joining the images of its two node states in the planned direction. -/
theorem Consistent.edge (hp : sp.Planned tops) {Φ Ψ : List Nat} (hc : sp.Consistent Φ Ψ) {s : Nat}
    (hs : s < Ψ.length) : ∃ e x y te, (sp.assign Φ Ψ).edges[s]? = some e ∧
      (sp.assign Φ Ψ).nodeAt? (sp.order.edgeAt s).source = some x ∧
      (sp.assign Φ Ψ).nodeAt? (sp.order.edgeAt s).dest = some y ∧
      sp.target.edges[e]? = some te ∧ sp.target.IsLiveEdge e ∧
      sp.targetLabel? e = sp.queryLabel? (sp.order.edgeAt s).edge ∧
      (x, y) ∈ te.links (sp.order.edgeAt s).dir := by
  have hoe := edgeAt_getElem? (Nat.lt_of_lt_of_le hs hc.length_le)
  have he : Ψ[s]? = some Ψ[s] := List.getElem?_eq_getElem hs
  -- both node states of the edge state are bound
  have hsrc : (sp.order.edgeAt s).source < Φ.length := by
    rw [hc.bound]
    exact hp.chain.source_lt_boundAfter hoe hs hc.length_le
  have hdst : (sp.order.edgeAt s).dest < Φ.length :=
    Nat.lt_trans (hp.chain.dest_lt _ (List.mem_of_getElem? hoe)) hsrc
  obtain ⟨-, hlive, te, hte, -, hl⟩ := hp.target.holds_iff.1 (hc.link s Ψ[s] _ he hoe)
  refine ⟨Ψ[s], Φ.getD (sp.order.edgeAt s).source 0, Φ.getD (sp.order.edgeAt s).dest 0, te,
    by simp [assign, he], ?_, ?_, hte, hlive, hc.label s Ψ[s] _ he hoe,
    Edge.mem_links_reversed.1 hl⟩
  · rw [nodeAt?_assign, getElem?_eq_some_getD hsrc]
  · rw [nodeAt?_assign, getElem?_eq_some_getD hdst]

/-- What the invariant says at the top of a turn, in the terms of the state. -/
theorem SearchInv.turnState (hp : sp.Planned tops) (hinv : sp.SearchInv l) : sp.TurnState l := by
  obtain ⟨Φ, Ψ, hrep, hlen, hc⟩ := hinv.consistent l.state (Nat.le_refl _)
  have hb : l.ctx.bound = sp.assign Φ Ψ := hinv.loop.bound.trans hrep
  have hst := hinv.loop.state_lt
  have htr := hinv.loop.tracks
  have hfit := hc.times
  rw [hlen] at hfit
  refine ⟨fun j hj => ?_, hinv.unbound, fun s => ?_, ?_, ?_, fun v => ?_, fun e => ?_, htr.times,
    fun s s' v h h' => ?_, ?_, fun s v h => ?_, fun s hs => ?_, ?_, ?_, fun c hc' t => ?_⟩
  · obtain ⟨c, hc', -⟩ := hinv.loop.active j hj
    simp [hc']
  · rw [hb, nodeAt?_assign, isSome_getElem?, hc.bound, hlen]
    exact lt_boundAfter_iff (Nat.le_of_lt hst) s
  · simp [hb, assign, hlen]
  · simp [hb, assign]
  · -- the matched nodes are the nodes in use, those the node states hold
    rw [htr.nodes, hb, usesNode_assign, decide_eq_true_iff, List.mem_iff_getElem?]
    simp only [nodeAt?_assign]
  · rw [htr.edges, hb, usesEdge_assign, decide_eq_true_iff, List.mem_iff_getElem?]
    simp only [assign, List.getElem?_toArray]
    constructor
    · rintro ⟨s, hs⟩
      exact ⟨s, hlen ▸ (List.getElem?_eq_some_iff.1 hs).1, hs⟩
    · rintro ⟨s, -, hs⟩
      exact ⟨s, hs⟩
  · rw [hb, nodeAt?_assign] at h h'
    have hs := (List.getElem?_eq_some_iff.1 h).1
    exact (List.getElem?_inj hs hc.nodes_nodup).1 (h.trans h'.symm)
  · simpa [hb, assign] using hc.edges_nodup
  · rw [hb, nodeAt?_assign] at h
    exact hc.domain s v h
  · rw [hb]
    exact hc.edge hp (hlen ▸ hs)
  · rw [hb]
    exact hfit.order
  · rw [hb]
    exact hfit.within
  · have hsa : l.state < l.ctx.active.size := by rw [hinv.loop.size_active]; exact hst
    have hfits := hinv.loop.fits l.state (Nat.le_refl _) c hc'
    rw [← hinv.loop.bound] at hfits
    exact htr.unbind_bind hsa (hinv.unbound l.state (Nat.le_refl _)) hfits hinv.loop.sizes.1
      hinv.loop.sizes.2 t

/-- The search-state invariant. For a planned search space and roots from node state 0's domain, at
the top of every turn of the loop of a run, with the cancellation flag up or down, the context
binds exactly the edge states below the current one and the node states they reach, what it binds
is a partial occurrence, and undoing a binding right after making it gives the context back. -/
theorem loop_state_invariant (hp : sp.Planned tops) {roots : List Nat}
    (hroots : ∀ r ∈ roots, sp.domains.allows (sp.order.nodeAt 0) r = true) {cancelled : Bool}
    {p : Progress} {l : SearchLoop} (h : sp.Reaches cancelled roots p l) : sp.TurnState l :=
  (searchInv_of_reaches hp hroots h).turnState hp

/-- A run from root 2 of a one-edge query in a two-edge target, at the top of its first turn. -/
theorem loop_state_invariant_at_first_root :
    let sp : SearchSpace := ⟨Graph.ofOps true [.addNode 0 7, .addNode 1 7, .addEdge 0 1 5 3],
      Graph.ofOps true [.addNode 4 7, .addNode 2 7, .addNode 9 7, .addEdge 2 9 8 3, .addEdge 9 4 6 3],
      .within 2, #[[4, 2, 9], [4, 2, 9]], ⟨[0, 1], [none, none], [⟨0, 1, 0, .incoming⟩]⟩,
      #[⟨none, none⟩]⟩
    let l := (sp.loadRoot false [2] (sp.initLoop [2] ⟨1, 0, 0⟩)).2
    sp.Planned [.addNode 4 7, .addNode 2 7, .addNode 9 7, .addEdge 2 9 8 3, .addEdge 9 4 6 3] ∧
      (∀ r ∈ [2], sp.domains.allows (sp.order.nodeAt 0) r = true) ∧
      sp.Reaches false [2] ⟨1, 0, 0⟩ l ∧ sp.TurnState l := by
  intro sp l
  have hchain : MatchingOrder.Chain sp.order.edges sp.order.nodes.length := by
    refine ⟨by decide, by decide, by decide, fun s h0 h2 => ?_⟩
    obtain rfl : s = 1 := by simp only [sp, List.length_cons, List.length_nil] at h2; omega
    exact ⟨_, List.mem_singleton_self _, rfl⟩
  have hspan : ∀ v, sp.span = .within v → 0 ≤ v ∧ Stamp.InRange v := by
    rintro v ⟨⟩
    decide
  have hp : sp.Planned [.addNode 4 7, .addNode 2 7, .addNode 9 7, .addEdge 2 9 8 3,
      .addEdge 9 4 6 3] := ⟨built_ofOps true _, by decide, hchain, by decide, hspan⟩
  have hroots : ∀ r ∈ [2], sp.domains.allows (sp.order.nodeAt 0) r = true := by decide
  have hl : sp.Reaches false [2] ⟨1, 0, 0⟩ l := .start (Prod.ext (by decide) rfl)
  exact ⟨hp, hroots, hl, loop_state_invariant hp hroots hl⟩

end SearchSpace

end TemporalMotif
