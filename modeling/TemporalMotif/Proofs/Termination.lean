import TemporalMotif.Proofs.SearchLoop

/-!
# The search loop reaches its break

The loop of a run has no structural recursion: the current edge state goes up and down, state 0
switches to the next root, and the cursors are reset on every descent. What ends it is a budget of
turns (`SearchSpace.budget`): a state with `r` candidates left can take a turn for each of them,
followed by the turns of the state after it, and one turn to run out. A state is loaded with at
most as many candidates as the target has index entries, whatever the context's matched sets
hold (`length_extensionsOf_le`, `length_starts_le`), so the turns below a freshly loaded state
are bounded by `SearchSpace.capacity`. Every turn that goes on lowers the budget
(`shape_step`), with the cancellation flag up or down, so from every state that keeps the loop's
shape the loop reaches its break within its budget (`breaksAfter_of_shape`), and a run reaches
it within the fuel it gives its loop, whatever the fuel beyond that (`run_loop_terminates`). None
of this asks anything of the order or of the matched sets: it holds for every search space.
-/

namespace TemporalMotif

/-! ## How many candidates a state is loaded with -/

theorem TimeIndex.length_flatMap_filterMap_le {ix : TimeIndex} {ms : List Moment}
    (hms : ms.Sublist ix.moments) (f : Nat × Nat → Option Candidate) :
    (ms.flatMap fun m => m.links.filterMap f).length ≤ ix.size := by
  calc (ms.flatMap fun m => m.links.filterMap f).length
      = (ms.map fun m => (m.links.filterMap f).length).sum := List.length_flatMap
    _ ≤ (ms.map (·.links.length)).sum := List.sum_le_sum fun m _ => List.length_filterMap_le _ _
    _ ≤ (ix.moments.map (·.links.length)).sum := (hms.map _).sum_le_sum fun _ _ => Nat.zero_le _
    _ ≤ ix.size := Nat.le_add_left _ _

theorem TimeIndex.slice_sublist (ix : TimeIndex) (w : Window) : (ix.slice w).Sublist ix.moments := by
  rw [TimeIndex.slice_eq_filter]
  exact List.filter_sublist

/-- Each time index of a graph is part of its index size. -/
theorem Graph.size_indexOf_le (g : Graph) (node : Nat) (d : Direction) :
    (g.indexOf node d).size ≤ g.indexSize := by
  have hmem : ∀ tb : IndexTable, ∀ ix, tb.get? node = some ix → (node, ix) ∈ tb := by
    intro tb ix h
    obtain ⟨l₁, l₂, rfl, -⟩ := List.lookup_eq_some_iff.1 h
    simp
  have hle : ∀ ix, (node, ix) ∈ g.outgoing ++ g.incoming ++ g.reciprocal → ix.size ≤ g.indexSize :=
    fun ix h => List.le_sum_of_mem (List.mem_map.2 ⟨(node, ix), h, rfl⟩)
  unfold Graph.indexOf
  cases h : g.adjacency node d with
  | none => exact Nat.zero_le _
  | some ix =>
    refine hle ix ?_
    cases d <;> simp only [Graph.adjacency] at h <;> simp [hmem _ _ h]

namespace SearchSpace

variable {sp : SearchSpace}

variable (sp) in
/-- A root has at most as many start candidates as the target has index entries. -/
theorem length_starts_le (r : Nat) : (sp.starts r).length ≤ sp.target.indexSize := by
  unfold starts
  split
  · exact Nat.zero_le _
  · exact (TimeIndex.length_flatMap_filterMap_le (List.Sublist.refl _) _).trans
      (Graph.size_indexOf_le _ _ _)

variable (sp) in
/-- An edge state has at most as many candidates as the target has index entries, whatever the
bindings they are drawn from. -/
theorem length_extensionsOf_le (b : Bindings) (s : Nat) (oe : OrderedEdge) :
    (sp.extensionsOf b s oe).length ≤ sp.target.indexSize := by
  unfold extensionsOf
  split
  · exact Nat.zero_le _
  · rename_i dest _
    have hslice := TimeIndex.slice_sublist (sp.target.indexOf dest oe.dir.reversed)
      (sp.windowOf b s)
    refine le_trans ?_ (Graph.size_indexOf_le sp.target dest oe.dir.reversed)
    split
    · calc _ ≤ _ := List.length_filterMap_le _ _
        _ ≤ _ := List.length_filterMap_le _ _
        _ ≤ _ := hslice.length_le
        _ ≤ _ := Nat.le_add_right _ _
    · exact TimeIndex.length_flatMap_filterMap_le hslice _

/-! ## The budget of turns -/

variable (sp) in
/-- A bound on the turns a freshly loaded state takes, with `k` states from it to the last: each
of its candidates takes a turn and the turns of the state after it, and it takes one more turn to
run out. -/
def capacity : Nat → Nat
  | 0 => 0
  | k + 1 => sp.target.indexSize * (capacity k + 1) + 1

variable (sp) in
/-- The turns edge state `j` of `ctx` can still take: one for each candidate left, with the turns
of the state after it, and one to run out. -/
def slotBudget (ctx : SearchContext) (j : Nat) : Nat :=
  ((ctx.candidates.getD j []).length - ctx.cursors.getD j 0) *
    (sp.capacity (sp.order.edges.length - (j + 1)) + 1) + 1

variable (sp) in
/-- The turns the states below `j` can still take. -/
def pathBudget (ctx : SearchContext) : Nat → Nat
  | 0 => 0
  | j + 1 => sp.slotBudget ctx j + pathBudget ctx j

variable (sp) in
/-- The turns the loop can still take: those of the states up to the current one, and those of
each root left. -/
def budget (l : SearchLoop) : Nat :=
  sp.pathBudget l.ctx (l.state + 1) + l.roots.length * (sp.capacity sp.order.edges.length + 1)

variable (sp) in
/-- The shape the loop keeps whatever it binds: the current state is an edge state, and the
context has a slot for each edge state. -/
structure LoopShape (l : SearchLoop) : Prop where
  state_lt : l.state < sp.order.edges.length
  size_active : l.ctx.active.size = sp.order.edges.length
  size_candidates : l.ctx.candidates.size = sp.order.edges.length
  size_cursors : l.ctx.cursors.size = sp.order.edges.length

variable (sp) in
/-- A freshly loaded state takes fewer than `(B + 2) ^ k` turns, with `k` states from it to the
last and `B` the target's index entries. -/
theorem capacity_lt (k : Nat) : sp.capacity k + 1 ≤ (sp.target.indexSize + 2) ^ k := by
  induction k with
  | zero => simp [capacity]
  | succ k ih =>
    have hpos := Nat.one_le_pow k (sp.target.indexSize + 2) (by omega)
    have hmul := Nat.mul_le_mul_left sp.target.indexSize ih
    simp only [capacity, Nat.pow_succ]
    rw [Nat.mul_comm _ (sp.target.indexSize + 2), Nat.add_mul]
    omega

/-- A state loaded with at most `B` candidates fits the capacity of the state before it. -/
theorem loaded_le {L : List Candidate} (hL : L.length ≤ sp.target.indexSize) (k : Nat) :
    L.length * (sp.capacity k + 1) + 1 ≤ sp.capacity (k + 1) := by
  have := Nat.mul_le_mul_right (sp.capacity k + 1) hL
  simp only [capacity]
  omega

theorem pathBudget_congr {ctx ctx' : SearchContext} :
    ∀ {j : Nat}, (∀ i < j, ctx'.candidates.getD i [] = ctx.candidates.getD i []) →
      (∀ i < j, ctx'.cursors.getD i 0 = ctx.cursors.getD i 0) →
      sp.pathBudget ctx' j = sp.pathBudget ctx j
  | 0, _, _ => rfl
  | j + 1, hc, hu => by
    have hlt : ∀ {i}, i < j → i < j + 1 := Nat.lt_succ_of_lt
    simp only [pathBudget, slotBudget, hc j (Nat.lt_succ_self j), hu j (Nat.lt_succ_self j),
      pathBudget_congr (fun i hi => hc i (hlt hi)) (fun i hi => hu i (hlt hi))]

/-- Moving past one candidate of a state frees the turns that candidate could take. -/
theorem slotBudget_next {ctx ctx' : SearchContext} {j : Nat}
    (hc : ctx'.candidates.getD j [] = ctx.candidates.getD j [])
    (hu : ctx'.cursors.getD j 0 = ctx.cursors.getD j 0 + 1)
    (hlt : ctx.cursors.getD j 0 < (ctx.candidates.getD j []).length) :
    sp.slotBudget ctx' j + (sp.capacity (sp.order.edges.length - (j + 1)) + 1) =
      sp.slotBudget ctx j := by
  obtain ⟨m, hm⟩ : ∃ m, (ctx.candidates.getD j []).length - ctx.cursors.getD j 0 = m + 1 :=
    ⟨_, (Nat.succ_pred_eq_of_pos (by omega)).symm⟩
  have hm' : (ctx.candidates.getD j []).length - (ctx.cursors.getD j 0 + 1) = m := by omega
  simp only [slotBudget, hc, hu, hm, hm', Nat.succ_mul]
  omega

/-- A state that has run out has only its last turn left. -/
theorem slotBudget_exhausted {ctx : SearchContext} {j : Nat} (h : ctx.nextCandidate j = none) :
    sp.slotBudget ctx j = 1 := by
  have hnil := nextCandidate_eq_none.1 h
  rw [List.drop_eq_nil_iff] at hnil
  simp only [slotBudget, Nat.sub_eq_zero_of_le hnil, Nat.zero_mul, Nat.zero_add]

theorem budget_pos {l : SearchLoop} : 0 < sp.budget l := by
  simp only [budget, pathBudget, slotBudget]
  omega

/-! ## Each kind of turn lowers the budget -/

variable {l : SearchLoop}

/-- The cursor of the current state lies before its last candidate when a candidate is taken. -/
theorem cursor_lt_of_take {c : Candidate} {ctx : SearchContext}
    (h : l.ctx.nextCandidate l.state = some (c, ctx)) :
    l.ctx.cursors.getD l.state 0 < (l.ctx.candidates.getD l.state []).length := by
  have hdrop := (nextCandidate_eq_some h).1
  by_contra hle
  rw [List.drop_eq_nil_of_le (by omega)] at hdrop
  cases hdrop

theorem budget_take_last (hsh : sp.LoopShape l) {c : Candidate} {ctx : SearchContext}
    (h : l.ctx.nextCandidate l.state = some (c, ctx))
    (hlast : l.state = sp.order.edges.length - 1) :
    let ctx' := ctx.bind l.state (sp.order.edgeAt l.state) c (sp.targetTime c.edge)
    let l' : SearchLoop :=
      { l with steps := l.steps + 1, ctx := ctx'.unbind l.state (sp.order.edgeAt l.state),
               found := l.found ++ [ctx'.bound],
               summary := { l.summary with occurrences := l.summary.occurrences + 1 },
               progress := { l.progress with occurrences := l.progress.occurrences + 1 } }
    sp.LoopShape l' ∧ sp.budget l' < sp.budget l := by
  intro ctx' l'
  obtain ⟨-, rfl⟩ := nextCandidate_eq_some h
  obtain ⟨hcand, hcur, hsize⟩ := SearchContext.unbind_slots ctx' l.state (sp.order.edgeAt l.state)
  have hsu : l.state < l.ctx.cursors.size := by rw [hsh.size_cursors]; exact hsh.state_lt
  have hu : ∀ i, i ≠ l.state → l'.ctx.cursors.getD i 0 = l.ctx.cursors.getD i 0 := fun i hi => by
    show (ctx'.unbind _ _).cursors.getD i 0 = _
    rw [hcur]
    exact Array.getD_modify_of_ne _ (Ne.symm hi) _
  -- the last state takes nothing after a candidate
  have hnext : sp.slotBudget l'.ctx l.state +
      (sp.capacity (sp.order.edges.length - (l.state + 1)) + 1) = sp.slotBudget l.ctx l.state :=
    slotBudget_next (by show (ctx'.unbind _ _).candidates.getD _ [] = _; rw [hcand]; rfl)
      (by show (ctx'.unbind _ _).cursors.getD _ 0 = _; rw [hcur]; exact Array.getD_modify_self _ hsu _)
      (cursor_lt_of_take h)
  have hrest : sp.pathBudget l'.ctx l.state = sp.pathBudget l.ctx l.state :=
    pathBudget_congr (fun i _ => by rw [show l'.ctx.candidates = l.ctx.candidates from hcand])
      (fun i hi => hu i (by omega))
  refine ⟨⟨hsh.state_lt, ?_, ?_, ?_⟩, ?_⟩
  · show (ctx'.unbind _ _).active.size = _
    rw [hsize]
    exact Array.size_setIfInBounds.trans hsh.size_active
  · show (ctx'.unbind _ _).candidates.size = _
    rw [hcand]
    exact hsh.size_candidates
  · show (ctx'.unbind _ _).cursors.size = _
    rw [hcur]
    exact Array.size_modify.trans hsh.size_cursors
  · show sp.slotBudget l'.ctx l.state + sp.pathBudget l'.ctx l.state + l.roots.length * _ <
      sp.slotBudget l.ctx l.state + sp.pathBudget l.ctx l.state + l.roots.length * _
    omega

theorem budget_take_next (hsh : sp.LoopShape l) {c : Candidate} {ctx : SearchContext}
    (h : l.ctx.nextCandidate l.state = some (c, ctx))
    (hlast : l.state ≠ sp.order.edges.length - 1) :
    let ctx' := ctx.bind l.state (sp.order.edgeAt l.state) c (sp.targetTime c.edge)
    let l' : SearchLoop :=
      { l with steps := l.steps + 1, state := l.state + 1,
               ctx := ctx'.load (l.state + 1)
                 (sp.extensionsOf ctx'.bindings (l.state + 1) (sp.order.edgeAt (l.state + 1))) }
    sp.LoopShape l' ∧ sp.budget l' < sp.budget l := by
  intro ctx' l'
  obtain ⟨-, rfl⟩ := nextCandidate_eq_some h
  have hs := hsh.state_lt
  set s := l.state
  set L := sp.extensionsOf ctx'.bindings (s + 1) (sp.order.edgeAt (s + 1))
  have hs1 : s + 1 < sp.order.edges.length := by omega
  have hsc : s + 1 < l.ctx.candidates.size := by rw [hsh.size_candidates]; exact hs1
  have hsu : s < l.ctx.cursors.size := by rw [hsh.size_cursors]; exact hs
  have hsu1 : s + 1 < (l.ctx.cursors.modify s (· + 1)).size := by
    rw [Array.size_modify, hsh.size_cursors]; exact hs1
  have hcand : ∀ i, i ≠ s + 1 → l'.ctx.candidates.getD i [] = l.ctx.candidates.getD i [] :=
    fun i hi => Array.getD_setIfInBounds_of_ne _ (Ne.symm hi) _
  have hcur : ∀ i, i ≠ s → i ≠ s + 1 → l'.ctx.cursors.getD i 0 = l.ctx.cursors.getD i 0 :=
    fun i hi hi' => by
      show ((l.ctx.cursors.modify s (· + 1)).setIfInBounds (s + 1) 0).getD i 0 = _
      rw [Array.getD_setIfInBounds_of_ne _ (Ne.symm hi'), Array.getD_modify_of_ne _ (Ne.symm hi)]
  -- state `s` moves past its candidate, and state `s + 1` is loaded afresh
  have hnext : sp.slotBudget l'.ctx s + (sp.capacity (sp.order.edges.length - (s + 1)) + 1) =
      sp.slotBudget l.ctx s := by
    refine slotBudget_next (hcand s (by omega)) ?_ (cursor_lt_of_take h)
    show ((l.ctx.cursors.modify s (· + 1)).setIfInBounds (s + 1) 0).getD s 0 = _
    rw [Array.getD_setIfInBounds_of_ne _ (by omega), Array.getD_modify_self _ hsu]
  have hload : sp.slotBudget l'.ctx (s + 1) ≤ sp.capacity (sp.order.edges.length - (s + 1)) := by
    have hk : sp.order.edges.length - (s + 1) = sp.order.edges.length - (s + 1 + 1) + 1 := by
      omega
    show (((l.ctx.candidates.setIfInBounds (s + 1) L).getD (s + 1) []).length -
      ((l.ctx.cursors.modify s (· + 1)).setIfInBounds (s + 1) 0).getD (s + 1) 0) * _ + 1 ≤ _
    rw [Array.getD_setIfInBounds_self _ hsc, Array.getD_setIfInBounds_self _ hsu1, Nat.sub_zero, hk]
    exact loaded_le (length_extensionsOf_le sp _ _ _) _
  have hrest : sp.pathBudget l'.ctx s = sp.pathBudget l.ctx s :=
    pathBudget_congr (fun i hi => hcand i (by omega)) (fun i hi => hcur i (by omega) (by omega))
  refine ⟨⟨hs1, ?_, ?_, ?_⟩, ?_⟩
  · exact Array.size_setIfInBounds.trans hsh.size_active
  · exact Array.size_setIfInBounds.trans hsh.size_candidates
  · exact Array.size_setIfInBounds.trans (Array.size_modify.trans hsh.size_cursors)
  · show sp.slotBudget l'.ctx (s + 1) + (sp.slotBudget l'.ctx s + sp.pathBudget l'.ctx s) +
        l.roots.length * _ < sp.slotBudget l.ctx s + sp.pathBudget l.ctx s + l.roots.length * _
    omega

theorem budget_climb (hsh : sp.LoopShape l) (h : l.ctx.nextCandidate l.state = none)
    (hs0 : l.state ≠ 0) :
    let l' : SearchLoop :=
      { l with steps := l.steps + 1, state := l.state - 1,
               ctx := l.ctx.unbind (l.state - 1) (sp.order.edgeAt (l.state - 1)) }
    sp.LoopShape l' ∧ sp.budget l' < sp.budget l := by
  intro l'
  obtain ⟨t, ht⟩ : ∃ t, l.state = t + 1 := ⟨l.state - 1, by omega⟩
  obtain ⟨hcand, hcur, hsize⟩ := SearchContext.unbind_slots l.ctx (l.state - 1)
    (sp.order.edgeAt (l.state - 1))
  have hrest : sp.pathBudget l'.ctx (t + 1) = sp.pathBudget l.ctx (t + 1) :=
    pathBudget_congr (fun i _ => by rw [show l'.ctx.candidates = l.ctx.candidates from hcand])
      (fun i _ => by rw [show l'.ctx.cursors = l.ctx.cursors from hcur])
  -- the state that ran out leaves with its last turn
  have hgone : sp.slotBudget l.ctx l.state = 1 := slotBudget_exhausted h
  have hold : sp.pathBudget l.ctx (l.state + 1) = 1 + sp.pathBudget l.ctx (t + 1) := by
    rw [pathBudget, hgone, ht]
  refine ⟨⟨by have := hsh.state_lt; show l.state - 1 < _; omega, hsize.trans hsh.size_active,
    hcand ▸ hsh.size_candidates, hcur ▸ hsh.size_cursors⟩, ?_⟩
  show sp.pathBudget l'.ctx (l.state - 1 + 1) + l.roots.length * _ <
    sp.pathBudget l.ctx (l.state + 1) + l.roots.length * _
  rw [hold, show l.state - 1 + 1 = t + 1 by omega, hrest]
  omega

theorem budget_reload (hsh : sp.LoopShape l) (h : l.ctx.nextCandidate l.state = none)
    (hs : l.state = 0) {l' : SearchLoop} (hl : sp.loadRoot false l.roots l = (true, l')) :
    sp.LoopShape l' ∧ sp.budget l' < sp.budget l := by
  cases hd : l.roots.dropWhile (fun x => (sp.starts x).isEmpty) with
  | nil => rw [loadRoot_eq_false hd] at hl; cases hl
  | cons r rest =>
    rw [loadRoot_eq_true hd] at hl
    obtain rfl := (Prod.mk.inj hl).2
    have h0 : 0 < sp.order.edges.length := hs ▸ hsh.state_lt
    have hlen : (r :: rest).length ≤ l.roots.length := hd ▸ (List.dropWhile_suffix _).length_le
    simp only [List.length_cons] at hlen
    have hsize : 0 < l.ctx.candidates.size := by rw [hsh.size_candidates]; exact h0
    have hcsize : 0 < l.ctx.cursors.size := by rw [hsh.size_cursors]; exact h0
    -- the root's starts take at most what one root may take
    have hload : sp.slotBudget (l.ctx.load 0 (sp.starts r)) 0 ≤
        sp.capacity sp.order.edges.length := by
      obtain ⟨k, hk⟩ : ∃ k, sp.order.edges.length = k + 1 := ⟨_, (Nat.succ_pred_eq_of_pos h0).symm⟩
      simp only [slotBudget, SearchContext.load, Array.getD_setIfInBounds_self _ hsize,
        Array.getD_setIfInBounds_self _ hcsize, Nat.sub_zero, hk, Nat.add_sub_cancel]
      exact loaded_le (length_starts_le sp r) k
    have hgone : sp.slotBudget l.ctx 0 = 1 := slotBudget_exhausted (hs ▸ h)
    have hroots := Nat.mul_le_mul_right (sp.capacity sp.order.edges.length + 1) hlen
    refine ⟨⟨hsh.state_lt, hsh.size_active, Array.size_setIfInBounds.trans hsh.size_candidates,
      Array.size_setIfInBounds.trans hsh.size_cursors⟩, ?_⟩
    show sp.pathBudget (l.ctx.load 0 (sp.starts r)) (l.state + 1) + _ <
      sp.pathBudget l.ctx (l.state + 1) + _
    rw [hs]
    simp only [pathBudget, Nat.succ_mul] at hgone hroots ⊢
    omega

/-- The step lemma: every turn that goes on keeps the loop's shape and lowers its budget, with the
cancellation flag up or down. -/
theorem shape_step {cancelled : Bool} {l' : SearchLoop} (hsh : sp.LoopShape l)
    (hstep : sp.step cancelled l = .more l') : sp.LoopShape l' ∧ sp.budget l' < sp.budget l := by
  have h' : sp.step false l = .more l' := by
    cases cancelled
    · exact hstep
    · exact step_of_cancelled hstep
  cases h : l.ctx.nextCandidate l.state with
  | some x =>
    obtain ⟨c, ctx⟩ := x
    rw [step_take h] at h'
    by_cases hlast : l.state = sp.order.edges.length - 1
    · rw [if_pos hlast] at h'
      cases h'
      exact budget_take_last hsh h hlast
    · rw [if_neg hlast] at h'
      cases h'
      exact budget_take_next hsh h hlast
  | none =>
    by_cases hs : l.state = 0
    · obtain ⟨b, l₂, hb⟩ : ∃ b l₂, sp.loadRoot false l.roots { l with steps := l.steps + 1 } =
          (b, l₂) := ⟨_, _, rfl⟩
      cases b
      · rw [step_finish h hs hb] at h'
        cases h'
      · rw [step_reload h hs hb] at h'
        cases h'
        exact budget_reload (l := { l with steps := l.steps + 1 })
          ⟨hsh.1, hsh.2, hsh.3, hsh.4⟩ h hs hb
    · rw [step_climb h hs] at h'
      cases h'
      exact budget_climb hsh h hs

/-! ## The loop and the run -/

variable (sp) in
/-- The loop from `l` reaches its break on its `n`-th turn and stops in `l'`. -/
inductive BreaksAfter (cancelled : Bool) : Nat → SearchLoop → SearchLoop → Prop
  | stop {l l' : SearchLoop} : sp.step cancelled l = .done l' → BreaksAfter cancelled 1 l l'
  | turn {n : Nat} {l l' l'' : SearchLoop} : sp.step cancelled l = .more l' →
      BreaksAfter cancelled n l' l'' → BreaksAfter cancelled (n + 1) l l''

/-- The run lemma: from a state that keeps the loop's shape, the loop reaches its break within its
budget. -/
theorem breaksAfter_of_shape (cancelled : Bool) (hsh : sp.LoopShape l) :
    ∃ n l', n ≤ sp.budget l ∧ sp.BreaksAfter cancelled n l l' := by
  -- induction on a bound of the budget, which each turn that goes on lowers
  obtain ⟨k, hk⟩ : ∃ k, sp.budget l ≤ k := ⟨_, Nat.le_refl _⟩
  induction k generalizing l with
  | zero => exact absurd hk (Nat.not_le_of_lt budget_pos)
  | succ k ih =>
    cases hstep : sp.step cancelled l with
    | done l' => exact ⟨1, l', budget_pos, .stop hstep⟩
    | more l' =>
      obtain ⟨hsh', hlt⟩ := shape_step hsh hstep
      obtain ⟨n, l'', hn, hb⟩ := ih hsh' (by omega)
      exact ⟨n + 1, l'', by omega, .turn hstep hb⟩

/-- Fuel that covers the turns to the break gives the state at the break, whatever its amount. -/
theorem loop_eq_of_breaksAfter {cancelled : Bool} {n : Nat} {l l' : SearchLoop}
    (hb : sp.BreaksAfter cancelled n l l') : ∀ fuel, n ≤ fuel → sp.loop cancelled fuel l = l' := by
  induction hb with
  | stop hstep =>
    intro fuel hfuel
    obtain ⟨fuel, rfl⟩ : ∃ f, fuel = f + 1 := ⟨fuel - 1, by omega⟩
    simp only [loop, hstep]
  | turn hstep _ ih =>
    intro fuel hfuel
    obtain ⟨fuel, rfl⟩ : ∃ f, fuel = f + 1 := ⟨fuel - 1, by omega⟩
    simp only [loop, hstep]
    exact ih fuel (by omega)

variable (sp) in
/-- The loop as a run starts it: nothing bound, at edge state 0, with every root to try. -/
def initLoop (roots : List Nat) (p : Progress) : SearchLoop :=
  ⟨SearchContext.new sp.order.nodes.length sp.order.edges.length, 0, roots, [], ⟨0, false⟩, p, 0⟩

theorem run_eq (roots : List Nat) (cancelled : Bool) (p : Progress) :
    sp.run roots cancelled p =
      let l := match sp.loadRoot cancelled roots (sp.initLoop roots p) with
        | (false, l) => l
        | (true, l) => sp.loop cancelled (sp.stepBound roots) l
      ⟨l.found, l.summary, l.progress⟩ := rfl

theorem shape_initLoop {roots : List Nat} {p : Progress} (h0 : 0 < sp.order.edges.length) :
    sp.LoopShape (sp.initLoop roots p) :=
  ⟨h0, Array.size_replicate, Array.size_replicate, Array.size_replicate⟩

variable (sp) in
/-- The fuel a run gives its loop covers the budget the roots start with. -/
theorem budget_initLoop_le (roots : List Nat) (p : Progress) :
    sp.budget (sp.initLoop roots p) ≤ sp.stepBound roots := by
  have hcap := Nat.mul_le_mul_left roots.length (capacity_lt sp sp.order.edges.length)
  have hfirst : sp.slotBudget (sp.initLoop roots p).ctx 0 = 1 :=
    slotBudget_exhausted (nextCandidate_new _ _)
  simp only [budget, pathBudget, initLoop] at hfirst ⊢
  simp only [stepBound, Nat.pow_eq, hfirst]
  omega

/-- The backtracking loop of a run terminates. Either no root has start candidates and the loop is
never entered, or the loop, started on the first root that has some, reaches its break within the
`stepBound roots` turns of fuel the run gives it; any fuel from there on ends it in the same state,
and the run reports that state. This holds with the cancellation flag up or down. -/
theorem run_loop_terminates (roots : List Nat) (cancelled : Bool) (p : Progress) :
    ∃ lf, sp.run roots cancelled p = ⟨lf.found, lf.summary, lf.progress⟩ ∧
      (sp.loadRoot cancelled roots (sp.initLoop roots p) = (false, lf) ∨
        ∃ l₁ n, sp.loadRoot cancelled roots (sp.initLoop roots p) = (true, l₁) ∧
          n ≤ sp.stepBound roots ∧ sp.BreaksAfter cancelled n l₁ lf ∧
          ∀ fuel, n ≤ fuel → sp.loop cancelled fuel l₁ = lf) := by
  rw [run_eq]
  obtain ⟨b, l₁, hb⟩ : ∃ b l₁, sp.loadRoot cancelled roots (sp.initLoop roots p) = (b, l₁) :=
    ⟨_, _, rfl⟩
  rw [hb]
  cases b with
  | false => exact ⟨l₁, rfl, .inl rfl⟩
  | true =>
    -- only an uncancelled loop loads a root
    obtain rfl : cancelled = false := by
      cases cancelled
      · rfl
      · have := loadRoot_cancelled sp roots (sp.initLoop roots p)
        rw [hb] at this
        cases this
    have h0 := edges_pos_of_loadRoot hb
    -- loading the first root is a turn's worth of the budget the roots start with
    obtain ⟨hsh, hlt⟩ := budget_reload (shape_initLoop h0) (nextCandidate_new _ _) rfl hb
    obtain ⟨n, lf, hn, hbreak⟩ := breaksAfter_of_shape false hsh
    have hbound : n ≤ sp.stepBound roots := by
      have := budget_initLoop_le sp roots p
      omega
    refine ⟨lf, ?_, .inr ⟨l₁, n, rfl, hbound, hbreak, loop_eq_of_breaksAfter hbreak⟩⟩
    simp only [loop_eq_of_breaksAfter hbreak _ hbound]

end SearchSpace

end TemporalMotif
