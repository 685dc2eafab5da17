import TemporalMotif.Match.Run
import TemporalMotif.Proofs.Enumeration
import TemporalMotif.Proofs.MatchedSets

/-! # One turn of the search loop

The loop keeps one context and moves through it state by state. Read as a stack of frames, one
for each edge state up to the current one, holding the assignment before the state and the
candidates it has left (`SearchSpace.frames`), the loop is the depth-first search of `explore`
unrolled. What the loop has handed on, followed by what its frames and remaining roots will list
(`SearchSpace.pending`), stays the same from one turn to the next (`step_spec`).

The candidates the loop loads read the context's matched sets and multiset of times, and the
search reads the assignment's arrays. They agree because the sets follow the arrays from turn to
turn (`LoopInv.tracks`), which holds when every edge state joins two node states of the order,
the first two different ones (`MatchingOrder.Joins`): every candidate loaded then fits the
assignment before its state. -/

namespace TemporalMotif

theorem Array.getD_setIfInBounds_self {α : Type} {xs : Array α} {i : Nat} (a : α)
    (hi : i < xs.size) (d : α) : (xs.setIfInBounds i a).getD i d = a := by
  simp [Array.getD_eq_getD_getElem?, hi]

theorem Array.getD_modify_self {α : Type} {xs : Array α} {i : Nat} (f : α → α)
    (hi : i < xs.size) (d : α) : (xs.modify i f).getD i d = f (xs.getD i d) := by
  simp only [Array.getD_eq_getD_getElem?, Array.getElem?_modify, if_true]
  simp [hi]

theorem Array.getD_setIfInBounds_of_ne {α : Type} {xs : Array α} {i j : Nat} (a : α) (h : i ≠ j)
    (d : α) : (xs.setIfInBounds i a).getD j d = xs.getD j d := by
  simp only [Array.getD_eq_getD_getElem?, Array.getElem?_setIfInBounds, if_neg h]

theorem Array.getD_modify_of_ne {α : Type} {xs : Array α} {i j : Nat} (f : α → α) (h : i ≠ j)
    (d : α) : (xs.modify i f).getD j d = xs.getD j d := by
  simp only [Array.getD_eq_getD_getElem?, Array.getElem?_modify, if_neg h]

theorem Array.getD_replicate {α : Type} (n i : Nat) (a : α) : (Array.replicate n a).getD i a = a := by
  simp only [Array.getD_eq_getD_getElem?, Array.getElem?_replicate]
  split <;> rfl

namespace MatchingOrder

/-- Every edge state joins two node states of the order, and the first joins two different ones:
binding a candidate then sets the node states it names, and no node is set twice over. -/
structure Joins (o : MatchingOrder) : Prop where
  source_lt : ∀ oe ∈ o.edges, oe.source < o.nodes.length
  dest_lt : ∀ oe ∈ o.edges, oe.dest < o.nodes.length
  first_ne : ∀ oe ∈ o.edges.head?, oe.source ≠ oe.dest

/-- An order that binds its node states in sequence joins them. -/
theorem Chain.joins {o : MatchingOrder} (h : Chain o.edges o.nodes.length) : o.Joins where
  source_lt := h.source_lt
  dest_lt oe hoe := Nat.lt_trans (h.dest_lt oe hoe) (h.source_lt oe hoe)
  first_ne oe hoe := Nat.ne_of_gt (h.dest_lt oe (List.mem_of_mem_head? hoe))

end MatchingOrder

namespace SearchSpace

variable {sp : SearchSpace}

theorem edgeAt_getElem? {o : MatchingOrder} {s : Nat} (hs : s < o.edges.length) :
    o.edges[s]? = some (o.edgeAt s) := by
  simp [MatchingOrder.edgeAt, List.getD_eq_getElem?_getD, List.getElem?_eq_getElem hs]

theorem edgeAt_mem {o : MatchingOrder} {s : Nat} (hs : s < o.edges.length) : o.edgeAt s ∈ o.edges :=
  List.mem_of_getElem? (edgeAt_getElem? hs)

/-- A start candidate fits the empty assignment: the first edge state joins two different node
states, and nothing is in use yet. -/
theorem fits_of_mem_starts (hjoin : sp.order.Joins) {r : Nat} {c : Candidate} (h : c ∈ sp.starts r) :
    (Assignment.init sp.order.nodes.length).Fits (sp.order.edgeAt 0) c := by
  unfold starts at h
  split at h
  · simp at h
  · rename_i first rest hE
    simp only [List.mem_flatMap, List.mem_filterMap] at h
    obtain ⟨m, -, ⟨far, e⟩, -, hc⟩ := h
    split at hc
    · cases hc
      have hfirst : sp.order.edgeAt 0 = first := by simp [MatchingOrder.edgeAt, hE]
      have hmem : first ∈ sp.order.edges := by simp [hE]
      have hnone : ∀ {i}, i < sp.order.nodes.length →
          (Assignment.init sp.order.nodes.length).nodes[i]? = some none := fun hi => by
        simp [Assignment.init, hi]
      rw [hfirst]
      exact ⟨hjoin.first_ne first (by simp [hE]), hnone (hjoin.dest_lt first hmem),
        hnone (hjoin.source_lt first hmem), by simp [Assignment.init, Assignment.usesNode],
        by simp [Assignment.init, Assignment.usesNode], by simp [Assignment.init, Assignment.usesEdge]⟩
    · cases hc

/-- The candidates for an edge state of the order fit the assignment they were drawn from. -/
theorem fits_of_mem_extensions (hjoin : sp.order.Joins) {a : Assignment}
    (ha : a.nodes.size = sp.order.nodes.length) {s : Nat} {oe : OrderedEdge}
    (hoe : oe ∈ sp.order.edges) {c : Candidate} (h : c ∈ sp.extensions a s oe) : a.Fits oe c := by
  cases hx : a.nodeAt? oe.dest with
  | none => simp [extensions, extensionsOf, hx] at h
  | some x =>
    cases hy : a.nodeAt? oe.source with
    | some y =>
      -- between two bound nodes every candidate is a close
      obtain ⟨e, rfl, -, hu, -⟩ := (mem_extensions_of_bound hx hy).1 h
      exact hu
    | none =>
      obtain ⟨v, e, rfl, -, hv, -, hu, -⟩ := (mem_extensions_of_free hx hy).1 h
      -- the source is a node state of the assignment, so it is one left unbound
      have hlt : oe.source < a.nodes.size := ha ▸ hjoin.source_lt oe hoe
      rw [Assignment.nodeAt?, Array.getElem?_eq_getElem hlt, Option.bind_some] at hy
      exact ⟨by rw [Array.getElem?_eq_getElem hlt, ← hy]; rfl, hv, hu⟩

end SearchSpace

/-- One edge state of the search as the loop holds it: its number, the assignment before it,
and the candidates it has left. -/
structure Frame where
  state : Nat
  base : Assignment
  rest : List Candidate

namespace SearchSpace

variable {sp : SearchSpace}

variable (sp) in
/-- The complete assignments that the candidates left in frame `f` lead to. -/
def frameFound (f : Frame) : List Assignment :=
  f.rest.flatMap fun c =>
    sp.explore (sp.states.drop (f.state + 1)) (sp.bindCandidate f.base (sp.order.edgeAt f.state) c)

variable (sp) in
/-- The assignment before edge state `j`: the active candidates of the states before it, bound
in order. -/
def replay (ctx : SearchContext) : Nat → Assignment
  | 0 => Assignment.init sp.order.nodes.length
  | j + 1 =>
    match ctx.active.getD j none with
    | some c => sp.bindCandidate (replay ctx j) (sp.order.edgeAt j) c
    | none => replay ctx j

variable (sp) in
/-- The frame of edge state `j` in context `ctx`. -/
def frameAt (ctx : SearchContext) (j : Nat) : Frame :=
  ⟨j, sp.replay ctx j, (ctx.candidates.getD j []).drop (ctx.cursors.getD j 0)⟩

variable (sp) in
/-- The frames of the edge states below `j`, the latest first. -/
def frames (ctx : SearchContext) : Nat → List Frame
  | 0 => []
  | j + 1 => sp.frameAt ctx j :: frames ctx j

variable (sp) in
/-- What the loop will still hand on: what its frames lead to, then the remaining roots. -/
def pending (l : SearchLoop) : List Assignment :=
  (sp.frames l.ctx (l.state + 1)).flatMap sp.frameFound ++ l.roots.flatMap sp.fromRoot

/-- The assignment before a state depends only on the active candidates of earlier states. -/
theorem replay_congr {ctx ctx' : SearchContext} :
    ∀ {j : Nat}, (∀ k < j, ctx'.active.getD k none = ctx.active.getD k none) →
      sp.replay ctx' j = sp.replay ctx j
  | 0, _ => rfl
  | j + 1, h => by
    have ih := replay_congr fun k hk => h k (Nat.lt_succ_of_lt hk)
    simp only [replay, h j (Nat.lt_succ_self j), ih]

variable (sp) in
/-- The assignment before a state has the order's node states. -/
theorem size_nodes_replay (ctx : SearchContext) :
    ∀ j, (sp.replay ctx j).nodes.size = sp.order.nodes.length
  | 0 => by simp [replay, Assignment.init]
  | j + 1 => by
    simp only [replay]
    split
    · rw [bindCandidate, Assignment.size_nodes_bind, size_nodes_replay ctx j]
    · exact size_nodes_replay ctx j

/-- With every state below `j` active, the assignment before `j` binds `j` edges and times. -/
theorem size_replay {ctx : SearchContext} : ∀ {j : Nat},
    (∀ i < j, (ctx.active.getD i none).isSome) →
      (sp.replay ctx j).edges.size = j ∧ (sp.replay ctx j).times.size = j
  | 0, _ => ⟨rfl, rfl⟩
  | j + 1, h => by
    obtain ⟨c, hc⟩ := Option.isSome_iff_exists.1 (h j (Nat.lt_succ_self j))
    obtain ⟨he, ht⟩ := size_replay fun i hi => h i (Nat.lt_succ_of_lt hi)
    simp only [replay, hc, bindCandidate, Assignment.edges_bind, Assignment.times_bind,
      Array.size_push, he, ht, and_self]

theorem frameAt_congr {ctx ctx' : SearchContext} {k : Nat}
    (ha : ∀ i < k, ctx'.active.getD i none = ctx.active.getD i none)
    (hc : ctx'.candidates.getD k [] = ctx.candidates.getD k [])
    (hu : ctx'.cursors.getD k 0 = ctx.cursors.getD k 0) : sp.frameAt ctx' k = sp.frameAt ctx k := by
  simp only [frameAt, replay_congr ha, hc, hu]

/-- The frames below `j` depend only on the context's slots below `j`. -/
theorem frames_congr {ctx ctx' : SearchContext} :
    ∀ {j : Nat}, (∀ i < j, ctx'.active.getD i none = ctx.active.getD i none) →
      (∀ i < j, ctx'.candidates.getD i [] = ctx.candidates.getD i []) →
      (∀ i < j, ctx'.cursors.getD i 0 = ctx.cursors.getD i 0) →
      sp.frames ctx' j = sp.frames ctx j
  | 0, _, _, _ => rfl
  | j + 1, ha, hc, hu => by
    have hlt : ∀ {i}, i < j → i < j + 1 := Nat.lt_succ_of_lt
    simp only [frames, frameAt_congr (fun i hi => ha i (hlt hi)) (hc j (Nat.lt_succ_self j))
      (hu j (Nat.lt_succ_self j)),
      frames_congr (fun i hi => ha i (hlt hi)) (fun i hi => hc i (hlt hi)) (fun i hi => hu i (hlt hi))]

theorem nextCandidate_eq_some {ctx ctx' : SearchContext} {s : Nat} {c : Candidate}
    (h : ctx.nextCandidate s = some (c, ctx')) :
    (ctx.candidates.getD s []).drop (ctx.cursors.getD s 0) =
        c :: (ctx.candidates.getD s []).drop (ctx.cursors.getD s 0 + 1) ∧
      ctx' = { ctx with cursors := ctx.cursors.modify s (· + 1) } := by
  unfold SearchContext.nextCandidate at h
  obtain ⟨c', hc', heq⟩ := Option.map_eq_some_iff.1 h
  simp only [Prod.mk.injEq] at heq
  obtain ⟨rfl, rfl⟩ := heq
  obtain ⟨hlt, rfl⟩ := List.getElem?_eq_some_iff.1 hc'
  exact ⟨List.drop_eq_getElem_cons hlt, rfl⟩

theorem nextCandidate_eq_none {ctx : SearchContext} {s : Nat} :
    ctx.nextCandidate s = none ↔ (ctx.candidates.getD s []).drop (ctx.cursors.getD s 0) = [] := by
  simp [SearchContext.nextCandidate]

theorem nextCandidate_new (n m : Nat) : (SearchContext.new n m).nextCandidate 0 = none :=
  nextCandidate_eq_none.2 (by simp only [SearchContext.new, Array.getD_replicate, List.drop_nil])

variable (sp) in
/-- What the loop keeps between turns: the current state is an edge state; the context has one
slot for each edge state; the bound assignment is the one its active candidates give, and the
matched sets and the multiset of times follow it; each state below the current one has an
active candidate that fits the assignment before it; and every candidate loaded at a state up to
the current one fits the assignment before it. -/
structure LoopInv (l : SearchLoop) : Prop where
  state_lt : l.state < sp.order.edges.length
  size_active : l.ctx.active.size = sp.order.edges.length
  size_candidates : l.ctx.candidates.size = sp.order.edges.length
  size_cursors : l.ctx.cursors.size = sp.order.edges.length
  bound : l.ctx.bound = sp.replay l.ctx l.state
  tracks : l.ctx.Tracks
  active : ∀ j < l.state, ∃ c, l.ctx.active.getD j none = some c ∧
    (sp.replay l.ctx j).Fits (sp.order.edgeAt j) c
  fits : ∀ j ≤ l.state, ∀ c ∈ l.ctx.candidates.getD j [],
    (sp.replay l.ctx j).Fits (sp.order.edgeAt j) c

variable {l : SearchLoop}

/-- The bound assignment holds one edge and one time for each state below the current one. -/
theorem LoopInv.sizes (hinv : sp.LoopInv l) :
    l.ctx.bound.edges.size = l.state ∧ l.ctx.bound.times.size = l.state := by
  rw [hinv.bound]
  refine size_replay fun i hi => ?_
  obtain ⟨c, hc, -⟩ := hinv.active i hi
  simp [hc]

/-- A context that agrees with the loop's on the active candidates below `t` keeps their half of
the invariant. -/
theorem LoopInv.active_below (hinv : sp.LoopInv l) {ctx : SearchContext} {t : Nat}
    (ht : t ≤ l.state) (hact : ∀ i < t, ctx.active.getD i none = l.ctx.active.getD i none) :
    ∀ j < t, ∃ c, ctx.active.getD j none = some c ∧ (sp.replay ctx j).Fits (sp.order.edgeAt j) c := by
  intro j hj
  obtain ⟨c, hc, hfit⟩ := hinv.active j (by omega)
  refine ⟨c, by rw [hact j hj]; exact hc, ?_⟩
  rw [replay_congr fun i hi => hact i (by omega)]
  exact hfit

/-- A context that also agrees on the candidates up to `t` keeps the loaded ones fitting. -/
theorem LoopInv.fits_upto (hinv : sp.LoopInv l) {ctx : SearchContext} {t : Nat}
    (ht : t ≤ l.state) (hact : ∀ i < t, ctx.active.getD i none = l.ctx.active.getD i none)
    (hcand : ∀ i ≤ t, ctx.candidates.getD i [] = l.ctx.candidates.getD i []) :
    ∀ j ≤ t, ∀ c ∈ ctx.candidates.getD j [], (sp.replay ctx j).Fits (sp.order.edgeAt j) c := by
  intro j hj
  rw [hcand j hj, replay_congr fun i hi => hact i (by omega)]
  exact hinv.fits j (by omega)

theorem step_take {c : Candidate} {ctx : SearchContext}
    (h : l.ctx.nextCandidate l.state = some (c, ctx)) :
    let ctx' := ctx.bind l.state (sp.order.edgeAt l.state) c (sp.targetTime c.edge)
    sp.step false l =
      if l.state = sp.order.edges.length - 1 then
        .more { l with steps := l.steps + 1, ctx := ctx'.unbind l.state (sp.order.edgeAt l.state),
                       found := l.found ++ [ctx'.bound],
                       summary := { l.summary with occurrences := l.summary.occurrences + 1 },
                       progress := { l.progress with occurrences := l.progress.occurrences + 1 } }
      else
        .more { l with
          steps := l.steps + 1,
          ctx := ctx'.load (l.state + 1) (sp.extensionsOf ctx'.bindings (l.state + 1)
            (sp.order.edgeAt (l.state + 1))),
          state := l.state + 1 } := by
  simp only [step, Bool.and_false, Bool.false_eq_true, if_false, h]

theorem step_climb (h : l.ctx.nextCandidate l.state = none) (hs : l.state ≠ 0) :
    sp.step false l =
      .more { l with
        steps := l.steps + 1, state := l.state - 1,
        ctx := l.ctx.unbind (l.state - 1) (sp.order.edgeAt (l.state - 1)) } := by
  simp only [step, Bool.and_false, Bool.false_eq_true, if_false, h, hs]

theorem step_reload {l' : SearchLoop} (h : l.ctx.nextCandidate l.state = none) (hs : l.state = 0)
    (hl : sp.loadRoot false l.roots { l with steps := l.steps + 1 } = (true, l')) :
    sp.step false l = .more l' := by
  simp only [step, Bool.and_false, Bool.false_eq_true, if_false, h]
  rw [if_pos hs, hl]

theorem step_finish {l' : SearchLoop} (h : l.ctx.nextCandidate l.state = none) (hs : l.state = 0)
    (hl : sp.loadRoot false l.roots { l with steps := l.steps + 1 } = (false, l')) :
    sp.step false l = .done l' := by
  simp only [step, Bool.and_false, Bool.false_eq_true, if_false, h]
  rw [if_pos hs, hl]

variable (sp) in
/-- Cancelled, the loop loads no further root. -/
theorem loadRoot_cancelled (roots : List Nat) (l : SearchLoop) :
    (sp.loadRoot true roots l).1 = false := by
  cases roots <;> rfl

/-- A cancelled turn that goes on takes the step an uncancelled one takes: it only ever ends the
loop sooner. -/
theorem step_of_cancelled {l' : SearchLoop} (h : sp.step true l = .more l') :
    sp.step false l = .more l' := by
  simp only [step, Bool.and_true, Bool.and_false, Bool.false_eq_true, if_false] at h ⊢
  split at h
  · cases h
  · cases hc : l.ctx.nextCandidate l.state with
    | some x => simpa only [hc] using h
    | none =>
      simp only [hc] at h ⊢
      by_cases hs : l.state = 0
      · -- state 0 has run out: a cancelled loop loads no root, so this turn would have ended it
        rw [if_pos hs] at h ⊢
        obtain ⟨b, l₂, hb⟩ : ∃ b l₂,
            sp.loadRoot true l.roots { l with steps := l.steps + 1 } = (b, l₂) := ⟨_, _, rfl⟩
        have hfalse := loadRoot_cancelled sp l.roots { l with steps := l.steps + 1 }
        rw [hb] at h hfalse
        subst hfalse
        cases h
      · rw [if_neg hs] at h ⊢
        exact h

variable (sp) in
/-- The counters of a loop started on `k` roots from counters `p`: every root tried is counted
as scanned, and every assignment handed on as an occurrence. -/
structure Counted (p : Progress) (k : Nat) (l : SearchLoop) : Prop where
  roots_le : l.roots.length ≤ k
  summary : l.summary = ⟨l.found.length, false⟩
  progress : l.progress =
    ⟨p.totalRoots, p.scannedRoots + (k - l.roots.length), p.occurrences + l.found.length⟩

variable (sp) in
/-- A turn from `l` to `l'` that goes on: it keeps the invariant and the counters, and hands on
what it takes from the pending list. -/
structure Advances (l l' : SearchLoop) : Prop where
  inv : sp.LoopInv l'
  found : l'.found ++ sp.pending l' = l.found ++ sp.pending l
  counted : ∀ p k, Counted p k l → Counted p k l'

/-- What taking candidate `c` at the current state gives: the state's frame started with `c`,
and `c` fits the assignment before the state. -/
theorem take_facts (hinv : sp.LoopInv l) {c : Candidate} {ctx : SearchContext}
    (h : l.ctx.nextCandidate l.state = some (c, ctx)) :
    sp.frameAt l.ctx l.state = ⟨l.state, l.ctx.bound, c :: (l.ctx.candidates.getD l.state []).drop
        (l.ctx.cursors.getD l.state 0 + 1)⟩ ∧
      l.ctx.bound.Fits (sp.order.edgeAt l.state) c ∧
      ctx = { l.ctx with cursors := l.ctx.cursors.modify l.state (· + 1) } := by
  obtain ⟨hdrop, rfl⟩ := nextCandidate_eq_some h
  have hmem : c ∈ l.ctx.candidates.getD l.state [] :=
    List.mem_of_mem_drop (hdrop ▸ List.mem_cons_self)
  refine ⟨?_, ?_, rfl⟩
  · simp only [frameAt, ← hinv.bound, hdrop]
  · rw [hinv.bound]
    exact hinv.fits l.state (Nat.le_refl _) c hmem

/-- Binding the taken candidate keeps the sets following the arrays. -/
theorem LoopInv.tracks_bind (hinv : sp.LoopInv l) {c : Candidate}
    (hfit : l.ctx.bound.Fits (sp.order.edgeAt l.state) c) (t : Int) :
    (({ l.ctx with cursors := l.ctx.cursors.modify l.state (· + 1) } : SearchContext).bind l.state
      (sp.order.edgeAt l.state) c t).Tracks := by
  have h : ({ l.ctx with cursors := l.ctx.cursors.modify l.state (· + 1) } : SearchContext).Tracks :=
    hinv.tracks.congr rfl rfl rfl rfl
  exact h.bind hfit _ t

@[simp] theorem frameFound_nil (s : Nat) (a : Assignment) : sp.frameFound ⟨s, a, []⟩ = [] := rfl

theorem frameFound_cons (s : Nat) (a : Assignment) (c : Candidate) (R : List Candidate) :
    sp.frameFound ⟨s, a, c :: R⟩ =
      sp.explore (sp.states.drop (s + 1)) (sp.bindCandidate a (sp.order.edgeAt s) c) ++
        sp.frameFound ⟨s, a, R⟩ := by
  simp only [frameFound, List.flatMap_cons]

/-- A frame freshly loaded with the candidates of its state lists what the search lists from
its assignment over the states from there. -/
theorem frameFound_extensions {s : Nat} (hs : s < sp.order.edges.length) (a : Assignment) :
    sp.frameFound ⟨s, a, sp.extensions a s (sp.order.edgeAt s)⟩ = sp.explore (sp.states.drop s) a := by
  rw [states_drop (edgeAt_getElem? hs)]
  rfl

/-- Taking the last state's candidate hands on a complete assignment and undoes the binding. -/
theorem advances_take_last (hinv : sp.LoopInv l) {c : Candidate} {ctx : SearchContext}
    (h : l.ctx.nextCandidate l.state = some (c, ctx))
    (hlast : l.state = sp.order.edges.length - 1) :
    let ctx' := ctx.bind l.state (sp.order.edgeAt l.state) c (sp.targetTime c.edge)
    sp.Advances l { l with steps := l.steps + 1,
                           ctx := ctx'.unbind l.state (sp.order.edgeAt l.state),
                           found := l.found ++ [ctx'.bound],
                           summary := { l.summary with occurrences := l.summary.occurrences + 1 },
                           progress := { l.progress with
                                         occurrences := l.progress.occurrences + 1 } } := by
  intro ctx'
  obtain ⟨hframe, hfit, rfl⟩ := take_facts hinv h
  have hs := hinv.state_lt
  set s := l.state with hs_def
  set L := l.ctx.candidates.getD s []
  set cur := l.ctx.cursors.getD s 0
  have hb : l.ctx.bound = sp.replay l.ctx s := hinv.bound
  have hsu : s < l.ctx.cursors.size := by rw [hinv.size_cursors]; exact hs
  have hact : ctx'.active.getD s none = some c :=
    Array.getD_setIfInBounds_self _ (by rw [hinv.size_active]; exact hs) _
  -- undoing the binding at once gives the arrays back, with the sets following them
  obtain ⟨htracks, hbound⟩ := SearchContext.Tracks.unbind hact rfl hfit
    (hinv.tracks_bind hfit _) hinv.sizes.1 hinv.sizes.2
  obtain ⟨-, hactive, hcand, hcur⟩ := SearchContext.unbind_of_active (sp.order.edgeAt s) hact
  set ctx₂ := ctx'.unbind s (sp.order.edgeAt s)
  -- the new context differs from the old one only in the cursor of state `s`
  have hact₂ : ∀ i, i ≠ s → ctx₂.active.getD i none = l.ctx.active.getD i none := fun i hi => by
    rw [hactive]
    show ((l.ctx.active.setIfInBounds s (some c)).setIfInBounds s none).getD i none = _
    rw [Array.getD_setIfInBounds_of_ne _ (Ne.symm hi), Array.getD_setIfInBounds_of_ne _ (Ne.symm hi)]
  have hcur₂ : ∀ i, i ≠ s → ctx₂.cursors.getD i 0 = l.ctx.cursors.getD i 0 := fun i hi => by
    rw [hcur]
    exact Array.getD_modify_of_ne _ (Ne.symm hi) _
  have hreplay₂ : ∀ j ≤ s, sp.replay ctx₂ j = sp.replay l.ctx j := fun j hj =>
    replay_congr fun i hi => hact₂ i (by omega)
  have hdone : sp.states.drop (s + 1) = [] := by
    rw [show s + 1 = sp.order.edges.length by omega]
    exact states_drop_length
  have hold : sp.frames l.ctx (s + 1) =
      ⟨s, l.ctx.bound, c :: L.drop (cur + 1)⟩ :: sp.frames l.ctx s := by
    simp only [frames, hframe]
  have hnew : sp.frames ctx₂ (s + 1) = ⟨s, l.ctx.bound, L.drop (cur + 1)⟩ :: sp.frames l.ctx s := by
    have hu : ctx₂.cursors.getD s 0 = cur + 1 := by
      rw [hcur]
      exact Array.getD_modify_self _ hsu _
    show sp.frameAt ctx₂ s :: sp.frames ctx₂ s = _
    rw [frames_congr (fun i hi => hact₂ i (by omega)) (fun i _ => by rw [hcand]; rfl)
      (fun i hi => hcur₂ i (by omega))]
    simp only [frameAt, hreplay₂ s (Nat.le_refl s), ← hb, hu, hcand]
    rfl
  refine ⟨⟨hs, ?_, ?_, ?_, ?_, htracks,
    hinv.active_below (t := s) (Nat.le_refl _) fun i hi => hact₂ i (by omega),
    hinv.fits_upto (t := s) (Nat.le_refl _) (fun i hi => hact₂ i (by omega))
      fun _ _ => by rw [hcand]; rfl⟩, ?_, ?_⟩
  · rw [hactive, Array.size_setIfInBounds]
    exact Array.size_setIfInBounds.trans hinv.size_active
  · rw [hcand]
    exact hinv.size_candidates
  · rw [hcur]
    exact Array.size_modify.trans hinv.size_cursors
  · show ctx₂.bound = sp.replay ctx₂ s
    rw [hreplay₂ s (Nat.le_refl s), ← hb]
    exact hbound
  · -- the complete assignment comes first in the pending list, and is handed on
    simp only [pending, ← hs_def, hnew, hold, List.flatMap_cons, frameFound_cons, hdone, explore,
      List.append_assoc]
    rfl
  · rintro p k ⟨hle, hsum, hprog⟩
    refine ⟨hle, ?_, ?_⟩
    · show { l.summary with occurrences := l.summary.occurrences + 1 } = _
      simp only [hsum, List.length_append, List.length_singleton]
    · show { l.progress with occurrences := l.progress.occurrences + 1 } = _
      simp only [hprog, List.length_append, List.length_singleton, Nat.add_assoc]

/-- Taking a candidate at an earlier state binds it and loads the next state's candidates. -/
theorem advances_take_next (hjoin : sp.order.Joins) (hinv : sp.LoopInv l) {c : Candidate}
    {ctx : SearchContext} (h : l.ctx.nextCandidate l.state = some (c, ctx))
    (hlast : l.state ≠ sp.order.edges.length - 1) :
    let ctx' := ctx.bind l.state (sp.order.edgeAt l.state) c (sp.targetTime c.edge)
    sp.Advances l { l with
      steps := l.steps + 1,
      ctx := ctx'.load (l.state + 1)
        (sp.extensionsOf ctx'.bindings (l.state + 1) (sp.order.edgeAt (l.state + 1))),
      state := l.state + 1 } := by
  intro ctx'
  obtain ⟨hframe, hfit, rfl⟩ := take_facts hinv h
  have hs := hinv.state_lt
  set s := l.state with hs_def
  set L := l.ctx.candidates.getD s []
  set cur := l.ctx.cursors.getD s 0
  have hs1 : s + 1 < sp.order.edges.length := by omega
  have hb : l.ctx.bound = sp.replay l.ctx s := hinv.bound
  have hsa : s < l.ctx.active.size := by rw [hinv.size_active]; exact hs
  have hsc : s + 1 < l.ctx.candidates.size := by rw [hinv.size_candidates]; exact hs1
  have hsu : s < l.ctx.cursors.size := by rw [hinv.size_cursors]; exact hs
  have hsu1 : s + 1 < (l.ctx.cursors.modify s (· + 1)).size := by
    rw [Array.size_modify, hinv.size_cursors]; exact hs1
  set a' := sp.bindCandidate l.ctx.bound (sp.order.edgeAt s) c
  -- the sets follow the arrays after the binding, so the candidates loaded are the search's
  have htracks : ctx'.Tracks := hinv.tracks_bind hfit _
  have hload : sp.extensionsOf ctx'.bindings (s + 1) (sp.order.edgeAt (s + 1)) =
      sp.extensions a' (s + 1) (sp.order.edgeAt (s + 1)) := by
    rw [htracks.bindings_eq]
    rfl
  rw [hload]
  set next := ctx'.load (s + 1) (sp.extensions a' (s + 1) (sp.order.edgeAt (s + 1)))
  -- the new context binds `c` at `s` and loads state `s + 1`; below `s` nothing changes
  have hact₃ : ∀ i, i ≠ s → next.active.getD i none = l.ctx.active.getD i none := fun i hi =>
    Array.getD_setIfInBounds_of_ne _ (Ne.symm hi) _
  have hcand₃ : ∀ i, i ≠ s + 1 → next.candidates.getD i [] = l.ctx.candidates.getD i [] :=
    fun i hi => Array.getD_setIfInBounds_of_ne _ (Ne.symm hi) _
  have hcur₃ : ∀ i, i ≠ s → i ≠ s + 1 → next.cursors.getD i 0 = l.ctx.cursors.getD i 0 :=
    fun i hi hi' => by
      show ((l.ctx.cursors.modify s (· + 1)).setIfInBounds (s + 1) 0).getD i 0 = _
      rw [Array.getD_setIfInBounds_of_ne _ (Ne.symm hi'), Array.getD_modify_of_ne _ (Ne.symm hi)]
  have hreplay₃ : ∀ j ≤ s, sp.replay next j = sp.replay l.ctx j := fun j hj =>
    replay_congr fun i hi => hact₃ i (by omega)
  have hc : next.active.getD s none = some c := Array.getD_setIfInBounds_self _ hsa _
  have hreplay₃' : sp.replay next (s + 1) = a' := by
    simp only [replay, hc, hreplay₃ s (Nat.le_refl s), ← hb, a']
  have hloaded : next.candidates.getD (s + 1) [] = sp.extensions a' (s + 1) (sp.order.edgeAt (s + 1)) :=
    Array.getD_setIfInBounds_self _ hsc _
  have hold : sp.frames l.ctx (s + 1) =
      ⟨s, l.ctx.bound, c :: L.drop (cur + 1)⟩ :: sp.frames l.ctx s := by
    simp only [frames, hframe]
  have hnew : sp.frames next (s + 2) =
      ⟨s + 1, a', sp.extensions a' (s + 1) (sp.order.edgeAt (s + 1))⟩ ::
        ⟨s, l.ctx.bound, L.drop (cur + 1)⟩ :: sp.frames l.ctx s := by
    have hu₁ : next.cursors.getD (s + 1) 0 = 0 := Array.getD_setIfInBounds_self _ hsu1 _
    have hu : next.cursors.getD s 0 = cur + 1 := by
      show ((l.ctx.cursors.modify s (· + 1)).setIfInBounds (s + 1) 0).getD s 0 = _
      rw [Array.getD_setIfInBounds_of_ne _ (by omega), Array.getD_modify_self _ hsu]
    show sp.frameAt next (s + 1) :: sp.frameAt next s :: sp.frames next s = _
    rw [frames_congr (fun i hi => hact₃ i (by omega)) (fun i hi => hcand₃ i (by omega))
      (fun i hi => hcur₃ i (by omega) (by omega))]
    simp only [frameAt, hreplay₃', hloaded, hu₁, List.drop_zero, hreplay₃ s (Nat.le_refl s), ← hb,
      hcand₃ s (by omega), hu]
    rfl
  refine ⟨⟨hs1, ?_, ?_, ?_, hreplay₃'.symm, htracks.congr rfl rfl rfl rfl, fun j hj => ?_,
    fun j hj => ?_⟩, ?_, ?_⟩
  · exact Array.size_setIfInBounds.trans hinv.size_active
  · exact Array.size_setIfInBounds.trans hinv.size_candidates
  · exact Array.size_setIfInBounds.trans (Array.size_modify.trans hinv.size_cursors)
  · have hj' : j < s + 1 := hj
    rcases Nat.lt_succ_iff_lt_or_eq.1 hj' with hj' | rfl
    · exact hinv.active_below (t := s) (Nat.le_refl _) (fun i hi => hact₃ i (by omega)) j hj'
    · exact ⟨c, hc, by rw [hreplay₃ _ (Nat.le_refl _), ← hb]; exact hfit⟩
  · have hj' : j ≤ s + 1 := hj
    rcases Nat.lt_or_eq_of_le hj' with hj' | rfl
    · exact hinv.fits_upto (t := s) (Nat.le_refl _) (fun i hi => hact₃ i (by omega))
        (fun i hi => hcand₃ i (by omega)) j (by omega)
    · -- the loaded candidates are those of state `s + 1` after `c`
      intro c' hc'
      rw [hloaded] at hc'
      rw [hreplay₃']
      exact fits_of_mem_extensions hjoin (by rw [← hreplay₃', size_nodes_replay]) (edgeAt_mem hs1) hc'
  · show l.found ++ ((sp.frames next (s + 2)).flatMap sp.frameFound ++ _) =
      l.found ++ ((sp.frames l.ctx (s + 1)).flatMap sp.frameFound ++ _)
    simp only [hnew, hold, List.flatMap_cons, frameFound_cons, frameFound_extensions hs1,
      List.append_assoc]
    rfl
  · intro p k hc
    exact ⟨hc.1, hc.2, hc.3⟩

/-- A state that has run out climbs back and unbinds the state below it. -/
theorem advances_climb (hinv : sp.LoopInv l) (h : l.ctx.nextCandidate l.state = none)
    (hs0 : l.state ≠ 0) :
    sp.Advances l { l with
      steps := l.steps + 1, state := l.state - 1,
      ctx := l.ctx.unbind (l.state - 1) (sp.order.edgeAt (l.state - 1)) } := by
  obtain ⟨t, ht⟩ : ∃ t, l.state = t + 1 := ⟨l.state - 1, by omega⟩
  have hs := hinv.state_lt
  obtain ⟨c₀, hc₀, hfit₀⟩ := hinv.active t (by omega)
  have hb : l.ctx.bound = sp.bindCandidate (sp.replay l.ctx t) (sp.order.edgeAt t) c₀ := by
    rw [hinv.bound, ht]
    simp only [replay, hc₀]
  have hsizes : (sp.replay l.ctx t).edges.size = t ∧ (sp.replay l.ctx t).times.size = t :=
    size_replay fun i hi => by
      obtain ⟨c, hc, -⟩ := hinv.active i (by omega)
      simp [hc]
  rw [ht, Nat.add_sub_cancel]
  -- undoing the last binding gives the assignment before it, with the sets following it
  obtain ⟨htracks, hbound⟩ := SearchContext.Tracks.unbind hc₀ hb hfit₀ hinv.tracks hsizes.1 hsizes.2
  obtain ⟨-, hactive, hcand, hcur⟩ := SearchContext.unbind_of_active (sp.order.edgeAt t) hc₀
  set ctx₄ := l.ctx.unbind t (sp.order.edgeAt t)
  have hact₄ : ∀ i, i ≠ t → ctx₄.active.getD i none = l.ctx.active.getD i none := fun i hi => by
    rw [hactive]
    exact Array.getD_setIfInBounds_of_ne _ (Ne.symm hi) _
  have hreplay₄ : ∀ j ≤ t, sp.replay ctx₄ j = sp.replay l.ctx j := fun j hj =>
    replay_congr fun i hi => hact₄ i (by omega)
  have hframes : sp.frames ctx₄ (t + 1) = sp.frames l.ctx (t + 1) := by
    show sp.frameAt ctx₄ t :: sp.frames ctx₄ t = sp.frameAt l.ctx t :: sp.frames l.ctx t
    rw [frameAt_congr (fun i hi => hact₄ i (by omega)) (by rw [hcand]) (by rw [hcur]),
      frames_congr (fun i hi => hact₄ i (by omega)) (fun _ _ => by rw [hcand])
        (fun _ _ => by rw [hcur])]
  -- the state that ran out has an empty frame
  have hold : sp.frames l.ctx (l.state + 1) =
      ⟨t + 1, sp.replay l.ctx (t + 1), []⟩ :: sp.frames l.ctx (t + 1) := by
    rw [ht]
    show sp.frameAt l.ctx (t + 1) :: _ = _
    simp only [frameAt, ← ht, nextCandidate_eq_none.1 h]
  refine ⟨⟨show t < _ by omega, by rw [hactive, Array.size_setIfInBounds, hinv.size_active],
    by rw [hcand, hinv.size_candidates], by rw [hcur, hinv.size_cursors],
    by rw [hreplay₄ t (Nat.le_refl t), hbound], htracks,
    hinv.active_below (t := t) (by omega) fun i hi => hact₄ i (by omega),
    hinv.fits_upto (t := t) (by omega) (fun i hi => hact₄ i (by omega)) fun _ _ => by rw [hcand]⟩,
    ?_, ?_⟩
  · show l.found ++ ((sp.frames ctx₄ (t + 1)).flatMap sp.frameFound ++ _) =
      l.found ++ ((sp.frames l.ctx (l.state + 1)).flatMap sp.frameFound ++ _)
    rw [hframes, hold, List.flatMap_cons, frameFound_nil, List.nil_append]
  · intro p k hc
    exact ⟨hc.1, hc.2, hc.3⟩

/-- Loading a root that has start candidates, after skipping the roots that have none. -/
theorem loadRoot_eq_true {roots rest : List Nat} {r : Nat}
    (h : roots.dropWhile (fun x => (sp.starts x).isEmpty) = r :: rest) (l : SearchLoop) :
    sp.loadRoot false roots l = (true, { l with
      ctx := l.ctx.load 0 (sp.starts r), roots := rest,
      progress := { l.progress with
                    scannedRoots := l.progress.scannedRoots + (roots.length - rest.length) } }) := by
  induction roots generalizing l with
  | nil => simp at h
  | cons x xs ih =>
    by_cases hx : sp.starts x = []
    · have hxs : xs.dropWhile (fun x => (sp.starts x).isEmpty) = r :: rest := by
        simpa [List.dropWhile_cons, hx] using h
      have hlen : (r :: rest).length ≤ xs.length := hxs ▸ (List.dropWhile_suffix _).length_le
      simp only [loadRoot, Bool.false_eq_true, if_false, hx]
      rw [ih hxs]
      simp only [List.length_cons] at hlen ⊢
      congr 3
      omega
    · have hxr : x = r ∧ xs = rest := by
        simpa [List.dropWhile_cons, hx] using h
      obtain ⟨rfl, rfl⟩ := hxr
      obtain ⟨c, cs, hcs⟩ := List.exists_cons_of_ne_nil hx
      simp [loadRoot, hcs]

/-- When no root left has start candidates, every one is tried and the loop ends. -/
theorem loadRoot_eq_false {roots : List Nat}
    (h : roots.dropWhile (fun x => (sp.starts x).isEmpty) = []) (l : SearchLoop) :
    sp.loadRoot false roots l = (false, { l with
      roots := [],
      progress := { l.progress with
                    scannedRoots := l.progress.scannedRoots + roots.length } }) := by
  induction roots generalizing l with
  | nil => rfl
  | cons x xs ih =>
    by_cases hx : sp.starts x = []
    · have hxs : xs.dropWhile (fun x => (sp.starts x).isEmpty) = [] := by
        simpa [List.dropWhile_cons, hx] using h
      simp only [loadRoot, Bool.false_eq_true, if_false, hx]
      rw [ih hxs]
      simp only [List.length_cons]
      congr 3
      omega
    · simp [hx] at h

/-- A root loads only where there is a first edge state: without one no root has a start. -/
theorem edges_pos_of_loadRoot {roots : List Nat} {l l' : SearchLoop}
    (h : sp.loadRoot false roots l = (true, l')) : 0 < sp.order.edges.length := by
  refine Nat.pos_of_ne_zero fun hm => ?_
  have hnil : roots.dropWhile (fun x => (sp.starts x).isEmpty) = [] :=
    List.dropWhile_eq_nil_iff.2 fun x _ => by simp [starts, List.length_eq_zero_iff.1 hm]
  rw [loadRoot_eq_false hnil] at h
  cases h

theorem fromRoot_of_starts_eq_nil {r : Nat} (h : sp.starts r = []) : sp.fromRoot r = [] := by
  unfold fromRoot
  split <;> simp [h]

/-- The roots skipped for want of start candidates lead to nothing. -/
theorem flatMap_fromRoot_dropWhile (roots : List Nat) :
    (roots.dropWhile fun x => (sp.starts x).isEmpty).flatMap sp.fromRoot =
      roots.flatMap sp.fromRoot := by
  induction roots with
  | nil => rfl
  | cons x xs ih =>
    by_cases hx : sp.starts x = []
    · simp [hx, ih, fromRoot_of_starts_eq_nil hx]
    · simp [hx]

/-- The frame of state 0 loaded with a root's start candidates lists what the root leads to. -/
theorem frameFound_root (h0 : 0 < sp.order.edges.length) (r : Nat) :
    sp.frameFound ⟨0, Assignment.init sp.order.nodes.length, sp.starts r⟩ = sp.fromRoot r := by
  rw [fromRoot_eq (edgeAt_getElem? h0)]
  rfl

variable (sp) in
/-- With state 0 run out, the loop holds one empty frame. -/
theorem frames_one_of_exhausted {ctx : SearchContext} (h : ctx.nextCandidate 0 = none) :
    sp.frames ctx 1 = [⟨0, Assignment.init sp.order.nodes.length, []⟩] := by
  simp only [frames, frameAt, replay, nextCandidate_eq_none.1 h]

variable (sp) in
/-- A last turn from `l` to `l'`: it hands on all that was pending, has no roots left, and keeps
the counters. -/
structure Finishes (l l' : SearchLoop) : Prop where
  found : l'.found = l.found ++ sp.pending l
  roots : l'.roots = []
  counted : ∀ p k, Counted p k l → Counted p k l'

/-- An exhausted state 0 loads the next root that has start candidates. -/
theorem advances_reload (hjoin : sp.order.Joins) (hinv : sp.LoopInv l)
    (h : l.ctx.nextCandidate l.state = none) (hs : l.state = 0) {l' : SearchLoop}
    (hl : sp.loadRoot false l.roots l = (true, l')) : sp.Advances l l' := by
  cases hd : l.roots.dropWhile (fun x => (sp.starts x).isEmpty) with
  | nil => rw [loadRoot_eq_false hd] at hl; cases hl
  | cons r rest =>
    rw [loadRoot_eq_true hd] at hl
    obtain rfl := (Prod.mk.inj hl).2
    have h0 : 0 < sp.order.edges.length := hs ▸ hinv.state_lt
    have hlen : (r :: rest).length ≤ l.roots.length := hd ▸ (List.dropWhile_suffix _).length_le
    simp only [List.length_cons] at hlen
    have hsize : 0 < l.ctx.candidates.size := by rw [hinv.size_candidates]; exact h0
    have hcsize : 0 < l.ctx.cursors.size := by rw [hinv.size_cursors]; exact h0
    -- the reloaded state 0 holds the root's start candidates, from the first
    have hnew : sp.frames (l.ctx.load 0 (sp.starts r)) 1 =
        [⟨0, Assignment.init sp.order.nodes.length, sp.starts r⟩] := by
      simp only [frames, frameAt, replay, SearchContext.load,
        Array.getD_setIfInBounds_self _ hsize, Array.getD_setIfInBounds_self _ hcsize, List.drop_zero]
    have hold := frames_one_of_exhausted sp (hs ▸ h)
    refine ⟨⟨hinv.state_lt, hinv.size_active, Array.size_setIfInBounds.trans hinv.size_candidates,
      Array.size_setIfInBounds.trans hinv.size_cursors, ?_, hinv.tracks.congr rfl rfl rfl rfl,
      fun j hj => absurd hj (by rw [hs]; omega), fun j hj c hc => ?_⟩, ?_, ?_⟩
    · show l.ctx.bound = sp.replay (l.ctx.load 0 (sp.starts r)) l.state
      rw [hinv.bound, hs]
      rfl
    · obtain rfl : j = 0 := by rw [hs] at hj; omega
      simp only [SearchContext.load, Array.getD_setIfInBounds_self _ hsize] at hc
      exact fits_of_mem_starts hjoin hc
    · show l.found ++ ((sp.frames (l.ctx.load 0 (sp.starts r)) (l.state + 1)).flatMap sp.frameFound ++
          rest.flatMap sp.fromRoot) =
        l.found ++ ((sp.frames l.ctx (l.state + 1)).flatMap sp.frameFound ++ l.roots.flatMap sp.fromRoot)
      rw [hs, hnew, hold, ← flatMap_fromRoot_dropWhile l.roots, hd]
      simp [frameFound_root h0]
    · intro p k hc
      have := hc.1
      refine ⟨show rest.length ≤ k by omega, hc.2, ?_⟩
      show { l.progress with scannedRoots := l.progress.scannedRoots + (l.roots.length - rest.length) } = _
      rw [hc.3]
      simp only [Progress.mk.injEq, true_and, and_true]
      omega

/-- An exhausted state 0 with no root left to load ends the loop. -/
theorem finishes_reload (h : l.ctx.nextCandidate l.state = none) (hs : l.state = 0)
    {l' : SearchLoop} (hl : sp.loadRoot false l.roots l = (false, l')) : sp.Finishes l l' := by
  cases hd : l.roots.dropWhile (fun x => (sp.starts x).isEmpty) with
  | cons r rest => rw [loadRoot_eq_true hd] at hl; cases hl
  | nil =>
    rw [loadRoot_eq_false hd] at hl
    obtain rfl := (Prod.mk.inj hl).2
    have hold := frames_one_of_exhausted sp (hs ▸ h)
    refine ⟨?_, rfl, fun p k hc => ⟨Nat.zero_le _, hc.2, ?_⟩⟩
    · show l.found = l.found ++ ((sp.frames l.ctx (l.state + 1)).flatMap sp.frameFound ++
        l.roots.flatMap sp.fromRoot)
      rw [hs, hold, ← flatMap_fromRoot_dropWhile l.roots, hd]
      simp
    · show { l.progress with scannedRoots := l.progress.scannedRoots + l.roots.length } = _
      rw [hc.3]
      have := hc.1
      simp only [Progress.mk.injEq, true_and, and_true, List.length_nil]
      omega

/-! The step counter plays no part in the bookkeeping. -/

theorem LoopInv.tick (hinv : sp.LoopInv l) (n : Nat) : sp.LoopInv { l with steps := n } :=
  ⟨hinv.1, hinv.2, hinv.3, hinv.4, hinv.5, hinv.6, hinv.7, hinv.8⟩

theorem Advances.of_tick {l' : SearchLoop} {n : Nat} (a : sp.Advances { l with steps := n } l') :
    sp.Advances l l' :=
  ⟨a.inv, a.found, fun p k hc => a.counted p k ⟨hc.1, hc.2, hc.3⟩⟩

theorem Finishes.of_tick {l' : SearchLoop} {n : Nat} (f : sp.Finishes { l with steps := n } l') :
    sp.Finishes l l' :=
  ⟨f.found, f.roots, fun p k hc => f.counted p k ⟨hc.1, hc.2, hc.3⟩⟩

theorem Advances.finishes {l' l'' : SearchLoop} (a : sp.Advances l l') (f : sp.Finishes l' l'') :
    sp.Finishes l l'' :=
  ⟨f.found.trans a.found, f.roots, fun p k hc => f.counted p k (a.counted p k hc)⟩

/-- Every turn of the uncancelled loop either goes on, keeping the invariant and what is pending,
or is its last. -/
theorem step_spec (hjoin : sp.order.Joins) (hinv : sp.LoopInv l) :
    (∃ l', sp.step false l = .more l' ∧ sp.Advances l l') ∨
      ∃ l', sp.step false l = .done l' ∧ sp.Finishes l l' := by
  cases h : l.ctx.nextCandidate l.state with
  | some p =>
    obtain ⟨c, ctx⟩ := p
    left
    rw [step_take h]
    by_cases hlast : l.state = sp.order.edges.length - 1
    · exact ⟨_, if_pos hlast, advances_take_last hinv h hlast⟩
    · exact ⟨_, if_neg hlast, advances_take_next hjoin hinv h hlast⟩
  | none =>
    by_cases hs : l.state = 0
    · obtain ⟨b, l', hb⟩ : ∃ b l', sp.loadRoot false l.roots { l with steps := l.steps + 1 } =
          (b, l') := ⟨_, _, rfl⟩
      cases b
      · exact Or.inr ⟨l', step_finish h hs hb,
          (finishes_reload (l := { l with steps := l.steps + 1 }) h hs hb).of_tick⟩
      · exact Or.inl ⟨l', step_reload h hs hb,
          (advances_reload (l := { l with steps := l.steps + 1 }) hjoin (hinv.tick _) h hs hb).of_tick⟩
    · exact Or.inl ⟨_, step_climb h hs, advances_climb hinv h hs⟩

/-- The loop as a run starts it: nothing bound, at state 0, with all the roots to try. -/
theorem loopInv_new {roots : List Nat} {p : Progress} (h0 : 0 < sp.order.edges.length) :
    sp.LoopInv ⟨SearchContext.new sp.order.nodes.length sp.order.edges.length, 0, roots, [],
      ⟨0, false⟩, p, 0⟩ := by
  refine ⟨h0, Array.size_replicate, Array.size_replicate, Array.size_replicate, rfl,
    SearchContext.tracks_new _ _, fun j hj => absurd hj (Nat.not_lt_zero j), fun j _ c hc => ?_⟩
  simp only [SearchContext.new, Array.getD_replicate] at hc
  exact absurd hc List.not_mem_nil

end SearchSpace

end TemporalMotif
