import TemporalMotif.Proofs.Growth

/-!
# Sampled queries are well-formed

`Graph.sample` reserves room for `k` picked edges, which panics past `pickCapacity`, then grows a
query from a drawn start node (see `Proofs.Growth`), adds the reached nodes with their labels and
places the picked edges one by one, each with a time in `1..k` that no earlier edge took under
the same key (its ends, the smaller first when undirected).

A time the draws settle on is in range and unused whatever the source (`freshTime_fresh`), so
placed edges never share a key (`foldlM_placeEdge`). Whether the draws settle at all is up to the
source: fewer than `k` edges come before any edge, so a time is always left, and a source whose
repeated draws reach every value of their range reaches it (`exists_foldlM_placeEdge`). More
tries never change a finished run (`sample_of_le_tries`). The query is a graph built by calls, so
the representation invariant tells its edges, labels and shadowed edges (`sampledQuery_of_grown`).

Main statement: `sample_well_formed`.
-/

namespace TemporalMotif

/-- Edge `f` copies `e`: the same label and the same ends, possibly swapped when undirected. -/
def Edge.Copies (directed : Bool) (f e : Edge) : Prop :=
  f.label = e.label ∧
    (f.source = e.source ∧ f.dest = e.dest ∨ directed = false ∧ f.source = e.dest ∧ f.dest = e.source)

theorem exists_mem_iff_of_forall₂ {α β : Type} {R : α → β → Prop} {P : α → Prop} {Q : β → Prop}
    (hPQ : ∀ a b, R a b → (P a ↔ Q b)) :
    ∀ {as : List α} {bs : List β}, List.Forall₂ R as bs → ((∃ a ∈ as, P a) ↔ ∃ b ∈ bs, Q b)
  | _, _, .nil => by simp
  | _, _, .cons hab h => by
    simp only [List.mem_cons, exists_eq_or_imp, hPQ _ _ hab, exists_mem_iff_of_forall₂ hPQ h]

namespace Draw

variable {σ : Type} (draw : Draw σ)

/-- The state after `n` draws in `[lo, hi]` from `s`. -/
def skip (lo hi : Nat) : Nat → σ → σ
  | 0, s => s
  | n + 1, s => skip lo hi n (draw s lo hi).2

/-- Repeated draws in one range reach each of its values, from any state. -/
def Covers : Prop :=
  ∀ (s : σ) (lo hi v : Nat), lo ≤ v → v ≤ hi → ∃ n, (draw (draw.skip lo hi n s) lo hi).1 = v

end Draw

namespace Graph

variable (g : Graph)

/-- The used entry `u` holds the key and the time of `f`. -/
def Blocks (u : Nat × Nat × Nat) (f : Edge) : Prop :=
  (u.1, u.2.1) = g.sampleKey f.source f.dest ∧ (u.2.2 : Int) = f.time

/-- What the sampler promises of a query `q` drawn from `g` with `k` edges from `start`. It has
`g`'s kind and `k` edges, copied in order from distinct edges of `g` that are live and reachable
from the start; their times lie in `1..k` and no two share a key, so none is shadowed. Its nodes
are the start and the declared ends of its edges, with their labels in `g`, and each is joined to
the start by its edges. -/
structure SampledQuery (k start : Nat) (q : Graph) : Prop where
  directed : q.directed = g.directed
  size : q.edges.size = k
  copies : ∃ ids : List Nat, ids.Nodup ∧ List.Forall₂ (fun f i => g.ReachableEdge start i ∧
    ∃ e, g.edges[i]? = some e ∧ f.Copies g.directed e) q.edges.toList ids
  times : ∀ f ∈ q.edges.toList, 1 ≤ f.time ∧ f.time ≤ k
  keys : q.edges.toList.Pairwise fun f f' => ¬ f'.SameKey q.directed f
  unshadowed : q.shadowed = []
  label : ∀ x, q.label? x =
    if x = start ∨ ∃ f ∈ q.edges.toList, f.source = x ∨ f.dest = x then g.label? x else none
  connected : ∀ x ∈ q.nodes.map Prod.fst, Relation.ReflTransGen q.Joined start x

/-- What placing the picked edges `cs` after the used entries `used` gives: edges `fs` with the
picked ends and labels, times in `1..k` that no used entry holds, and no two with one key. -/
structure Placed (k : Nat) (used cs : List (Nat × Nat × Nat)) (fs : List Edge) : Prop where
  copies : List.Forall₂ (fun c f => f.source = c.1 ∧ f.dest = c.2.1 ∧ f.label = g.edgeLabel c.2.2)
    cs fs
  times : ∀ f ∈ fs, 1 ≤ f.time ∧ f.time ≤ k
  fresh : ∀ f ∈ fs, ∀ u ∈ used, ¬ g.Blocks u f
  keys : fs.Pairwise fun f f' => ¬ f'.SameKey g.directed f

theorem sampleKey_eq_of_sameKey {f f' : Edge} (h : f'.SameKey g.directed f) :
    g.sampleKey f'.source f'.dest = g.sampleKey f.source f.dest := by
  rcases h with ⟨-, ⟨hs, hd⟩ | ⟨hdir, hs, hd⟩⟩
  · rw [hs, hd]
  · -- undirected: swapped ends sort to the same key
    simp only [sampleKey, hdir, Bool.false_or, decide_eq_true_eq, hs, hd]
    split_ifs <;> simp only [Prod.mk.injEq] <;> omega

variable {g} {σ : Type} {draw : Draw σ}

/-! ### Fresh times -/

/-- Fewer than `k` used entries leave a time in `1..k` unused under any key. -/
theorem exists_unused {used : List (Nat × Nat × Nat)} {k : Nat} (h : used.length < k)
    (key : Nat × Nat) : ∃ t, 1 ≤ t ∧ t ≤ k ∧ (key.1, key.2, t) ∉ used := by
  by_contra hall
  simp only [not_exists, not_and, not_not] at hall
  -- otherwise the `k` entries of this key at times `1..k` would all be used
  have hsub : (List.range k).map (fun j => (key.1, key.2, j + 1)) ⊆ used := by
    intro u hu
    obtain ⟨j, hj, rfl⟩ := List.mem_map.1 hu
    exact hall (j + 1) (by omega) (by simpa using hj)
  have hnd : ((List.range k).map fun j => (key.1, key.2, j + 1)).Nodup :=
    List.nodup_range.map fun j j' hjj => by simpa using hjj
  have hle := (hnd.subperm hsub).length_le
  simp only [List.length_map, List.length_range] at hle
  omega

section FreshTime

variable {used : List (Nat × Nat × Nat)} {key : Nat × Nat} {k : Nat}

/-- A time the draws settle on is in `1..k` and unused under its key. -/
theorem freshTime_fresh (hdraw : draw.InRange) (hk : 1 ≤ k) :
    ∀ {tries : Nat} {s : σ} {ts : Nat × σ}, freshTime draw used key k tries s = some ts →
      1 ≤ ts.1 ∧ ts.1 ≤ k ∧ (key.1, key.2, ts.1) ∉ used
  | 0, _, _, h => by simp [freshTime] at h
  | tries + 1, s, ts, h => by
    have hin := hdraw s 1 k hk
    rcases hd : draw s 1 k with ⟨t, s'⟩
    rw [hd] at hin
    simp only [freshTime, hd] at h
    split at h
    · exact freshTime_fresh hdraw hk h
    · rename_i hnot
      cases h
      exact ⟨hin.1, hin.2, by simpa using hnot⟩

/-- More tries keep a time the draws settled on. -/
theorem freshTime_of_le {ts : Nat × σ} :
    ∀ {tries tries' : Nat} {s : σ}, tries ≤ tries' →
      freshTime draw used key k tries s = some ts → freshTime draw used key k tries' s = some ts
  | 0, _, _, _, h => by simp [freshTime] at h
  | _ + 1, 0, _, hle, _ => absurd hle (by omega)
  | tries + 1, tries' + 1, s, hle, h => by
    rcases hd : draw s 1 k with ⟨t, s'⟩
    simp only [freshTime, hd] at h ⊢
    split at h
    · rw [if_pos ‹_›]
      exact freshTime_of_le (by omega) h
    · rwa [if_neg ‹_›]

/-- If the draw after `n` others gives an unused time, `n + 1` tries settle on a time. -/
theorem freshTime_isSome_of_skip {t : Nat} (ht : (key.1, key.2, t) ∉ used) :
    ∀ (n : Nat) (s : σ), (draw (draw.skip 1 k n s) 1 k).1 = t →
      (freshTime draw used key k (n + 1) s).isSome
  | 0, s, hv => by
    rcases hd : draw s 1 k with ⟨t', s'⟩
    rw [Draw.skip, hd] at hv
    cases hv
    simp [freshTime, hd, ht]
  | n + 1, s, hv => by
    rcases hd : draw s 1 k with ⟨t', s'⟩
    rw [Draw.skip, hd] at hv
    simp only [freshTime, hd]
    split
    · exact freshTime_isSome_of_skip ht n s' hv
    · rfl

/-- Draws that reach every value of their range settle on a time when one is left. -/
theorem exists_freshTime (hcov : draw.Covers)
    (hfree : ∃ t, 1 ≤ t ∧ t ≤ k ∧ (key.1, key.2, t) ∉ used) (s : σ) :
    ∃ tries ts, freshTime draw used key k tries s = some ts := by
  obtain ⟨t, ht1, htk, ht⟩ := hfree
  obtain ⟨n, hn⟩ := hcov s 1 k t ht1 htk
  exact ⟨n + 1, Option.isSome_iff_exists.1 (freshTime_isSome_of_skip ht n s hn)⟩

end FreshTime

/-! ### Placing the picked edges -/

section Place

variable {k tries : Nat}

/-- One placement, with the key and the drawn time spelled out. -/
theorem placeEdge_eq_some {q : Graph} {used : List (Nat × Nat × Nat)} {s : σ}
    {c : Nat × Nat × Nat} {r : Graph × List (Nat × Nat × Nat) × σ} :
    g.placeEdge draw k tries (q, used, s) c = some r ↔
      ∃ ts, freshTime draw used (g.sampleKey c.1 c.2.1) k tries s = some ts ∧
        r = (q.addEdge c.1 c.2.1 ts.1 (g.edgeLabel c.2.2),
          ((g.sampleKey c.1 c.2.1).1, (g.sampleKey c.1 c.2.1).2, ts.1) :: used, ts.2) := by
  simp only [placeEdge, Option.map_eq_some_iff]
  exact exists_congr fun ts => and_congr_right fun _ => eq_comm

theorem placeEdge_of_le {tries' : Nat} (hle : tries ≤ tries') {acc r : Graph × List (Nat × Nat × Nat) × σ}
    {c : Nat × Nat × Nat} (h : g.placeEdge draw k tries acc c = some r) :
    g.placeEdge draw k tries' acc c = some r := by
  obtain ⟨q, used, s⟩ := acc
  obtain ⟨ts, hts, rfl⟩ := placeEdge_eq_some.1 h
  exact placeEdge_eq_some.2 ⟨ts, freshTime_of_le hle hts, rfl⟩

/-- The run lemma of placement: every placed edge gets a time in `1..k` that no used entry and
no earlier placed edge holds under its key. -/
theorem foldlM_placeEdge (hdraw : draw.InRange) (hk : 1 ≤ k) :
    ∀ (cs used : List (Nat × Nat × Nat)) (q : Graph) (s : σ) (r : Graph × List (Nat × Nat × Nat) × σ),
      cs.foldlM (g.placeEdge draw k tries) (q, used, s) = some r →
      ∃ fs, g.Placed k used cs fs ∧ r.1 = fs.foldl (fun q f => q.addEdge f.source f.dest f.time f.label) q
  | [], used, q, s, r, h => by
    cases h
    exact ⟨[], ⟨.nil, by simp, by simp, .nil⟩, rfl⟩
  | c :: cs, used, q, s, r, h => by
    rw [List.foldlM_cons] at h
    obtain ⟨acc, hacc, hrest⟩ := Option.bind_eq_some_iff.1 h
    obtain ⟨ts, hts, rfl⟩ := placeEdge_eq_some.1 hacc
    set key := g.sampleKey c.1 c.2.1 with hkey
    obtain ⟨ht1, htk, htu⟩ := freshTime_fresh hdraw hk hts
    obtain ⟨fs, hfs, hq⟩ := foldlM_placeEdge hdraw hk cs _ _ _ r hrest
    refine ⟨⟨c.1, c.2.1, ts.1, g.edgeLabel c.2.2⟩ :: fs, ⟨.cons ⟨rfl, rfl, rfl⟩ hfs.copies, ?_, ?_, ?_⟩,
      hq⟩
    · intro f hf
      rcases List.mem_cons.1 hf with rfl | hf
      · exact ⟨by dsimp only; omega, by dsimp only; omega⟩
      · exact hfs.times f hf
    · intro f hf u hu hb
      rcases List.mem_cons.1 hf with rfl | hf
      · -- an entry holding the new edge's key and time would make that time used
        obtain ⟨hu12, hu3⟩ := hb
        have hu' : u = (key.1, key.2, ts.1) := by
          obtain ⟨u1, u2, u3⟩ := u
          have h1 : u1 = key.1 := congrArg Prod.fst hu12
          have h2 : u2 = key.2 := congrArg Prod.snd hu12
          have h3 : u3 = ts.1 := by simpa using hu3
          rw [h1, h2, h3]
        exact htu (hu' ▸ hu)
      · exact hfs.fresh f hf u (List.mem_cons_of_mem _ hu) hb
    · refine List.pairwise_cons.2 ⟨fun f' hf' hsame => hfs.fresh f' hf' _ List.mem_cons_self ?_, hfs.keys⟩
      exact ⟨by rw [g.sampleKey_eq_of_sameKey hsame], by rw [hsame.1]⟩

/-- More tries keep a placement that finished. -/
theorem foldlM_placeEdge_of_le {tries' : Nat} (hle : tries ≤ tries') :
    ∀ (cs : List (Nat × Nat × Nat)) (acc r : Graph × List (Nat × Nat × Nat) × σ),
      cs.foldlM (g.placeEdge draw k tries) acc = some r →
      cs.foldlM (g.placeEdge draw k tries') acc = some r
  | [], _, _, h => h
  | c :: cs, acc, r, h => by
    rw [List.foldlM_cons] at h ⊢
    obtain ⟨acc', hacc, hrest⟩ := Option.bind_eq_some_iff.1 h
    rw [placeEdge_of_le hle hacc]
    exact foldlM_placeEdge_of_le hle cs acc' r hrest

/-- With at most `k` entries used or to come, draws that reach every value of their range place
every picked edge: a time is left for each, and the tries of all of them together suffice. -/
theorem exists_foldlM_placeEdge (hcov : draw.Covers) :
    ∀ (cs used : List (Nat × Nat × Nat)) (q : Graph) (s : σ), used.length + cs.length ≤ k →
      ∃ tries r, cs.foldlM (g.placeEdge draw k tries) (q, used, s) = some r
  | [], _, q, s, _ => ⟨0, (q, _, s), rfl⟩
  | c :: cs, used, q, s, hlen => by
    simp only [List.length_cons] at hlen
    obtain ⟨n, ts, hts⟩ := exists_freshTime hcov
      (exists_unused (show used.length < k by omega) (g.sampleKey c.1 c.2.1)) s
    have hplace : g.placeEdge draw k n (q, used, s) c = some (q.addEdge c.1 c.2.1 ts.1 (g.edgeLabel c.2.2),
        ((g.sampleKey c.1 c.2.1).1, (g.sampleKey c.1 c.2.1).2, ts.1) :: used, ts.2) :=
      placeEdge_eq_some.2 ⟨ts, hts, rfl⟩
    obtain ⟨m, r, hr⟩ := exists_foldlM_placeEdge hcov cs
      (((g.sampleKey c.1 c.2.1).1, (g.sampleKey c.1 c.2.1).2, ts.1) :: used)
      (q.addEdge c.1 c.2.1 ts.1 (g.edgeLabel c.2.2)) ts.2 (by simp only [List.length_cons]; omega)
    refine ⟨max n m, r, ?_⟩
    rw [List.foldlM_cons, placeEdge_of_le (le_max_left n m) hplace]
    exact foldlM_placeEdge_of_le (le_max_right n m) cs _ r hr

end Place

/-! ### The query as a built graph -/

theorem foldl_addNode_eq_ofOps (directed : Bool) (nodes : List (Nat × Nat)) :
    nodes.foldl (fun q (n, l) => q.addNode n l) (Graph.empty directed) =
      Graph.ofOps directed (nodes.map fun (n, l) => .addNode n l) := by
  simp only [ofOps, List.foldl_map]
  rfl

theorem foldl_addEdge_eq_ofOps (directed : Bool) (ops : List GraphOp) (fs : List Edge) :
    fs.foldl (fun q f => q.addEdge f.source f.dest f.time f.label) (Graph.ofOps directed ops) =
      Graph.ofOps directed (ops ++ fs.map fun f => .addEdge f.source f.dest f.time f.label) := by
  simp only [ofOps, List.foldl_append, List.foldl_map]
  rfl

theorem addedEdges_sampled (nodes : List (Nat × Nat)) (fs : List Edge) :
    addedEdges ((nodes.map fun (n, l) => GraphOp.addNode n l) ++
      fs.map fun f => .addEdge f.source f.dest f.time f.label) = fs := by
  simp [addedEdges, List.filterMap_append, List.filterMap_map, GraphOp.edge?, Function.comp_def]

theorem addedNodes_sampled (nodes : List (Nat × Nat)) (fs : List Edge) :
    addedNodes ((nodes.map fun (n, l) => GraphOp.addNode n l) ++
      fs.map fun f => .addEdge f.source f.dest f.time f.label) = nodes := by
  simp [addedNodes, List.filterMap_append, List.filterMap_map, GraphOp.node?, Function.comp_def]

end Graph

/-- A graph built with no two edges sharing a key has no shadowed edge. -/
theorem Built.shadowed_eq_nil {g : Graph} {directed : Bool} {ops : List GraphOp}
    (h : Built g directed ops)
    (hkeys : (addedEdges ops).Pairwise fun f f' => ¬ f'.SameKey directed f) : g.shadowed = [] := by
  refine List.eq_nil_iff_forall_not_mem.2 fun i hi => ?_
  obtain ⟨hi, hnot⟩ := (h.mem_shadowed_iff i).1 hi
  refine hnot ⟨(addedEdges ops)[i], List.getElem?_eq_getElem hi, fun j hij f hf => ?_⟩
  obtain ⟨hj, rfl⟩ := List.getElem?_eq_some_iff.1 hf
  exact List.pairwise_iff_getElem.1 hkeys i j hi hj hij

namespace Graph

variable {g : Graph} {σ : Type} {draw : Draw σ}

/-- The query a growth ends in is well-formed: the growth's invariant gives its nodes and where
its edges come from, placement gives their times and keys. -/
theorem sampledQuery_of_grown (hdraw : draw.InRange) {start : Nat}
    {p : Sampled} (hp : p.Grown g start) {k : Nat} (hk : 1 ≤ k) (hlen : p.taken.length = k)
    {tries : Nat} {s : σ} {q : Graph} (h : g.placeAll draw k tries p s = some q) :
    g.SampledQuery k start q := by
  have hpicked : p.picked.length = k := by
    rw [← hlen, hp.taken_eq, List.length_reverse, List.length_map]
  obtain ⟨r, hr, rfl⟩ := Option.map_eq_some_iff.1 h
  obtain ⟨fs, hfs, hq⟩ := foldlM_placeEdge hdraw hk p.picked [] _ s r hr
  set nodeOps := p.nodes.map fun (n, l) => GraphOp.addNode n l
  set ops' := nodeOps ++ fs.map fun f => .addEdge f.source f.dest f.time f.label
  have hgraph : r.1 = Graph.ofOps g.directed ops' := by
    rw [hq, foldl_addNode_eq_ofOps, foldl_addEdge_eq_ofOps]
  have hq' : Built r.1 g.directed ops' := hgraph ▸ built_ofOps _ _
  have hedges : r.1.edges.toList = fs := by
    rw [hq'.edges_eq, addedEdges_sampled]
  have hdir : r.1.directed = g.directed := hq'.directed_eq
  -- a picked edge and the edge placed for it have the same ends
  have hends : ∀ (P : Nat → Nat → Prop), (∃ c ∈ p.picked, P c.1 c.2.1) ↔ ∃ f ∈ fs, P f.source f.dest :=
    fun P => exists_mem_iff_of_forall₂ (fun c f ⟨hs, hd, _⟩ => by rw [hs, hd]) hfs.copies
  refine ⟨hdir, ?_, ?_, ?_, ?_, ?_, ?_, ?_⟩
  · rw [← Array.length_toList, hedges, ← hfs.copies.length_eq, hpicked]
  · -- the placed edges copy the picked ones, whose edges are distinct, live and reachable
    refine ⟨p.picked.map (·.2.2), ?_, ?_⟩
    · rw [← List.nodup_reverse, ← hp.taken_eq]
      exact hp.taken_nodup
    · rw [hedges, List.forall₂_map_right_iff]
      have hmem := (List.forall₂_and_left _ _).2 ⟨fun c hc => hc, hfs.copies⟩
      refine (List.Forall₂.flip hmem).imp ?_
      rintro f c ⟨hc, hs, hd, hl⟩
      obtain ⟨hlive, e, he, hjoin⟩ := hp.picked_join c hc
      refine ⟨hp.reachableEdge_of_mem (hp.mem_taken_iff.2 ⟨c, hc, rfl⟩), e, he, ?_, ?_⟩
      · rw [hl, edgeLabel, he]
        rfl
      · rcases hjoin with ⟨h1, h2⟩ | ⟨hd', h1, h2⟩
        · exact .inl ⟨hs.trans h1.symm, hd.trans h2.symm⟩
        · exact .inr ⟨hd', hs.trans h2.symm, hd.trans h1.symm⟩
  · rw [hedges]
    exact hfs.times
  · rw [hedges, hdir]
    exact hfs.keys
  · exact hq'.shadowed_eq_nil (by rw [addedEdges_sampled]; exact hfs.keys)
  · intro x
    rw [hq'.label_eq, addedNodes_sampled, hedges, hp.lookup_eq]
    exact if_congr (or_congr Iff.rfl (hends fun a b => a = x ∨ b = x)) rfl rfl
  · intro x hx
    rw [hq'.ids_eq, addedNodes_sampled, List.mem_eraseDups] at hx
    -- the picked edges that join the reached nodes are edges of the query
    refine Relation.ReflTransGen.mono (fun a b hab => ?_) _ _ (hp.joined x hx)
    obtain ⟨f, hf, hab⟩ := (hends fun c d => c = a ∧ d = b ∨ c = b ∧ d = a).1 hab
    exact ⟨f, hedges ▸ hf, hab⟩

/-! ### Sampling -/

section Sample

variable {k tries : Nat} {s : σ}

theorem placeAll_of_le {tries' : Nat} (hle : tries ≤ tries') {p : Sampled} {q : Graph}
    (h : g.placeAll draw k tries p s = some q) : g.placeAll draw k tries' p s = some q := by
  obtain ⟨r, hr, rfl⟩ := Option.map_eq_some_iff.1 h
  exact Option.map_eq_some_iff.2 ⟨r, foldlM_placeEdge_of_le hle _ _ r hr, rfl⟩

/-- Draws that reach every value of their range place the `k` picked edges of a growth. -/
theorem exists_placeAll (hcov : draw.Covers) {p : Sampled} (hlen : p.picked.length ≤ k) (s : σ) :
    ∃ tries q, g.placeAll draw k tries p s = some q := by
  obtain ⟨tries, r, hr⟩ := exists_foldlM_placeEdge hcov p.picked [] _ s (by simpa using hlen)
  exact ⟨tries, r.1, Option.map_eq_some_iff.2 ⟨r, hr, rfl⟩⟩

/-- A growth that took its `k` edges from a start node ends in a sampled query whenever its edges
are placed, and draws that reach every value place them within some number of tries. -/
theorem placed_of_drawEdges {directed : Bool} {ops : List GraphOp} (h : Built g directed ops)
    (hdraw : draw.InRange) (hk : k ≠ 0) {start : Nat × Nat}
    (hlabel : g.label? start.1 = some start.2) {p : Sampled} {s' : σ}
    (hd : g.drawEdges draw k ⟨[start], [], []⟩ s = some (p, s')) :
    (∀ tries q, g.placeAll draw k tries p s' = some q → g.SampledQuery k start.1 q) ∧
      (draw.Covers → ∃ tries q, g.placeAll draw k tries p s' = some q) := by
  obtain ⟨hp, hlen⟩ := grown_of_drawEdges h k (Sampled.grown_start hlabel) hd
  have htaken : p.taken.length = k := by simpa using hlen
  refine ⟨fun tries q hq => sampledQuery_of_grown hdraw hp (by omega) htaken hq, fun hcov => ?_⟩
  -- every picked edge finds a time: fewer than `k` come before it
  have hpicked : p.picked.length ≤ k := by
    rw [hp.taken_eq, List.length_reverse, List.length_map] at htaken
    omega
  exact exists_placeAll hcov hpicked s'

/-- A run that asks for edges of a graph with nodes: the start draw picks a node or panics; room
for the picked edges is reserved or the run panics; then the growth stalls, or its edges are
placed unless some edge's tries run out. The bound on times is never reached past the
reservation. -/
theorem sample_eq (hk : k ≠ 0) (hn : g.nodes ≠ []) :
    g.sample k draw s tries = (g.nodes[(draw s 0 (g.nodes.length - 1)).1]?).elim
      (.panicked (indexMessage g.nodes.length (draw s 0 (g.nodes.length - 1)).1)) fun start =>
        if pickCapacity < k then .panicked "capacity overflow" else
          (g.drawEdges draw k ⟨[start], [], []⟩ (draw s 0 (g.nodes.length - 1)).2).elim .none
            fun r => (g.placeAll draw k tries r.1 r.2).elim .retrying .query := by
  have hempty : g.nodes.isEmpty = false := List.isEmpty_eq_false_iff.2 hn
  simp only [sample, hk, hempty, decide_false, Bool.false_or, Bool.false_eq_true, if_false]
  cases g.nodes[(draw s 0 (g.nodes.length - 1)).1]? with
  | none => rfl
  | some start =>
    simp only [Option.elim_some]
    split_ifs with hcap hbound
    · rfl
    · -- within capacity, `k` is far below the greatest timestamp
      unfold pickCapacity at hcap
      omega
    · cases g.drawEdges draw k ⟨[start], [], []⟩ (draw s 0 (g.nodes.length - 1)).2 with
      | none => rfl
      | some r =>
        obtain ⟨p, s'⟩ := r
        simp only [Option.elim_some]
        cases g.placeAll draw k tries p s' <;> rfl

theorem sample_of_zero : g.sample 0 draw s tries = .none := by
  simp [sample]

theorem sample_of_nil (hn : g.nodes = []) : g.sample k draw s tries = .none := by
  simp [sample, hn]

/-- More tries never change a finished run: once every edge's time draws have settled, the run
ends the same with any larger number of tries. -/
theorem sample_of_le_tries {tries' : Nat} (hle : tries ≤ tries')
    (h : g.sample k draw s tries ≠ .retrying) : g.sample k draw s tries' = g.sample k draw s tries := by
  by_cases hk : k = 0
  · rw [hk, sample_of_zero, sample_of_zero]
  by_cases hn : g.nodes = []
  · rw [sample_of_nil hn, sample_of_nil hn]
  rw [sample_eq hk hn] at h ⊢
  rw [sample_eq hk hn]
  revert h
  cases g.nodes[(draw s 0 (g.nodes.length - 1)).1]? with
  | none => exact fun _ => rfl
  | some start =>
    simp only [Option.elim_some]
    split_ifs
    · exact fun _ => rfl
    · cases g.drawEdges draw k ⟨[start], [], []⟩ (draw s 0 (g.nodes.length - 1)).2 with
      | none => exact fun _ => rfl
      | some r =>
        simp only [Option.elim_some]
        cases hq : g.placeAll draw k tries r.1 r.2 with
        | none => exact fun h => (h rfl).elim
        | some q => exact fun _ => by rw [placeAll_of_le hle hq]

end Sample

/-- A draw in range picks a node of a built graph that has some, and that node carries its
label. -/
theorem exists_drawn_start {directed : Bool} {ops : List GraphOp} (h : Built g directed ops)
    (hdraw : draw.InRange) (hn : g.nodes ≠ []) (s : σ) :
    ∃ start, g.nodes[(draw s 0 (g.nodes.length - 1)).1]? = some start ∧
      g.label? start.1 = some start.2 := by
  have hlt : (draw s 0 (g.nodes.length - 1)).1 < g.nodes.length := by
    have hin := (hdraw s 0 (g.nodes.length - 1) (Nat.zero_le _)).2
    have hpos := List.length_pos_iff.2 hn
    omega
  refine ⟨_, List.getElem?_eq_getElem hlt, lookup_of_mem ?_ (List.getElem_mem hlt)⟩
  rw [h.ids_eq]
  exact nodup_eraseDups _

end Graph

/-- Draws that sweep each range in turn: the state counts the draws made. -/
def Draw.sweep : Draw Nat := fun n lo hi => (lo + n % (hi + 1 - lo), n + 1)

theorem Draw.sweep_inRange : Draw.sweep.InRange := fun n lo hi h => by
  have hlt := Nat.mod_lt n (show 0 < hi + 1 - lo by omega)
  exact ⟨by simp [Draw.sweep], by simp only [Draw.sweep]; omega⟩

theorem Draw.skip_sweep (lo hi : Nat) : ∀ n s, Draw.sweep.skip lo hi n s = s + n
  | 0, _ => rfl
  | n + 1, s => by
    rw [Draw.skip, Draw.skip_sweep lo hi n]
    simp only [Draw.sweep]
    omega

/-- A sweep reaches each value of a range within as many draws as the range has values. -/
theorem Draw.sweep_covers : Draw.sweep.Covers := by
  intro s lo hi v hlo hhi
  have hr : 0 < hi + 1 - lo := by omega
  -- from `s`, the draw after `r - s % r + (v - lo)` others lands on `v`
  refine ⟨hi + 1 - lo - s % (hi + 1 - lo) + (v - lo), ?_⟩
  have hdiv := Nat.mod_add_div s (hi + 1 - lo)
  have hmod := Nat.mod_lt s hr
  have hsum : s + (hi + 1 - lo - s % (hi + 1 - lo) + (v - lo)) =
      (hi + 1 - lo) * (s / (hi + 1 - lo) + 1) + (v - lo) := by
    rw [Nat.mul_add, Nat.mul_one]
    omega
  simp only [Draw.sweep, Draw.skip_sweep, hsum, Nat.mul_add_mod,
    Nat.mod_eq_of_lt (show v - lo < hi + 1 - lo by omega)]
  omega

/-- Sampled queries are well-formed. Take a graph built by any calls, any number `k` of edges,
any number of tries for each edge's time, and any source of draws that keeps to its ranges.
Sampling panics exactly when `k` is not zero, the graph has nodes and `k` is past
`Graph.pickCapacity`, and with no other message. It gives no query exactly when `k` is zero,
the graph has no node, or `k` is within capacity and fewer than `k` live edges are reachable
from the drawn start node through declared nodes. A query it gives has the graph's kind and `k`
edges copied from distinct live edges reachable from the start, with times in `1..k` and no two
sharing a key, hence none shadowed; its nodes are the start and the declared ends of its edges
with their labels, each joined to the start by its edges (`Graph.SampledQuery`). A time is always
left for each edge, so a source whose repeated draws reach every value of their range ends the
run within some number of tries. -/
theorem sample_well_formed (directed : Bool) (ops : List GraphOp) (k : Nat) {σ : Type}
    (draw : Draw σ) (hdraw : draw.InRange) (s : σ) :
    let g := Graph.ofOps directed ops
    let drawn := g.nodes[(draw s 0 (g.nodes.length - 1)).1]?
    (∀ tries m, g.sample k draw s tries = .panicked m ↔
        m = "capacity overflow" ∧ k ≠ 0 ∧ g.nodes ≠ [] ∧ Graph.pickCapacity < k) ∧
      (∀ tries, g.sample k draw s tries = .none ↔ k = 0 ∨ g.nodes = [] ∨
        k ≤ Graph.pickCapacity ∧ ∃ start ∈ drawn, {i | g.ReachableEdge start.1 i}.ncard < k) ∧
      (∀ tries q, g.sample k draw s tries = .query q → ∃ start ∈ drawn, g.SampledQuery k start.1 q) ∧
      (draw.Covers → ∃ tries, g.sample k draw s tries ≠ .retrying) := by
  intro g drawn
  have h : Built g directed ops := built_ofOps directed ops
  by_cases hk : k = 0
  · subst hk
    simp only [Graph.sample_of_zero]
    exact ⟨by simp, by simp, by simp, fun _ => ⟨0, by simp⟩⟩
  by_cases hn : g.nodes = []
  · simp only [Graph.sample_of_nil hn]
    exact ⟨by simp [hn], by simp [hn], by simp, fun _ => ⟨0, by simp⟩⟩
  obtain ⟨start, hstart, hlabel⟩ : ∃ start, drawn = some start ∧ g.label? start.1 = some start.2 :=
    Graph.exists_drawn_start h hdraw hn s
  have hstart' : g.nodes[(draw s 0 (g.nodes.length - 1)).1]? = some start := hstart
  simp only [Graph.sample_eq hk hn, hstart', Option.elim_some]
  by_cases hcap : Graph.pickCapacity < k
  · -- room for `k` picked edges cannot be reserved
    simp only [if_pos hcap]
    exact ⟨fun _ m => by simp [hk, hn, hcap, eq_comm], fun _ => by simp [hk, hn, Nat.not_le.2 hcap],
      by simp, fun _ => ⟨0, by simp⟩⟩
  simp only [if_neg hcap]
  have hp0 : Graph.Sampled.Grown g start.1 ⟨[start], [], []⟩ := Graph.Sampled.grown_start hlabel
  have hnone_iff := Graph.drawEdges_eq_none_iff h hdraw k (draw s 0 (g.nodes.length - 1)).2 hp0
  cases hd : g.drawEdges draw k ⟨[start], [], []⟩ (draw s 0 (g.nodes.length - 1)).2 with
  | none =>
    -- the growth stalled: too few reachable edges
    have hfew := hnone_iff.1 hd
    simp only [List.length_nil, Nat.zero_add] at hfew
    exact ⟨fun _ m => by simp [hcap], fun _ => iff_of_true rfl
      (.inr (.inr ⟨Nat.not_lt.1 hcap, start, hstart, hfew⟩)), by simp, fun _ => ⟨0, by simp⟩⟩
  | some r =>
    obtain ⟨p, s'⟩ := r
    obtain ⟨hsampled, hfinish⟩ := Graph.placed_of_drawEdges h hdraw hk hlabel hd
    have hmany : ¬ {i | g.ReachableEdge start.1 i}.ncard < k := fun hfew => by
      have := hnone_iff.2 (by simpa using hfew)
      rw [hd] at this
      cases this
    simp only [Option.elim_some]
    refine ⟨fun tries m => ?_, fun tries => ?_, fun tries q hq => ?_, fun hcov => ?_⟩
    · cases g.placeAll draw k tries p s' <;> simp [hcap]
    · refine iff_of_false (by cases g.placeAll draw k tries p s' <;> simp) ?_
      rintro (hk' | hn' | ⟨-, start', hstart', hfew⟩)
      · exact hk hk'
      · exact hn hn'
      · rw [hstart, Option.mem_some_iff] at hstart'
        exact hmany (hstart' ▸ hfew)
    · cases hq' : g.placeAll draw k tries p s' with
      | none => simp [hq'] at hq
      | some q' =>
        simp only [hq', Option.elim_some, SampleEnd.query.injEq] at hq
        exact ⟨start, hstart, hq ▸ hsampled tries q' hq'⟩
    · obtain ⟨tries, q, hq⟩ := hfinish hcov
      exact ⟨tries, by simp [hq]⟩

theorem sample_well_formed_of_sweeping_draws :
    Draw.sweep.InRange ∧ Draw.sweep.Covers ∧
      let g := Graph.ofOps false [.addNode 0 1, .addNode 1 2, .addEdge 0 1 5 7, .addEdge 1 0 6 8]
      let drawn := g.nodes[(Draw.sweep 0 0 (g.nodes.length - 1)).1]?
      (∀ tries m, g.sample 2 Draw.sweep 0 tries = .panicked m ↔
          m = "capacity overflow" ∧ 2 ≠ 0 ∧ g.nodes ≠ [] ∧ Graph.pickCapacity < 2) ∧
        (∀ tries, g.sample 2 Draw.sweep 0 tries = .none ↔ 2 = 0 ∨ g.nodes = [] ∨
          2 ≤ Graph.pickCapacity ∧ ∃ start ∈ drawn, {i | g.ReachableEdge start.1 i}.ncard < 2) ∧
        (∀ tries q, g.sample 2 Draw.sweep 0 tries = .query q →
          ∃ start ∈ drawn, g.SampledQuery 2 start.1 q) ∧
        (Draw.sweep.Covers → ∃ tries, g.sample 2 Draw.sweep 0 tries ≠ .retrying) :=
  ⟨Draw.sweep_inRange, Draw.sweep_covers,
    sample_well_formed false [.addNode 0 1, .addNode 1 2, .addEdge 0 1 5 7, .addEdge 1 0 6 8] 2
      Draw.sweep Draw.sweep_inRange 0⟩

/-- Past `Graph.pickCapacity` the sampler panics, even when `k` is above every timestamp and a
graph of one node has no edge to give: the room for the picked edges is reserved before any
edge or time is drawn. -/
theorem sample_beyond_capacity_panics :
    (Graph.ofOps true [.addNode 0 1]).sample 9223372036854775808 Draw.sweep 0 0 =
      .panicked "capacity overflow" := by
  rw [Graph.sample_eq (by decide) (by decide)]
  rfl

end TemporalMotif
