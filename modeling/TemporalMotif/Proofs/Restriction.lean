import Mathlib.Data.List.GetD
import Mathlib.Data.Set.Card
import TemporalMotif.Proofs.Embedding

/-!
# Pruning a target

A pruned target keeps the nodes of some labels, and the edges of some labels whose two ends it
keeps. It is pruned cleanly when no dropped edge has the key of an earlier kept one: dropping
such an edge would revive the edge it shadows. Edge `i` of the pruned target is edge `K[i]` of the
whole one, where `K` lists the positions of the kept edges, and a clean pruning keeps liveness
(`isLive_filter_iff`). Main statement: the occurrences of a query whose labels are all kept are
the same in both targets up to that renumbering of edges (`Pruned.occurrences_eq_image`), so
there are as many of them (`Pruned.ncard_occurrences`).
-/

namespace TemporalMotif

section Filter

variable {α : Type} {l : List α} {c : α → Bool}

theorem lt_length_of_mem_findIdxs {j : Nat} (hj : j ∈ l.findIdxs c) : j < l.length :=
  (List.mem_findIdxs_iff_exists_getElem_pos.1 hj).1

theorem mem_findIdxs_of_getElem? {j : Nat} {a : α} (ha : l[j]? = some a) (hc : c a = true) :
    j ∈ l.findIdxs c := by
  obtain ⟨hj, rfl⟩ := List.getElem?_eq_some_iff.1 ha
  exact List.mem_findIdxs_iff_exists_getElem_pos.2 ⟨hj, hc⟩

theorem length_findIdxs_eq : (l.findIdxs c).length = (l.filter c).length := by
  rw [List.length_findIdxs, List.countP_eq_length_filter]

theorem getElem?_filter_eq {i : Nat} (hi : i < (l.findIdxs c).length) :
    (l.filter c)[i]? = l[(l.findIdxs c)[i]]? := by
  have hlen : i < (l.filter c).length := length_findIdxs_eq ▸ hi
  rw [List.getElem?_eq_getElem hlen, List.getElem_filter_eq_getElem_getElem_findIdxs,
    List.getElem?_eq_getElem (lt_length_of_mem_findIdxs (List.getElem_mem hi))]

theorem getElem_findIdxs_lt_iff {a b : Nat} (ha : a < (l.findIdxs c).length)
    (hb : b < (l.findIdxs c).length) : (l.findIdxs c)[a] < (l.findIdxs c)[b] ↔ a < b := by
  have hsorted := List.pairwise_iff_getElem.1
    (List.pairwise_findIdxs : (l.findIdxs c).Pairwise (· < ·))
  constructor
  · intro h
    by_contra hab
    rcases Nat.lt_or_eq_of_le (Nat.le_of_not_lt hab) with hba | rfl
    · exact absurd (hsorted b a hb ha hba) (Nat.lt_asymm h)
    · exact Nat.lt_irrefl _ h
  · exact hsorted a b ha hb

end Filter

section Live

variable {l : List Edge} {c : Edge → Bool} {d : Bool}

/-- Where no dropped edge has the key of an earlier kept one, an edge of the filtered list is live
exactly when it is live in the whole list. -/
theorem isLive_filter_iff (hpw : l.Pairwise fun e f => f.SameKey d e → c e = true → c f = true)
    {i : Nat} (hi : i < (l.findIdxs c).length) :
    IsLive d (l.filter c) i ↔ IsLive d l (l.findIdxs c)[i] := by
  constructor
  · rintro ⟨e, he, hlater⟩
    rw [getElem?_filter_eq hi] at he
    refine ⟨e, he, fun j hj f hf hkey => ?_⟩
    -- a later edge with the key of a kept edge is kept, so it comes later in the filtered list
    have hcf : c f = true := by
      obtain ⟨_, rfl⟩ := List.getElem?_eq_some_iff.1 he
      obtain ⟨hjl, rfl⟩ := List.getElem?_eq_some_iff.1 hf
      exact List.pairwise_iff_getElem.1 hpw _ j _ hjl hj hkey (List.getElem_getElem_findIdxs hi)
    obtain ⟨i', hi', hji'⟩ := List.getElem_of_mem (mem_findIdxs_of_getElem? hf hcf)
    have hii' : i < i' := (getElem_findIdxs_lt_iff hi hi').1 (hji' ▸ hj)
    refine hlater i' hii' f ?_ hkey
    rw [getElem?_filter_eq hi', hji', hf]
  · rintro ⟨e, he, hlater⟩
    refine ⟨e, by rw [getElem?_filter_eq hi, he], fun i' hii' f hf => ?_⟩
    have hi' : i' < (l.findIdxs c).length := by
      rw [length_findIdxs_eq]
      exact (List.getElem?_eq_some_iff.1 hf).1
    rw [getElem?_filter_eq hi'] at hf
    exact hlater _ ((getElem_findIdxs_lt_iff hi hi').2 hii') f hf

end Live

namespace Embedding

/-- The embedding with each edge image `j` replaced by `K[j]`. -/
def reindex (m : Embedding) (K : List Nat) : Embedding :=
  ⟨m.nodes, m.edges.map fun p => (p.1, K.getD p.2 0)⟩

/-- The embedding with each edge image replaced by its position in `K`. -/
def unindex (m : Embedding) (K : List Nat) : Embedding :=
  ⟨m.nodes, m.edges.map fun p => (p.1, K.idxOf p.2)⟩

variable {m : Embedding} {K : List Nat}

@[simp] theorem reindex_nodes : (m.reindex K).nodes = m.nodes := rfl

@[simp] theorem reindex_edges :
    (m.reindex K).edges = m.edges.map fun p => (p.1, K.getD p.2 0) := rfl

theorem reindex_unindex (h : ∀ p ∈ m.edges, p.2 ∈ K) : (m.unindex K).reindex K = m := by
  obtain ⟨nodes, edges⟩ := m
  simp only [unindex, reindex, List.map_map, Embedding.mk.injEq, true_and]
  conv_rhs => rw [← List.map_id edges]
  refine List.map_congr_left fun p hp => ?_
  show (p.1, K.getD (K.idxOf p.2) 0) = p
  rw [List.getD_eq_getElem _ _ (List.idxOf_lt_length_of_mem (h p hp)), List.getElem_idxOf]

theorem unindex_reindex (hK : K.Nodup) (h : ∀ p ∈ m.edges, p.2 < K.length) :
    (m.reindex K).unindex K = m := by
  obtain ⟨nodes, edges⟩ := m
  simp only [unindex, reindex, List.map_map, Embedding.mk.injEq, true_and]
  conv_rhs => rw [← List.map_id edges]
  refine List.map_congr_left fun p hp => ?_
  show (p.1, K.idxOf (K.getD p.2 0)) = p
  rw [List.getD_eq_getElem _ _ (h p hp), hK.idxOf_getElem]

theorem nodup_reindex_iff (hK : K.Nodup) (h : ∀ p ∈ m.edges, p.2 < K.length) :
    ((m.reindex K).edges.map Prod.snd).Nodup ↔ (m.edges.map Prod.snd).Nodup := by
  have hmap : (m.reindex K).edges.map Prod.snd = (m.edges.map Prod.snd).map (K.getD · 0) := by
    simp [reindex, Function.comp_def]
  rw [hmap]
  refine ⟨List.Nodup.of_map _, List.Nodup.map_on fun a ha b hb hab => ?_⟩
  obtain ⟨p, hp, rfl⟩ := List.mem_map.1 ha
  obtain ⟨p', hp', rfl⟩ := List.mem_map.1 hb
  rw [List.getD_eq_getElem _ _ (h p hp), List.getD_eq_getElem _ _ (h p' hp')] at hab
  exact (hK.getElem_inj_iff).1 hab

end Embedding

namespace Graph

theorem containsNode_iff_label (g : Graph) (x : Nat) :
    g.containsNode x = true ↔ (g.label? x).isSome := by
  rw [containsNode_iff, label?, List.lookup_isSome_iff, List.mem_map]
  simp only [beq_iff_eq]
  constructor
  · rintro ⟨p, hp, h⟩
    exact ⟨p, hp, h.symm⟩
  · rintro ⟨p, hp, h⟩
    exact ⟨p, hp, h.symm⟩

theorem exists_label_of_mem {g : Graph} {x : Nat} (hx : x ∈ g.nodes.map Prod.fst) :
    ∃ l, g.label? x = some l :=
  Option.isSome_iff_exists.1 ((g.containsNode_iff_label x).1 ((g.containsNode_iff x).2 hx))

/-- Whether `t'` keeps edge `e` when it keeps the edge labels `keepE`: its label is kept and both
its ends are nodes of `t'`. -/
def keepsEdge (t' : Graph) (keepE : Nat → Bool) (e : Edge) : Bool :=
  keepE e.label && t'.containsNode e.source && t'.containsNode e.dest

/-- The positions in `t` of the edges that `t'` keeps, in order. -/
def keptEdges (t' t : Graph) (keepE : Nat → Bool) : List Nat :=
  t.edges.toList.findIdxs (t'.keepsEdge keepE)

/-- An edge with the key of a kept edge has its ends, so it is kept when its label is. -/
theorem keepsEdge_of_sameKey {t' : Graph} {keepE : Nat → Bool} {d : Bool} {e f : Edge}
    (hkey : f.SameKey d e) (hl : keepE e.label = true → keepE f.label = true)
    (he : t'.keepsEdge keepE e = true) : t'.keepsEdge keepE f = true := by
  simp only [keepsEdge, Bool.and_eq_true] at he ⊢
  obtain ⟨⟨hle, hs⟩, hd⟩ := he
  obtain ⟨-, ⟨hfs, hfd⟩ | ⟨-, hfs, hfd⟩⟩ := hkey
  · rw [hfs, hfd]
    exact ⟨⟨hl hle, hs⟩, hd⟩
  · rw [hfs, hfd]
    exact ⟨⟨hl hle, hd⟩, hs⟩

/-- `t'` is `t` with the nodes whose labels `keepN` keeps and the edges between them whose labels
`keepE` keeps, where no dropped edge has the key of an earlier kept one. -/
structure Pruned (t' t : Graph) (keepN keepE : Nat → Bool) : Prop where
  directed_eq : t'.directed = t.directed
  label_iff : ∀ x l, t'.label? x = some l ↔ t.label? x = some l ∧ keepN l = true
  edges_eq : t'.edges.toList = t.edges.toList.filter (t'.keepsEdge keepE)
  unshadowed : t.edges.toList.Pairwise fun e f =>
    f.SameKey t.directed e → keepE e.label = true → keepE f.label = true

end Graph

namespace Graph.Pruned

variable {t' t : Graph} {keepN keepE : Nat → Bool}

theorem length_keptEdges (hp : t'.Pruned t keepN keepE) :
    (t'.keptEdges t keepE).length = t'.edges.size := by
  rw [keptEdges, length_findIdxs_eq, ← hp.edges_eq, Array.length_toList]

theorem getElem?_edges (hp : t'.Pruned t keepN keepE) {i : Nat}
    (hi : i < (t'.keptEdges t keepE).length) :
    t'.edges[i]? = t.edges[(t'.keptEdges t keepE).getD i 0]? := by
  rw [← Array.getElem?_toList, ← Array.getElem?_toList, hp.edges_eq, List.getD_eq_getElem _ _ hi]
  exact getElem?_filter_eq hi

theorem timeOf_eq (hp : t'.Pruned t keepN keepE) {i : Nat}
    (hi : i < (t'.keptEdges t keepE).length) :
    t'.timeOf i = t.timeOf ((t'.keptEdges t keepE).getD i 0) := by
  rw [timeOf, timeOf, hp.getElem?_edges hi]

theorem isLiveEdge_iff (hp : t'.Pruned t keepN keepE) {i : Nat}
    (hi : i < (t'.keptEdges t keepE).length) :
    t'.IsLiveEdge i ↔ t.IsLiveEdge ((t'.keptEdges t keepE).getD i 0) := by
  have hpw : t.edges.toList.Pairwise fun e f =>
      f.SameKey t.directed e → t'.keepsEdge keepE e = true → t'.keepsEdge keepE f = true :=
    hp.unshadowed.imp fun hl hkey => keepsEdge_of_sameKey hkey (hl hkey)
  rw [IsLiveEdge, IsLiveEdge, hp.edges_eq, hp.directed_eq, List.getD_eq_getElem _ _ hi]
  exact isLive_filter_iff hpw hi

variable {q : Graph} {span : MaxSpan} {m : Embedding}

theorem label_eq_iff (hp : t'.Pruned t keepN keepE)
    (hqn : ∀ x l, q.label? x = some l → keepN l = true) {x y l : Nat} (hy : q.label? y = some l) :
    t'.label? x = q.label? y ↔ t.label? x = q.label? y := by
  rw [hy, hp.label_iff, and_iff_left (hqn y l hy)]

theorem lt_of_isOccurrence (hp : t'.Pruned t keepN keepE) (hocc : IsOccurrence q t' span m) :
    ∀ p ∈ m.edges, p.2 < (t'.keptEdges t keepE).length := by
  intro p hp'
  obtain ⟨e, he, -⟩ := hocc.edge_live p hp'
  rw [hp.length_keptEdges, ← Array.length_toList]
  exact (List.getElem?_eq_some_iff.1 he).1

/-- An embedding into the pruned target is an occurrence exactly when its renumbering into the
whole target is one. -/
theorem isOccurrence_reindex_iff (hp : t'.Pruned t keepN keepE)
    (hqn : ∀ x l, q.label? x = some l → keepN l = true)
    (hm : ∀ p ∈ m.edges, p.2 < (t'.keptEdges t keepE).length) :
    IsOccurrence q t' span m ↔ IsOccurrence q t span (m.reindex (t'.keptEdges t keepE)) := by
  have hK : (t'.keptEdges t keepE).Nodup := List.nodup_findIdxs
  have hnode : ∀ p ∈ m.nodes, m.nodes.map Prod.fst = q.nodes.map Prod.fst →
      (t'.label? p.2 = q.label? p.1 ↔ t.label? p.2 = q.label? p.1) := by
    intro p hp' hkeys
    obtain ⟨l, hl⟩ := exists_label_of_mem (hkeys ▸ List.mem_map_of_mem hp')
    exact hp.label_eq_iff hqn hl
  have hkeys : (m.reindex (t'.keptEdges t keepE)).edges.map Prod.fst = m.edges.map Prod.fst := by
    simp [Embedding.reindex, Function.comp_def]
  -- node images stay as they are; the edge facts move along `K` one edge at a time
  constructor
  · rintro ⟨h1, h2, h3, h4, h5, h6, h7, h8, h9⟩
    refine ⟨h1, h2, fun p hp' => (hnode p hp' h1).1 (h3 p hp'), hkeys.trans h4,
      (Embedding.nodup_reindex_iff hK hm).2 h5, ?_, ?_, ?_, ?_⟩ <;>
      simp only [Embedding.reindex_edges, List.forall_mem_map]
    · exact fun p hp' => (hp.isLiveEdge_iff (hm p hp')).1 (h6 p hp')
    · intro p hp' qe hqe te hte
      rw [← hp.getElem?_edges (hm p hp')] at hte
      rw [← hp.directed_eq]
      exact h7 p hp' qe hqe te hte
    · intro p hp' p' hp''
      rw [← hp.timeOf_eq (hm p hp'), ← hp.timeOf_eq (hm p' hp'')]
      exact h8 p hp' p' hp''
    · intro v hv p hp' p' hp''
      rw [← hp.timeOf_eq (hm p hp'), ← hp.timeOf_eq (hm p' hp'')]
      exact h9 v hv p hp' p' hp''
  · rintro ⟨h1, h2, h3, h4, h5, h6, h7, h8, h9⟩
    simp only [Embedding.reindex_edges, List.forall_mem_map] at h6 h7 h8 h9
    refine ⟨h1, h2, fun p hp' => (hnode p hp' h1).2 (h3 p hp'), hkeys.symm.trans h4,
      (Embedding.nodup_reindex_iff hK hm).1 h5,
      fun p hp' => (hp.isLiveEdge_iff (hm p hp')).2 (h6 p hp'), fun p hp' qe hqe te hte => ?_,
      fun p hp' p' hp'' => ?_, fun v hv p hp' p' hp'' => ?_⟩
    · rw [hp.getElem?_edges (hm p hp')] at hte
      rw [hp.directed_eq]
      exact h7 p hp' qe hqe te hte
    · rw [hp.timeOf_eq (hm p hp'), hp.timeOf_eq (hm p' hp'')]
      exact h8 p hp' p' hp''
    · rw [hp.timeOf_eq (hm p hp'), hp.timeOf_eq (hm p' hp'')]
      exact h9 v hv p hp' p' hp''

theorem containsNode_image (hp : t'.Pruned t keepN keepE)
    (hqn : ∀ x l, q.label? x = some l → keepN l = true) (hids : (q.nodes.map Prod.fst).Nodup)
    (hocc : IsOccurrence q t span m) {y : Nat} (hy : y ∈ q.nodes.map Prod.fst) :
    t'.containsNode (m.node y) = true := by
  obtain ⟨l, hl⟩ := exists_label_of_mem hy
  have ht : t.label? (m.node y) = some l := (hocc.node_label _ (hocc.mem_nodes hids hy)).trans hl
  rw [containsNode_iff_label, (hp.label_iff _ l).2 ⟨ht, hqn y l hl⟩, Option.isSome_some]

/-- Every edge that an occurrence in the whole target uses is kept: it has the label of a query
edge, and its ends are images of query nodes. -/
theorem mem_keptEdges (hp : t'.Pruned t keepN keepE)
    (hqn : ∀ x l, q.label? x = some l → keepN l = true)
    (hqe : ∀ e ∈ q.edges.toList, keepE e.label = true) (hids : (q.nodes.map Prod.fst).Nodup)
    (hends : ∀ e ∈ q.edges.toList, q.containsNode e.source = true ∧ q.containsNode e.dest = true)
    (hocc : IsOccurrence q t span m) : ∀ p ∈ m.edges, p.2 ∈ t'.keptEdges t keepE := by
  intro p hp'
  have hlive : q.IsLiveEdge p.1 := mem_liveEdges.1 (hocc.edge_keys ▸ List.mem_map_of_mem hp')
  obtain ⟨qe, hqe', -⟩ := id hlive
  obtain ⟨te, hte, -⟩ := hocc.edge_live p hp'
  obtain ⟨hlabel, hmaps⟩ := hocc.edge_image p hp' qe (by rwa [← Array.getElem?_toList]) te
    (by rwa [← Array.getElem?_toList])
  have hkeep : keepE te.label = true := hlabel ▸ hqe qe (List.mem_of_getElem? hqe')
  obtain ⟨hs, hd⟩ := hends qe (List.mem_of_getElem? hqe')
  have hs' := hp.containsNode_image hqn hids hocc ((containsNode_iff _ _).1 hs)
  have hd' := hp.containsNode_image hqn hids hocc ((containsNode_iff _ _).1 hd)
  refine mem_findIdxs_of_getElem? hte ?_
  simp only [keepsEdge, Bool.and_eq_true]
  rcases hmaps with ⟨h1, h2⟩ | ⟨-, h1, h2⟩
  · exact ⟨⟨hkeep, h1 ▸ hs'⟩, h2 ▸ hd'⟩
  · exact ⟨⟨hkeep, h1 ▸ hd'⟩, h2 ▸ hs'⟩

/-- The occurrences in the whole target are those in the pruned one, renumbered. -/
theorem occurrences_eq_image (hp : t'.Pruned t keepN keepE)
    (hqn : ∀ x l, q.label? x = some l → keepN l = true)
    (hqe : ∀ e ∈ q.edges.toList, keepE e.label = true) (hids : (q.nodes.map Prod.fst).Nodup)
    (hends : ∀ e ∈ q.edges.toList, q.containsNode e.source = true ∧ q.containsNode e.dest = true) :
    {m | IsOccurrence q t span m} =
      (fun m => m.reindex (t'.keptEdges t keepE)) '' {m | IsOccurrence q t' span m} := by
  ext m
  constructor
  · intro hocc
    have hkept := hp.mem_keptEdges hqn hqe hids hends hocc
    have hlt : ∀ p ∈ (m.unindex (t'.keptEdges t keepE)).edges,
        p.2 < (t'.keptEdges t keepE).length := by
      simp only [Embedding.unindex, List.forall_mem_map]
      exact fun p hp' => List.idxOf_lt_length_of_mem (hkept p hp')
    refine ⟨_, ?_, Embedding.reindex_unindex hkept⟩
    exact (hp.isOccurrence_reindex_iff hqn hlt).2 (by rwa [Embedding.reindex_unindex hkept])
  · rintro ⟨m', hocc, rfl⟩
    exact (hp.isOccurrence_reindex_iff hqn (hp.lt_of_isOccurrence hocc)).1 hocc

/-- A query whose labels the pruning keeps has as many occurrences in the pruned target as in
the whole one. -/
theorem ncard_occurrences (hp : t'.Pruned t keepN keepE)
    (hqn : ∀ x l, q.label? x = some l → keepN l = true)
    (hqe : ∀ e ∈ q.edges.toList, keepE e.label = true) (hids : (q.nodes.map Prod.fst).Nodup)
    (hends : ∀ e ∈ q.edges.toList, q.containsNode e.source = true ∧ q.containsNode e.dest = true) :
    {m | IsOccurrence q t span m}.ncard = {m | IsOccurrence q t' span m}.ncard := by
  rw [hp.occurrences_eq_image hqn hqe hids hends]
  refine Set.InjOn.ncard_image fun m₁ h₁ m₂ h₂ heq => ?_
  have hK : (t'.keptEdges t keepE).Nodup := List.nodup_findIdxs
  rw [← Embedding.unindex_reindex hK (hp.lt_of_isOccurrence h₁), heq,
    Embedding.unindex_reindex hK (hp.lt_of_isOccurrence h₂)]

end Graph.Pruned

end TemporalMotif
