import TemporalMotif.Match.Run
import TemporalMotif.Proofs.BoundTimes

/-! # The matched sets follow the arrays

Beside the arrays of its assignment, a search context keeps the target nodes and edges in use as
hash sets and the bound times as a multiset, and the candidates read from those whether a node or
an edge is taken and what the span is. `SearchContext.Tracks` says that they hold what the arrays
bind. Binding a candidate that fits keeps it (`Tracks.bind`): a candidate fits when the node
states it binds are node states of the assignment left unbound, two different ones for a start,
and the nodes and the edge it brings are not in use. Undoing the binding of the last edge state
keeps it too (`Tracks.unbind`), as what the arrays hold at the candidate's node states are the
nodes it brought. While the sets and the multiset follow the arrays, the context offers the
candidates its assignment offers (`Tracks.bindings_eq`), and binding a candidate and undoing it
at once gives back a context that holds what the old one held (`Tracks.unbind_bind`). -/

namespace TemporalMotif

/-- The target nodes a candidate binds. -/
def Candidate.nodes : Candidate → List Nat
  | .start _ root far => [root, far]
  | .extend _ node => [node]
  | .close _ => []

namespace Assignment

/-- Candidate `c` for edge state `oe` can be bound over `a` and undone again: the node states it
binds are node states of `a` left unbound, two different ones for a start, and the target nodes
and the edge it brings are not in use. -/
def Fits (a : Assignment) (oe : OrderedEdge) : Candidate → Prop
  | .start e root far => oe.source ≠ oe.dest ∧ a.nodes[oe.dest]? = some none ∧
      a.nodes[oe.source]? = some none ∧ a.usesNode root = false ∧ a.usesNode far = false ∧
      a.usesEdge e = false
  | .extend e node => a.nodes[oe.source]? = some none ∧ a.usesNode node = false ∧
      a.usesEdge e = false
  | .close e => a.usesEdge e = false

variable {a : Assignment} {oe : OrderedEdge} {c : Candidate}

theorem usesNode_iff (a : Assignment) (n : Nat) : a.usesNode n = true ↔ some n ∈ a.nodes := by
  simp [usesNode]

theorem usesEdge_iff (a : Assignment) (e : Nat) : a.usesEdge e = true ↔ e ∈ a.edges := by
  simp [usesEdge]

theorem edges_bind (t : Int) : (a.bind oe c t).edges = a.edges.push c.edge := rfl

theorem times_bind (t : Int) : (a.bind oe c t).times = a.times.push t := rfl

theorem size_nodes_bind (t : Int) : (a.bind oe c t).nodes.size = a.nodes.size := by
  cases c <;> simp [bind]

/-- A fitting candidate brings no node and no edge already in use. -/
theorem Fits.not_mem (h : a.Fits oe c) : (∀ n ∈ c.nodes, a.usesNode n = false) ∧
    a.usesEdge c.edge = false := by
  cases c with
  | start e root far =>
    obtain ⟨-, -, -, hr, hf, he⟩ := h
    exact ⟨by simp [Candidate.nodes, hr, hf], he⟩
  | extend e node => exact ⟨by simp [Candidate.nodes, h.2.1], h.2.2⟩
  | close e => exact ⟨by simp [Candidate.nodes], h⟩

/-- Setting an unbound node state adds exactly its node to the nodes in use. -/
theorem mem_setIfInBounds {nodes : Array (Option Nat)} {i : Nat} (hi : nodes[i]? = some none)
    (n v : Nat) : some v ∈ nodes.setIfInBounds i (some n) ↔ v = n ∨ some v ∈ nodes := by
  have hlt : i < nodes.size := (Array.getElem?_eq_some_iff.1 hi).1
  simp only [Array.mem_iff_getElem?, Array.getElem?_setIfInBounds]
  constructor
  · rintro ⟨j, hj⟩
    by_cases hij : i = j
    · rw [if_pos hij, if_pos hlt] at hj
      exact .inl (Option.some.inj (Option.some.inj hj)).symm
    · rw [if_neg hij] at hj
      exact .inr ⟨j, hj⟩
  · rintro (rfl | ⟨j, hj⟩)
    · exact ⟨i, by rw [if_pos rfl, if_pos hlt]⟩
    · refine ⟨j, ?_⟩
      by_cases hij : i = j
      · subst hij
        rw [hi] at hj
        cases hj
      · rw [if_neg hij]
        exact hj

/-- Binding a fitting candidate adds its nodes to the nodes in use. -/
theorem usesNode_bind (h : a.Fits oe c) (t : Int) (n : Nat) :
    (a.bind oe c t).usesNode n = true ↔ n ∈ c.nodes ∨ a.usesNode n = true := by
  rw [usesNode_iff, usesNode_iff]
  cases c with
  | start e root far =>
    obtain ⟨hne, hd, hs, -⟩ := h
    -- the source is set after the destination, which leaves it unbound
    have hs' : (a.nodes.setIfInBounds oe.dest (some root))[oe.source]? = some none := by
      rw [Array.getElem?_setIfInBounds, if_neg (Ne.symm hne)]
      exact hs
    show some n ∈ (a.nodes.setIfInBounds oe.dest (some root)).setIfInBounds oe.source (some far) ↔ _
    rw [mem_setIfInBounds hs', mem_setIfInBounds hd]
    simp only [Candidate.nodes, List.mem_cons, List.mem_nil_iff, or_false]
    tauto
  | extend e node =>
    show some n ∈ a.nodes.setIfInBounds oe.source (some node) ↔ _
    rw [mem_setIfInBounds h.1]
    simp [Candidate.nodes]
  | close e => simp [bind, Candidate.nodes]

theorem usesEdge_bind (t : Int) (e : Nat) :
    (a.bind oe c t).usesEdge e = true ↔ e = c.edge ∨ a.usesEdge e = true := by
  rw [usesEdge_iff, usesEdge_iff, edges_bind, Array.mem_push, or_comm]

/-- After a fitting candidate is bound, the node states it bound hold its nodes: the start's far
end at the source and its root at the destination, an extension's node at the source. -/
theorem nodeAt?_bind_start {e root far : Nat} (h : a.Fits oe (.start e root far)) (t : Int) :
    (a.bind oe (.start e root far) t).nodeAt? oe.source = some far ∧
      (a.bind oe (.start e root far) t).nodeAt? oe.dest = some root := by
  obtain ⟨hne, hd, hs, -⟩ := h
  have hdl : oe.dest < a.nodes.size := (Array.getElem?_eq_some_iff.1 hd).1
  have hsl : oe.source < a.nodes.size := (Array.getElem?_eq_some_iff.1 hs).1
  simp [bind, nodeAt?, hne, hdl, hsl]

theorem nodeAt?_bind_extend {e node : Nat} (h : a.Fits oe (.extend e node)) (t : Int) :
    (a.bind oe (.extend e node) t).nodeAt? oe.source = some node := by
  have hsl : oe.source < a.nodes.size := (Array.getElem?_eq_some_iff.1 h.1).1
  simp [bind, nodeAt?, hsl]

/-- Undoing a fitting candidate right after binding it gives the assignment back. -/
theorem unbind_bind (h : a.Fits oe c) (t : Int) : (a.bind oe c t).unbind oe c = a := by
  obtain ⟨nodes, edges, times⟩ := a
  cases c with
  | start e root far =>
    obtain ⟨-, hd, hs, -⟩ := h
    simp only [bind, unbind, Array.pop_push, mk.injEq, and_true]
    apply Array.ext_getElem?
    intro i
    simp only [Array.getElem?_setIfInBounds, Array.size_setIfInBounds]
    -- both node states end unbound, as they were before
    by_cases hdi : oe.dest = i
    · subst hdi
      rw [if_pos rfl, hd, if_pos (Array.getElem?_eq_some_iff.1 hd).1]
    · by_cases hsi : oe.source = i
      · subst hsi
        rw [if_neg hdi, if_pos rfl, hs, if_pos (Array.getElem?_eq_some_iff.1 hs).1]
      · rw [if_neg hdi, if_neg hsi, if_neg hsi, if_neg hdi]
  | extend e node =>
    simp only [bind, unbind, Array.pop_push, mk.injEq, and_true]
    apply Array.ext_getElem?
    intro i
    simp only [Array.getElem?_setIfInBounds, Array.size_setIfInBounds]
    by_cases hsi : oe.source = i
    · subst hsi
      rw [if_pos rfl, h.1, if_pos (Array.getElem?_eq_some_iff.1 h.1).1]
    · rw [if_neg hsi, if_neg hsi]
  | close e =>
    simp [bind, unbind]

end Assignment

/-- The multiset of the times in a list with one more at its end. -/
theorem Multiset.coe_append_singleton (l : List Int) (t : Int) :
    (↑(l ++ [t]) : Multiset Int) = t ::ₘ ↑l := by
  rw [Multiset.cons_coe, Multiset.coe_eq_coe]
  exact List.perm_append_singleton t l

namespace SearchContext

variable {ctx : SearchContext} {s : Nat} {oe : OrderedEdge} {c : Candidate} {t : Int}

/-- The matched sets and the multiset of times hold what the arrays bind: the target nodes of the
node states, the bound edges, and the bound times, each with its copies. -/
structure Tracks (ctx : SearchContext) : Prop where
  nodes : ∀ n, n ∈ ctx.matchedNodes ↔ ctx.bound.usesNode n = true
  edges : ∀ e, e ∈ ctx.matchedEdges ↔ ctx.bound.usesEdge e = true
  times : ctx.times.Holds ↑ctx.bound.times.toList

/-- Whether the sets follow the arrays depends on nothing else in the context. -/
theorem Tracks.congr {ctx' : SearchContext} (h : ctx.Tracks) (hb : ctx'.bound = ctx.bound)
    (hn : ctx'.matchedNodes = ctx.matchedNodes) (he : ctx'.matchedEdges = ctx.matchedEdges)
    (ht : ctx'.times = ctx.times) : ctx'.Tracks where
  nodes n := by rw [hn, hb]; exact h.nodes n
  edges e := by rw [he, hb]; exact h.edges e
  times := by rw [ht, hb]; exact h.times

theorem tracks_new (n m : Nat) : (new n m).Tracks where
  nodes v := by simp [new, Assignment.init, Assignment.usesNode]
  edges e := by simp [new, Assignment.init, Assignment.usesEdge]
  times := TimeMultiset.holds_empty

/-- While the sets follow the arrays, the candidates read of the context what they would read of
its assignment. -/
theorem Tracks.bindings_eq (h : ctx.Tracks) : ctx.bindings = ctx.bound.bindings := by
  have hn : ctx.matchedNodes.contains = ctx.bound.usesNode := funext fun n =>
    Bool.eq_iff_iff.2 (Std.HashSet.contains_iff_mem.trans (h.nodes n))
  have he : ctx.matchedEdges.contains = ctx.bound.usesEdge := funext fun e =>
    Bool.eq_iff_iff.2 (Std.HashSet.contains_iff_mem.trans (h.edges e))
  simp only [bindings, Assignment.bindings, hn, he, h.times.span_eq_span?]

theorem bound_bind : (ctx.bind s oe c t).bound = ctx.bound.bind oe c t := rfl

theorem mem_matchedNodes_bind (n : Nat) :
    n ∈ (ctx.bind s oe c t).matchedNodes ↔ n ∈ c.nodes ∨ n ∈ ctx.matchedNodes := by
  cases c <;> simp [bind, Candidate.nodes, Std.HashSet.mem_insert] <;> tauto

theorem mem_matchedEdges_bind (e : Nat) :
    e ∈ (ctx.bind s oe c t).matchedEdges ↔ e = c.edge ∨ e ∈ ctx.matchedEdges := by
  show e ∈ ctx.matchedEdges.insert c.edge ↔ _
  rw [Std.HashSet.mem_insert, beq_iff_eq, eq_comm]

theorem Tracks.bind (h : ctx.Tracks) (hfit : ctx.bound.Fits oe c) (s : Nat) (t : Int) :
    (ctx.bind s oe c t).Tracks where
  nodes n := by
    rw [mem_matchedNodes_bind, h.nodes, bound_bind, Assignment.usesNode_bind hfit]
  edges e := by
    rw [mem_matchedEdges_bind, h.edges, bound_bind, Assignment.usesEdge_bind]
  times := by
    show (ctx.times.insert t).Holds ↑(ctx.bound.times.push t).toList
    rw [Array.toList_push, Multiset.coe_append_singleton]
    exact h.times.insert t

/-- What undoing the binding of edge state `s` to `c` does to the context. -/
theorem unbind_of_active (oe : OrderedEdge) (hact : ctx.active.getD s none = some c) :
    (ctx.unbind s oe).bound = ctx.bound.unbind oe c ∧
      (ctx.unbind s oe).active = ctx.active.setIfInBounds s none ∧
      (ctx.unbind s oe).candidates = ctx.candidates ∧
      (ctx.unbind s oe).cursors = ctx.cursors := by
  simp only [unbind, hact, and_self]

/-- Undoing a binding leaves the candidates and the cursors, and the number of slots. -/
theorem unbind_slots (ctx : SearchContext) (s : Nat) (oe : OrderedEdge) :
    (ctx.unbind s oe).candidates = ctx.candidates ∧ (ctx.unbind s oe).cursors = ctx.cursors ∧
      (ctx.unbind s oe).active.size = ctx.active.size := by
  unfold unbind
  split
  · exact ⟨rfl, rfl, rfl⟩
  · exact ⟨rfl, rfl, Array.size_setIfInBounds⟩

section Unbind

variable {a : Assignment} (hact : ctx.active.getD s none = some c) (hb : ctx.bound = a.bind oe c t)
include hact hb

/-- Undoing a binding drops the nodes it brought from the matched nodes. -/
theorem mem_matchedNodes_unbind (hfit : a.Fits oe c) (n : Nat) :
    n ∈ (ctx.unbind s oe).matchedNodes ↔ n ∉ c.nodes ∧ n ∈ ctx.matchedNodes := by
  simp only [unbind, hact]
  cases c with
  | start e root far =>
    obtain ⟨hsrc, hdst⟩ := Assignment.nodeAt?_bind_start hfit t
    simp only [Assignment.release, hb, hsrc, hdst, Std.HashSet.mem_erase, beq_eq_false_iff_ne,
      Candidate.nodes, List.mem_cons, List.mem_nil_iff, or_false, not_or]
    constructor
    · rintro ⟨hr, hf, hn⟩
      exact ⟨⟨Ne.symm hr, Ne.symm hf⟩, hn⟩
    · rintro ⟨⟨hr, hf⟩, hn⟩
      exact ⟨Ne.symm hr, Ne.symm hf, hn⟩
  | extend e node =>
    simp only [Assignment.release, hb, Assignment.nodeAt?_bind_extend hfit t,
      Std.HashSet.mem_erase, beq_eq_false_iff_ne, Candidate.nodes, List.mem_singleton]
    constructor <;> rintro ⟨hne, hn⟩ <;> exact ⟨Ne.symm hne, hn⟩
  | close e => simp [Candidate.nodes]

/-- Undoing the binding of the last edge state drops its edge from the matched edges. -/
theorem mem_matchedEdges_unbind (hs : a.edges.size = s) (e : Nat) :
    e ∈ (ctx.unbind s oe).matchedEdges ↔ e ≠ c.edge ∧ e ∈ ctx.matchedEdges := by
  have hlast : ctx.bound.edges[s]? = some c.edge := by
    rw [hb, Assignment.edges_bind, Array.getElem?_push, if_pos hs.symm]
  simp only [unbind, hact, hlast, Std.HashSet.mem_erase, beq_eq_false_iff_ne]
  constructor <;> rintro ⟨hne, he⟩ <;> exact ⟨Ne.symm hne, he⟩

/-- Undoing the binding of the last edge state removes one copy of its time. -/
theorem times_unbind (ht : a.times.size = s) : (ctx.unbind s oe).times = (ctx.times.remove t).2 := by
  have htime : ctx.bound.timeAt s = t := by
    rw [hb, Assignment.timeAt, Assignment.times_bind, Array.getD_eq_getD_getElem?,
      Array.getElem?_push, if_pos ht.symm, Option.getD_some]
  simp only [unbind, hact, htime]

/-- Undoing the binding of the last edge state keeps the sets following the arrays, and the
arrays are those before the binding. -/
theorem Tracks.unbind (hfit : a.Fits oe c) (h : ctx.Tracks) (hs : a.edges.size = s)
    (ht : a.times.size = s) :
    (ctx.unbind s oe).Tracks ∧ (ctx.unbind s oe).bound = a := by
  have hbound : (ctx.unbind s oe).bound = a := by
    rw [(unbind_of_active oe hact).1, hb, Assignment.unbind_bind hfit]
  obtain ⟨hnodes, hedge⟩ := hfit.not_mem
  refine ⟨⟨fun n => ?_, fun e => ?_, ?_⟩, hbound⟩
  · rw [mem_matchedNodes_unbind hact hb hfit, h.nodes, hbound, hb,
      Assignment.usesNode_bind hfit]
    -- the nodes the binding brought were not in use before it
    by_cases hn : n ∈ c.nodes
    · simp [hn, hnodes n hn]
    · simp [hn]
  · rw [mem_matchedEdges_unbind hact hb hs, h.edges, hbound, hb, Assignment.usesEdge_bind]
    by_cases he : e = c.edge
    · subst he
      simp [hedge]
    · simp [he]
  · rw [times_unbind hact hb ht, hbound]
    have hM := h.times.remove t
    rwa [hb, Assignment.times_bind, Array.toList_push, Multiset.coe_append_singleton,
      Multiset.erase_cons_head] at hM

end Unbind

/-- Two contexts that hold the same: the same arrays, the same nodes and edges matched and the
same copies of each time, whatever the layout of their hash sets and ordered map. -/
structure Same (ctx ctx' : SearchContext) : Prop where
  bound : ctx.bound = ctx'.bound
  matchedNodes : ctx.matchedNodes.Equiv ctx'.matchedNodes
  matchedEdges : ctx.matchedEdges.Equiv ctx'.matchedEdges
  times : ctx.times.counts.Equiv ctx'.times.counts
  len : ctx.times.len = ctx'.times.len
  active : ctx.active = ctx'.active
  candidates : ctx.candidates = ctx'.candidates
  cursors : ctx.cursors = ctx'.cursors

/-- Two contexts whose sets follow the same arrays hold the same sets and multiset. -/
theorem Tracks.same {ctx' : SearchContext} (h : ctx.Tracks) (h' : ctx'.Tracks)
    (hb : ctx.bound = ctx'.bound) (ha : ctx.active = ctx'.active)
    (hc : ctx.candidates = ctx'.candidates) (hu : ctx.cursors = ctx'.cursors) : ctx.Same ctx' where
  bound := hb
  matchedNodes := Std.HashSet.equiv_iff_forall_mem_iff.2 fun n => by rw [h.nodes, h'.nodes, hb]
  matchedEdges := Std.HashSet.equiv_iff_forall_mem_iff.2 fun e => by rw [h.edges, h'.edges, hb]
  times := Std.TreeMap.Equiv.of_forall_constGet?_eq fun k => by rw [h.times.get?, h'.times.get?, hb]
  len := by rw [h.times.len, h'.times.len, hb]
  active := ha
  candidates := hc
  cursors := hu

/-- Binding a fitting candidate to the next edge state and undoing it at once gives back a
context that holds what the old one held. -/
theorem Tracks.unbind_bind (h : ctx.Tracks) (hs : s < ctx.active.size)
    (hfree : ctx.active.getD s none = none) (hfit : ctx.bound.Fits oe c)
    (hedges : ctx.bound.edges.size = s) (htimes : ctx.bound.times.size = s) (t : Int) :
    ((ctx.bind s oe c t).unbind s oe).Same ctx := by
  have hact : (ctx.bind s oe c t).active.getD s none = some c := by
    show (ctx.active.setIfInBounds s (some c)).getD s none = some c
    rw [Array.getD_eq_getD_getElem?, Array.getElem?_setIfInBounds, if_pos rfl, if_pos hs]
    rfl
  obtain ⟨htr, hbound⟩ := Tracks.unbind hact bound_bind hfit (h.bind hfit s t) hedges htimes
  obtain ⟨-, hactive, hcand, hcur⟩ := unbind_of_active oe hact
  refine htr.same h hbound ?_ hcand hcur
  rw [hactive]
  show (ctx.active.setIfInBounds s (some c)).setIfInBounds s none = ctx.active
  apply Array.ext_getElem?
  intro i
  simp only [Array.getElem?_setIfInBounds, Array.size_setIfInBounds]
  by_cases hi : s = i
  · subst hi
    have hfree' : ctx.active[s]? = some none := by
      simpa [Array.getD_eq_getD_getElem?, Array.getElem?_eq_getElem hs] using hfree
    rw [if_pos rfl, if_pos hs, hfree']
  · rw [if_neg hi, if_neg hi]

end SearchContext

end TemporalMotif
