import Mathlib.Data.Set.Card
import TemporalMotif.Graph.Sample
import TemporalMotif.Proofs.Matching
import TemporalMotif.Proofs.Restriction

/-!
# The edges a sampled query grows along

A sample grows from a start node. Each turn lists the edges not taken yet at the nodes reached so
far (`Graph.incident`), takes one, and reaches those of its ends that are declared nodes. In a
built graph the listing holds, each once, exactly the live edges with an end among the reached
nodes (`Built.mem_incident`, `Built.mem_incident_of_live`, `nodup_incident`).

What the growth keeps is `Sampled.Grown`: the taken edges are live, distinct and reachable from the
start, and the reached nodes are the start and the declared ends of the taken edges, each joined
to the start by taken edges. When nothing is left to list, the reached nodes are closed under
declared ends of live edges, so they hold every node the start reaches and the taken edges are
all the reachable ones (`Sampled.Grown.reachableEdge_iff_of_stalled`). So, whatever is drawn, the
growth fails exactly when fewer edges are reachable than it is asked for
(`drawEdges_eq_none_iff`).
-/

namespace TemporalMotif

/-- Every draw lies in the range it is asked for. -/
def Draw.InRange {σ : Type} (draw : Draw σ) : Prop :=
  ∀ s lo hi, lo ≤ hi → lo ≤ (draw s lo hi).1 ∧ (draw s lo hi).1 ≤ hi

/-- The ends of the edge that `x` links to `nbr` in direction `d`, in the order it was added:
an incoming link comes from its neighbour. -/
def Direction.orient (d : Direction) (x nbr : Nat) : Nat × Nat :=
  if d = .incoming then (nbr, x) else (x, nbr)

namespace Graph

variable (g : Graph)

/-- The nodes reached from `start`: the start, and each declared end of a live edge at a reached
node. -/
inductive Reached (start : Nat) : Nat → Prop
  | start : Reached start start
  | edge {x y i : Nat} {e : Edge} : Reached start x → g.IsLiveEdge i → g.edges[i]? = some e →
      (e.source = x ∧ e.dest = y ∨ e.source = y ∧ e.dest = x) → g.containsNode y = true →
      Reached start y

/-- Edge `i` is reachable from `start`: it is live and one of its ends is reached. -/
def ReachableEdge (start i : Nat) : Prop :=
  g.IsLiveEdge i ∧ ∃ e, g.edges[i]? = some e ∧ (g.Reached start e.source ∨ g.Reached start e.dest)

/-- Edge `i` is live and runs from `a` to `b`, or from `b` to `a` when `g` is undirected. -/
def LiveJoin (i a b : Nat) : Prop :=
  g.IsLiveEdge i ∧ ∃ e, g.edges[i]? = some e ∧
    (e.source = a ∧ e.dest = b ∨ g.directed = false ∧ e.source = b ∧ e.dest = a)

/-- The links that the listing of incident edges visits, as `(owner, direction, neighbour, edge)`,
in the order it visits them. -/
def linksAt (nodes : List Nat) : List (Nat × Direction × Nat × Nat) :=
  nodes.flatMap fun x => Direction.all.flatMap fun d =>
    (g.indexOf x d).moments.flatMap fun m => m.links.map fun (nbr, e) => (x, d, nbr, e)

/-- One visited link: its edge is listed, oriented, unless it is taken or listed already. -/
def visitLink (taken : List Nat) (acc : List (Nat × Nat × Nat)) (o : Nat × Direction × Nat × Nat) :
    List (Nat × Nat × Nat) :=
  if taken.contains o.2.2.2 || acc.any (·.1 == o.2.2.2) then acc
  else acc ++ [(o.2.2.2, o.2.1.orient o.1 o.2.2.1)]

theorem incident_eq (nodes taken : List Nat) :
    g.incident nodes taken = (g.linksAt nodes).foldl (visitLink taken) [] := by
  simp only [incident, linksAt, List.foldl_flatMap, List.foldl_map]
  rfl

/-! ### Listing the visited links -/

section Visit

variable {taken : List Nat}

theorem mem_visitLink {acc : List (Nat × Nat × Nat)} {o : Nat × Direction × Nat × Nat}
    {c : Nat × Nat × Nat} (h : c ∈ visitLink taken acc o) :
    c ∈ acc ∨ c = (o.2.2.2, o.2.1.orient o.1 o.2.2.1) ∧ o.2.2.2 ∉ taken := by
  unfold visitLink at h
  split at h
  · exact .inl h
  · rename_i hnew
    rcases List.mem_append.1 h with h | h
    · exact .inl h
    · refine .inr ⟨List.mem_singleton.1 h, fun ht => hnew ?_⟩
      simp [ht]

theorem mem_visitLink_of_mem {acc : List (Nat × Nat × Nat)} (o : Nat × Direction × Nat × Nat)
    {c : Nat × Nat × Nat} (h : c ∈ acc) : c ∈ visitLink taken acc o := by
  unfold visitLink
  split
  · exact h
  · exact List.mem_append_left _ h

theorem mem_foldl_visitLink : ∀ (os : List (Nat × Direction × Nat × Nat))
    {acc : List (Nat × Nat × Nat)} {c : Nat × Nat × Nat}, c ∈ os.foldl (visitLink taken) acc →
    c ∈ acc ∨ ∃ o ∈ os, c = (o.2.2.2, o.2.1.orient o.1 o.2.2.1) ∧ o.2.2.2 ∉ taken
  | [], _, _, h => .inl h
  | o :: os, acc, c, h => by
    rcases mem_foldl_visitLink os h with h | ⟨o', ho', hc⟩
    · rcases mem_visitLink h with h | hc
      · exact .inl h
      · exact .inr ⟨o, List.mem_cons_self, hc⟩
    · exact .inr ⟨o', List.mem_cons_of_mem _ ho', hc⟩

theorem mem_foldl_visitLink_of_mem : ∀ (os : List (Nat × Direction × Nat × Nat))
    {acc : List (Nat × Nat × Nat)} {c : Nat × Nat × Nat}, c ∈ acc →
    c ∈ os.foldl (visitLink taken) acc
  | [], _, _, h => h
  | o :: os, _, _, h => mem_foldl_visitLink_of_mem os (mem_visitLink_of_mem o h)

theorem nodup_foldl_visitLink : ∀ (os : List (Nat × Direction × Nat × Nat))
    {acc : List (Nat × Nat × Nat)}, (acc.map (·.1)).Nodup →
    ((os.foldl (visitLink taken) acc).map (·.1)).Nodup
  | [], _, h => h
  | o :: os, acc, h => by
    refine nodup_foldl_visitLink os ?_
    unfold visitLink
    split
    · exact h
    · rename_i hnew
      -- the appended edge is listed nowhere yet
      have hfresh : o.2.2.2 ∉ acc.map (·.1) := by
        intro hm
        obtain ⟨c, hc, hce⟩ := List.mem_map.1 hm
        have hany : acc.any (·.1 == o.2.2.2) = true := List.any_eq_true.2 ⟨c, hc, beq_iff_eq.2 hce⟩
        simp [hany] at hnew
      rw [List.map_append, List.nodup_append]
      refine ⟨h, by simp, ?_⟩
      intro a ha b hb hab
      simp only [List.map_cons, List.map_nil, List.mem_singleton] at hb
      exact hfresh (hb ▸ hab ▸ ha)

/-- A visited link whose edge is not taken has its edge listed. -/
theorem key_mem_foldl_visitLink : ∀ (os : List (Nat × Direction × Nat × Nat))
    {acc : List (Nat × Nat × Nat)} {o : Nat × Direction × Nat × Nat}, o ∈ os → o.2.2.2 ∉ taken →
    o.2.2.2 ∈ (os.foldl (visitLink taken) acc).map (·.1)
  | [], _, _, ho, _ => absurd ho List.not_mem_nil
  | o' :: os, acc, o, ho, ht => by
    rcases List.mem_cons.1 ho with rfl | ho
    · -- the head link lists its edge now, or found it listed; later links keep it
      have hlisted : ∃ c ∈ visitLink taken acc o, c.1 = o.2.2.2 := by
        unfold visitLink
        split
        · rename_i hold
          simp only [Bool.or_eq_true, List.any_eq_true, beq_iff_eq] at hold
          rcases hold with hin | hin
          · exact absurd (by simpa using hin) ht
          · exact hin
        · exact ⟨_, List.mem_append_right _ (List.mem_singleton_self _), rfl⟩
      obtain ⟨c, hc, hce⟩ := hlisted
      exact List.mem_map.2 ⟨c, mem_foldl_visitLink_of_mem os hc, hce⟩
    · exact key_mem_foldl_visitLink os ho ht

end Visit

theorem nodup_incident (nodes taken : List Nat) : ((g.incident nodes taken).map (·.1)).Nodup := by
  rw [incident_eq]
  exact nodup_foldl_visitLink _ List.nodup_nil

/-! ### The listing in a built graph -/

theorem mem_linksAt_iff {nodes : List Nat} {x nbr i : Nat} {d : Direction} :
    (x, d, nbr, i) ∈ g.linksAt nodes ↔
      x ∈ nodes ∧ ∃ m ∈ (g.indexOf x d).moments, (nbr, i) ∈ m.links := by
  simp only [linksAt, List.mem_flatMap, List.mem_map, Prod.mk.injEq]
  constructor
  · rintro ⟨x, hx, d, -, m, hm, ⟨nbr, i⟩, hl, rfl, rfl, rfl, rfl⟩
    exact ⟨hx, m, hm, hl⟩
  · rintro ⟨hx, m, hm, hl⟩
    refine ⟨x, hx, d, ?_, m, hm, ⟨nbr, i⟩, hl, rfl, rfl, rfl, rfl⟩
    cases d <;> simp [Direction.all]

end Graph

namespace Direction

/-- A link in a direction the graph keeps joins the ends its orientation names, the right way
round when the graph is directed, and its owner is one of them. -/
theorem orient_joins {d : Direction} {directed : Bool} (hd : d.serves directed = true) {e : Edge}
    {x nbr : Nat} (hx : (x, nbr) ∈ e.links d) :
    (e.source = (d.orient x nbr).1 ∧ e.dest = (d.orient x nbr).2 ∨
        directed = false ∧ e.source = (d.orient x nbr).2 ∧ e.dest = (d.orient x nbr).1) ∧
      (x = (d.orient x nbr).1 ∨ x = (d.orient x nbr).2) := by
  cases d <;> cases directed <;>
    simp_all [serves, orient, Edge.mem_links_outgoing, Edge.mem_links_incoming,
      Edge.mem_links_reciprocal]

end Direction

namespace Built

variable {g : Graph} {directed : Bool} {ops : List GraphOp}

/-- A node's links in a direction the graph keeps are its live edges there. -/
theorem exists_moment_iff (h : Built g directed ops) {x nbr i : Nat} {d : Direction} :
    (∃ m ∈ (g.indexOf x d).moments, (nbr, i) ∈ m.links) ↔
      d.serves directed = true ∧ g.IsLiveEdge i ∧ ∃ e, g.edges[i]? = some e ∧ (x, nbr) ∈ e.links d := by
  constructor
  · rintro ⟨m, hm, hl⟩
    have hold : (g.indexOf x d).Holds ⟨m.time, nbr, i⟩ := ⟨m, hm, rfl, hl⟩
    obtain ⟨hd, hlive, e, he, -, hx⟩ := h.holds_iff.1 hold
    exact ⟨hd, hlive, e, he, hx⟩
  · rintro ⟨hd, hlive, e, he, hx⟩
    have hold : (g.indexOf x d).Holds ⟨e.time, nbr, i⟩ := h.holds_iff.2 ⟨hd, hlive, e, he, rfl, hx⟩
    obtain ⟨m, hm, -, hl⟩ := hold
    exact ⟨m, hm, hl⟩

/-- A listed edge is not taken, is live, joins the ends it is listed with and has one of them
among the nodes. -/
theorem mem_incident (h : Built g directed ops) {nodes taken : List Nat} {c : Nat × Nat × Nat}
    (hc : c ∈ g.incident nodes taken) :
    c.1 ∉ taken ∧ g.LiveJoin c.1 c.2.1 c.2.2 ∧ (c.2.1 ∈ nodes ∨ c.2.2 ∈ nodes) := by
  rw [Graph.incident_eq] at hc
  rcases Graph.mem_foldl_visitLink _ hc with hc | ⟨⟨x, d, nbr, i⟩, ho, rfl, ht⟩
  · exact absurd hc List.not_mem_nil
  obtain ⟨hx, hlink⟩ := g.mem_linksAt_iff.1 ho
  obtain ⟨hd, hlive, e, he, hxe⟩ := h.exists_moment_iff.1 hlink
  obtain ⟨hends, hown⟩ := Direction.orient_joins hd hxe
  refine ⟨ht, ⟨hlive, e, he, ?_⟩, ?_⟩
  · rw [h.directed_eq]
    exact hends
  · rcases hown with hown | hown
    · exact .inl (hown ▸ hx)
    · exact .inr (hown ▸ hx)

/-- A live edge with an end among the nodes is listed unless it is taken. -/
theorem mem_incident_of_live (h : Built g directed ops) {nodes taken : List Nat} {i : Nat}
    {e : Edge} (hlive : g.IsLiveEdge i) (he : g.edges[i]? = some e)
    (hend : e.source ∈ nodes ∨ e.dest ∈ nodes) (ht : i ∉ taken) :
    i ∈ (g.incident nodes taken).map (·.1) := by
  -- the end among the nodes links to the other end in some direction the graph keeps
  obtain ⟨x, y, hx, hxy⟩ : ∃ x y, x ∈ nodes ∧ (e.source = x ∧ e.dest = y ∨ e.source = y ∧ e.dest = x) := by
    rcases hend with hs | hd
    · exact ⟨e.source, e.dest, hs, .inl ⟨rfl, rfl⟩⟩
    · exact ⟨e.dest, e.source, hd, .inr ⟨rfl, rfl⟩⟩
  obtain ⟨d, hd, hxe⟩ := Edge.exists_dir_links e directed hxy
  have ho : (x, d, y, i) ∈ g.linksAt nodes :=
    g.mem_linksAt_iff.2 ⟨hx, h.exists_moment_iff.2 ⟨hd, hlive, e, he, hxe⟩⟩
  rw [Graph.incident_eq]
  exact Graph.key_mem_foldl_visitLink _ ho ht

end Built

/-! ### Reaching nodes -/

namespace Graph

variable {g : Graph}

theorem mem_reachNode_iff {nodes : List (Nat × Nat)} {x y : Nat} :
    y ∈ (g.reachNode nodes x).map (·.1) ↔
      y ∈ nodes.map (·.1) ∨ y = x ∧ g.containsNode x = true := by
  unfold reachNode
  cases hl : g.label? x with
  | none =>
    dsimp only
    have hx : g.containsNode x = false := by
      simpa [hl] using (g.containsNode_iff_label x).not
    simp [hx]
  | some l =>
    dsimp only
    have hx : g.containsNode x = true := (g.containsNode_iff_label x).2 (by simp [hl])
    by_cases hin : nodes.any (·.1 == x) = true
    · rw [if_pos hin]
      obtain ⟨c, hc, hcx⟩ := List.any_eq_true.1 hin
      have : x ∈ nodes.map (·.1) := List.mem_map.2 ⟨c, hc, beq_iff_eq.1 hcx⟩
      constructor
      · exact .inl
      · rintro (hy | ⟨rfl, -⟩)
        · exact hy
        · exact this
    · rw [if_neg hin]
      simp [hx]

theorem label_of_mem_reachNode {nodes : List (Nat × Nat)} {x y l : Nat}
    (h : (y, l) ∈ g.reachNode nodes x) : (y, l) ∈ nodes ∨ y = x ∧ g.label? x = some l := by
  unfold reachNode at h
  split at h
  · rename_i l' hl
    split at h
    · exact .inl h
    · rcases List.mem_append.1 h with h | h
      · exact .inl h
      · simp only [List.mem_singleton, Prod.mk.injEq] at h
        obtain ⟨rfl, rfl⟩ := h
        exact .inr ⟨rfl, hl⟩
  · exact .inl h

theorem nodup_reachNode {nodes : List (Nat × Nat)} (x : Nat) (h : (nodes.map (·.1)).Nodup) :
    ((g.reachNode nodes x).map (·.1)).Nodup := by
  unfold reachNode
  split
  · split
    · exact h
    · rename_i hnew
      rw [List.map_append, List.nodup_append]
      refine ⟨h, by simp, ?_⟩
      simp only [List.map_cons, List.map_nil, List.mem_singleton, ne_eq, forall_eq]
      rintro y hy rfl
      obtain ⟨c, hc, rfl⟩ := List.mem_map.1 hy
      exact hnew (List.any_eq_true.2 ⟨c, hc, beq_self_eq_true _⟩)
  · exact h

/-- A reached node reaches each declared end of a live edge that joins it. -/
theorem Reached.across {start x y i a b : Nat} (hx : g.Reached start x) (hj : g.LiveJoin i a b)
    (hxab : x = a ∨ x = b) (hyab : y = a ∨ y = b) (hy : g.containsNode y = true) :
    g.Reached start y := by
  obtain ⟨hlive, e, he, hends⟩ := hj
  have hjoin : e.source = a ∧ e.dest = b ∨ e.source = b ∧ e.dest = a := by
    rcases hends with hends | ⟨-, hends⟩
    · exact .inl hends
    · exact .inr hends
  rcases hxab with rfl | rfl <;> rcases hyab with rfl | rfl
  · exact hx
  · exact .edge hx hlive he hjoin hy
  · exact .edge hx hlive he hjoin.symm hy
  · exact hx

end Graph

/-! ### What the growth keeps -/

namespace Graph.Sampled

/-- Two nodes are the ends of one picked edge. -/
def Joins (picked : List (Nat × Nat × Nat)) (a b : Nat) : Prop :=
  ∃ c ∈ picked, c.1 = a ∧ c.2.1 = b ∨ c.1 = b ∧ c.2.1 = a

/-- The growth after it takes the listed edge `c = (edge, a, b)`. -/
def extend (g : Graph) (p : Sampled) (c : Nat × Nat × Nat) : Sampled :=
  ⟨g.reachNode (g.reachNode p.nodes c.2.1) c.2.2, c.1 :: p.taken, p.picked ++ [(c.2.1, c.2.2, c.1)]⟩

/-- What a growth from `start` keeps. The reached nodes are distinct, carry their labels in `g`,
and are the start and the declared ends of the picked edges, each joined to the start by picked
edges; the taken edges are the picked ones, latest first, distinct and live, each joining the
ends it was picked with and touching a node the start reaches. -/
structure Grown (g : Graph) (start : Nat) (p : Sampled) : Prop where
  nodup : (p.nodes.map (·.1)).Nodup
  label : ∀ x l, (x, l) ∈ p.nodes → g.label? x = some l
  mem_nodes : ∀ x, x ∈ p.nodes.map (·.1) ↔
    x = start ∨ g.containsNode x = true ∧ ∃ c ∈ p.picked, c.1 = x ∨ c.2.1 = x
  taken_eq : p.taken = (p.picked.map (·.2.2)).reverse
  taken_nodup : p.taken.Nodup
  picked_join : ∀ c ∈ p.picked, g.LiveJoin c.2.2 c.1 c.2.1
  picked_reached : ∀ c ∈ p.picked, g.Reached start c.1 ∨ g.Reached start c.2.1
  joined : ∀ x ∈ p.nodes.map (·.1), Relation.ReflTransGen (Joins p.picked) start x

variable {g : Graph} {start : Nat} {p : Sampled}

theorem grown_start {l : Nat} (hl : g.label? start = some l) :
    Grown g start ⟨[(start, l)], [], []⟩ where
  nodup := by simp
  label := by
    intro x l' h
    simp only [List.mem_singleton, Prod.mk.injEq] at h
    obtain ⟨rfl, rfl⟩ := h
    exact hl
  mem_nodes := by simp
  taken_eq := rfl
  taken_nodup := List.nodup_nil
  picked_join := by simp
  picked_reached := by simp
  joined := by
    intro x hx
    simp only [List.map_cons, List.map_nil, List.mem_singleton] at hx
    subst hx
    exact .refl

theorem Grown.reached (hp : Grown g start p) {x : Nat} (hx : x ∈ p.nodes.map (·.1)) :
    g.Reached start x := by
  rcases (hp.mem_nodes x).1 hx with rfl | ⟨hdecl, c, hc, hxc⟩
  · exact .start
  · rcases hp.picked_reached c hc with hr | hr
    · exact hr.across (hp.picked_join c hc) (.inl rfl) (hxc.imp Eq.symm Eq.symm) hdecl
    · exact hr.across (hp.picked_join c hc) (.inr rfl) (hxc.imp Eq.symm Eq.symm) hdecl

/-- A reached node carries its label in `g`; any other node, the start or an end of a picked edge
among them, is undeclared. -/
theorem Grown.lookup_eq (hp : Grown g start p) (x : Nat) :
    p.nodes.lookup x = if x = start ∨ ∃ c ∈ p.picked, c.1 = x ∨ c.2.1 = x then g.label? x else none := by
  by_cases hx : x ∈ p.nodes.map (·.1)
  · obtain ⟨⟨y, l⟩, hyl, rfl⟩ := List.mem_map.1 hx
    rw [lookup_of_mem hp.nodup hyl, if_pos (((hp.mem_nodes y).1 hx).imp id And.right),
      hp.label _ _ hyl]
  · have hnone : p.nodes.lookup x = none := List.lookup_eq_none_iff.2 fun q hq =>
      bne_iff_ne.2 fun hxq => hx (List.mem_map.2 ⟨q, hq, hxq.symm⟩)
    rw [hnone]
    split_ifs with hcond
    · -- not reached, yet the start or an end of a picked edge: so an undeclared end
      have hundecl : g.containsNode x = false := by
        by_contra hdecl
        refine hx ((hp.mem_nodes x).2 ?_)
        rcases hcond with hxs | hend
        · exact .inl hxs
        · exact .inr ⟨by simpa using hdecl, hend⟩
      rw [eq_comm, ← Option.not_isSome_iff_eq_none, ← g.containsNode_iff_label, hundecl]
      simp
    · rfl

theorem Grown.mem_taken_iff (hp : Grown g start p) {i : Nat} :
    i ∈ p.taken ↔ ∃ c ∈ p.picked, c.2.2 = i := by
  rw [hp.taken_eq, List.mem_reverse, List.mem_map]

theorem Grown.reachableEdge_of_mem (hp : Grown g start p) {i : Nat} (hi : i ∈ p.taken) :
    g.ReachableEdge start i := by
  obtain ⟨c, hc, rfl⟩ := hp.mem_taken_iff.1 hi
  obtain ⟨hlive, e, he, hends⟩ := hp.picked_join c hc
  refine ⟨hlive, e, he, ?_⟩
  -- the picked ends are the edge's ends, in one order or the other
  rcases hends with ⟨hs, hd⟩ | ⟨-, hs, hd⟩ <;> rw [hs, hd]
  · exact hp.picked_reached c hc
  · exact (hp.picked_reached c hc).symm

/-- The nodes after taking `c` are the old ones and the declared ends of `c`. -/
theorem mem_extend_nodes {c : Nat × Nat × Nat} {y : Nat} :
    y ∈ (p.extend g c).nodes.map (·.1) ↔
      y ∈ p.nodes.map (·.1) ∨ (y = c.2.1 ∨ y = c.2.2) ∧ g.containsNode y = true := by
  simp only [Sampled.extend, Graph.mem_reachNode_iff]
  constructor
  · rintro ((hy | ⟨rfl, hy⟩) | ⟨rfl, hy⟩)
    · exact .inl hy
    · exact .inr ⟨.inl rfl, hy⟩
    · exact .inr ⟨.inr rfl, hy⟩
  · rintro (hy | ⟨rfl | rfl, hy⟩)
    · exact .inl (.inl hy)
    · exact .inl (.inr ⟨rfl, hy⟩)
    · exact .inr ⟨rfl, hy⟩

theorem Joins.append {picked : List (Nat × Nat × Nat)} {a b : Nat} (extra : List (Nat × Nat × Nat))
    (h : Joins picked a b) : Joins (picked ++ extra) a b := by
  obtain ⟨c, hc, hab⟩ := h
  exact ⟨c, List.mem_append_left _ hc, hab⟩

theorem Joins.symm {picked : List (Nat × Nat × Nat)} {a b : Nat} (h : Joins picked a b) :
    Joins picked b a := by
  obtain ⟨c, hc, hab⟩ := h
  exact ⟨c, hc, hab.symm⟩

/-- Taking a listed edge keeps what the growth keeps. -/
theorem Grown.extend {directed : Bool} {ops : List GraphOp} (h : Built g directed ops)
    (hp : Grown g start p) {c : Nat × Nat × Nat}
    (hc : c ∈ g.incident (p.nodes.map (·.1)) p.taken) : Grown g start (p.extend g c) := by
  obtain ⟨hfree, hjoin, hown⟩ := h.mem_incident hc
  -- the node the edge was listed at is reached and joined to the start
  obtain ⟨x, hx, hxc⟩ : ∃ x ∈ p.nodes.map (·.1), x = c.2.1 ∨ x = c.2.2 := by
    rcases hown with hown | hown
    · exact ⟨_, hown, .inl rfl⟩
    · exact ⟨_, hown, .inr rfl⟩
  refine ⟨?_, ?_, ?_, ?_, ?_, ?_, ?_, ?_⟩
  · exact Graph.nodup_reachNode _ (Graph.nodup_reachNode _ hp.nodup)
  · intro y l hy
    rcases Graph.label_of_mem_reachNode hy with hy | ⟨rfl, hl⟩
    · rcases Graph.label_of_mem_reachNode hy with hy | ⟨rfl, hl⟩
      · exact hp.label y l hy
      · exact hl
    · exact hl
  · intro y
    rw [mem_extend_nodes, hp.mem_nodes]
    simp only [Sampled.extend, List.mem_append, List.mem_singleton]
    constructor
    · rintro ((rfl | ⟨hy, c', hc', hyc⟩) | ⟨hyc, hy⟩)
      · exact .inl rfl
      · exact .inr ⟨hy, c', .inl hc', hyc⟩
      · exact .inr ⟨hy, _, .inr rfl, hyc.imp Eq.symm Eq.symm⟩
    · rintro (rfl | ⟨hy, c', hc' | rfl, hyc⟩)
      · exact .inl (.inl rfl)
      · exact .inl (.inr ⟨hy, c', hc', hyc⟩)
      · exact .inr ⟨hyc.imp Eq.symm Eq.symm, hy⟩
  · simp [Sampled.extend, hp.taken_eq]
  · exact List.nodup_cons.2 ⟨hfree, hp.taken_nodup⟩
  · intro c' hc'
    rcases List.mem_append.1 hc' with hc' | hc'
    · exact hp.picked_join c' hc'
    · rw [List.mem_singleton.1 hc']
      exact hjoin
  · intro c' hc'
    rcases List.mem_append.1 hc' with hc' | hc'
    · exact hp.picked_reached c' hc'
    · rw [List.mem_singleton.1 hc']
      rcases hxc with rfl | rfl
      · exact .inl (hp.reached hx)
      · exact .inr (hp.reached hx)
  · intro y hy
    have hnew : Joins (p.extend g c).picked c.2.1 c.2.2 :=
      ⟨_, List.mem_append_right _ (List.mem_singleton_self _), .inl ⟨rfl, rfl⟩⟩
    have hmono : ∀ z, Relation.ReflTransGen (Joins p.picked) start z →
        Relation.ReflTransGen (Joins (p.extend g c).picked) start z :=
      fun z => Relation.ReflTransGen.mono (fun _ _ => Joins.append [(c.2.1, c.2.2, c.1)]) _ _
    have hxj := hmono x (hp.joined x hx)
    rcases mem_extend_nodes.1 hy with hy | ⟨hyc, -⟩
    · exact hmono y (hp.joined y hy)
    -- a new node is the listing node or joined to it by the new edge
    · rcases hxc with rfl | rfl <;> rcases hyc with rfl | rfl
      · exact hxj
      · exact hxj.tail hnew
      · exact hxj.tail hnew.symm
      · exact hxj

/-- With nothing left to list, the reached nodes hold every node the start reaches: they are
closed under declared ends of live edges. -/
theorem Grown.mem_nodes_of_stalled {directed : Bool} {ops : List GraphOp} (h : Built g directed ops)
    (hp : Grown g start p) (hstall : g.incident (p.nodes.map (·.1)) p.taken = [])
    {x : Nat} (hx : g.Reached start x) : x ∈ p.nodes.map (·.1) := by
  induction hx with
  | start => exact (hp.mem_nodes start).2 (.inl rfl)
  | @edge x y i e _ hlive he hxy hy ih =>
    -- the edge at a reached node cannot be listed, so it is taken and its declared ends reached
    have hi : i ∈ p.taken := by
      by_contra hi
      have hend : e.source ∈ p.nodes.map (·.1) ∨ e.dest ∈ p.nodes.map (·.1) := by
        rcases hxy with ⟨rfl, -⟩ | ⟨-, rfl⟩
        · exact .inl ih
        · exact .inr ih
      have := h.mem_incident_of_live hlive he hend hi
      rw [hstall] at this
      exact absurd this List.not_mem_nil
    obtain ⟨c, hc, rfl⟩ := hp.mem_taken_iff.1 hi
    obtain ⟨-, e', he', hends⟩ := hp.picked_join c hc
    rw [he] at he'
    cases he'
    refine (hp.mem_nodes y).2 (.inr ⟨hy, c, hc, ?_⟩)
    rcases hxy with ⟨-, rfl⟩ | ⟨rfl, -⟩ <;> rcases hends with ⟨h1, h2⟩ | ⟨-, h1, h2⟩
    · exact .inr h2.symm
    · exact .inl h2.symm
    · exact .inl h1.symm
    · exact .inr h1.symm

theorem Grown.reachableEdge_iff_of_stalled {directed : Bool} {ops : List GraphOp}
    (h : Built g directed ops) (hp : Grown g start p)
    (hstall : g.incident (p.nodes.map (·.1)) p.taken = []) {i : Nat} :
    g.ReachableEdge start i ↔ i ∈ p.taken := by
  refine ⟨fun ⟨hlive, e, he, hr⟩ => ?_, hp.reachableEdge_of_mem⟩
  by_contra hi
  have hend : e.source ∈ p.nodes.map (·.1) ∨ e.dest ∈ p.nodes.map (·.1) :=
    hr.imp (hp.mem_nodes_of_stalled h hstall) (hp.mem_nodes_of_stalled h hstall)
  have := h.mem_incident_of_live hlive he hend hi
  rw [hstall] at this
  exact absurd this List.not_mem_nil

theorem reachableEdge_finite (g : Graph) (start : Nat) : {i | g.ReachableEdge start i}.Finite := by
  refine (Set.finite_lt_nat g.edges.size).subset fun i ⟨_, e, he, _⟩ => ?_
  exact (Array.getElem?_eq_some_iff.1 he).1

theorem Grown.length_taken_le (hp : Grown g start p) :
    p.taken.length ≤ {i | g.ReachableEdge start i}.ncard := by
  rw [← ncard_setOf_eq_length hp.taken_nodup (fun _ => Iff.rfl)]
  exact Set.ncard_le_ncard (fun i hi => hp.reachableEdge_of_mem hi) (reachableEdge_finite g start)

end Graph.Sampled

/-! ### The growth as a run -/

namespace Graph

variable {g : Graph} {σ : Type} {draw : Draw σ}

theorem drawEdges_succ_of_nil {n : Nat} {p : Sampled} {s : σ}
    (h : g.incident (p.nodes.map (·.1)) p.taken = []) : g.drawEdges draw (n + 1) p s = none := by
  simp [drawEdges, h]

theorem drawEdges_succ_of_getElem? {n : Nat} {p : Sampled} {s : σ} {c : Nat × Nat × Nat}
    (hne : g.incident (p.nodes.map (·.1)) p.taken ≠ [])
    (hc : (g.incident (p.nodes.map (·.1)) p.taken)[(draw s 0
      ((g.incident (p.nodes.map (·.1)) p.taken).length - 1)).1]? = some c) :
    g.drawEdges draw (n + 1) p s = g.drawEdges draw n (p.extend g c)
      (draw s 0 ((g.incident (p.nodes.map (·.1)) p.taken).length - 1)).2 := by
  simp only [drawEdges, List.isEmpty_iff, hne, if_false, hc]
  rfl

variable {directed : Bool} {ops : List GraphOp} {start : Nat}

/-- The run lemma: a growth that keeps its invariant ends keeping it, with as many more edges
taken as it was asked for. -/
theorem grown_of_drawEdges (h : Built g directed ops) :
    ∀ (n : Nat) {p p' : Sampled} {s s' : σ}, p.Grown g start →
      g.drawEdges draw n p s = some (p', s') → p'.Grown g start ∧ p'.taken.length = p.taken.length + n
  | 0, p, p', s, s', hp, hd => by
    simp only [drawEdges, Option.some.injEq, Prod.mk.injEq] at hd
    obtain ⟨rfl, rfl⟩ := hd
    exact ⟨hp, rfl⟩
  | n + 1, p, p', s, s', hp, hd => by
    by_cases hne : g.incident (p.nodes.map (·.1)) p.taken = []
    · rw [drawEdges_succ_of_nil hne] at hd
      cases hd
    cases hc : (g.incident (p.nodes.map (·.1)) p.taken)[(draw s 0
        ((g.incident (p.nodes.map (·.1)) p.taken).length - 1)).1]? with
    | none =>
      simp [drawEdges, hne, hc] at hd
    | some c =>
      rw [drawEdges_succ_of_getElem? hne hc] at hd
      have hp' := hp.extend h (List.mem_of_getElem? hc)
      obtain ⟨hgrown, hlen⟩ := grown_of_drawEdges h n hp' hd
      refine ⟨hgrown, ?_⟩
      rw [hlen]
      simp only [Sampled.extend, List.length_cons]
      omega

/-- Whatever is drawn, the growth fails exactly when fewer edges are reachable from the start than
it would have taken. -/
theorem drawEdges_eq_none_iff (h : Built g directed ops) (hdraw : draw.InRange) :
    ∀ (n : Nat) {p : Sampled} (s : σ), p.Grown g start →
      (g.drawEdges draw n p s = none ↔ {i | g.ReachableEdge start i}.ncard < p.taken.length + n)
  | 0, p, s, hp => by
    simp only [drawEdges, reduceCtorEq, false_iff, Nat.add_zero, not_lt]
    exact hp.length_taken_le
  | n + 1, p, s, hp => by
    by_cases hne : g.incident (p.nodes.map (·.1)) p.taken = []
    · -- stalled: the taken edges are all the reachable ones
      rw [drawEdges_succ_of_nil hne]
      have hcard : {i | g.ReachableEdge start i}.ncard = p.taken.length :=
        ncard_setOf_eq_length hp.taken_nodup fun i => (hp.reachableEdge_iff_of_stalled h hne).symm
      simp only [hcard, true_iff]
      omega
    · -- a draw in range picks a listed edge, and the growth goes on from there
      set cands := g.incident (p.nodes.map (·.1)) p.taken with hcands
      have hlt : (draw s 0 (cands.length - 1)).1 < cands.length := by
        have hpos : 0 < cands.length := List.length_pos_iff.2 hne
        have := (hdraw s 0 (cands.length - 1) (Nat.zero_le _)).2
        omega
      obtain ⟨c, hc⟩ : ∃ c, cands[(draw s 0 (cands.length - 1)).1]? = some c :=
        ⟨_, List.getElem?_eq_getElem hlt⟩
      rw [drawEdges_succ_of_getElem? hne hc,
        drawEdges_eq_none_iff h hdraw n _ (hp.extend h (List.mem_of_getElem? hc))]
      simp only [Sampled.extend, List.length_cons]
      constructor <;> intro hlt' <;> omega

end Graph

end TemporalMotif
