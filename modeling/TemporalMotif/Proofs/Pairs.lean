import Mathlib
import TemporalMotif.Graph.Flow
import TemporalMotif.Proofs.Representation

/-! # Counting pairs of links

A flow slot of a profile sums, over pairs of moments, how many pairs of links the two moments
form whose far ends differ (or agree). Here those sums become lengths of explicit lists of pairs
of entries, where an entry is one link with its time. A list of pairs has no repeats, and its
members are described by their entries alone, so two flow slots compare as soon as the entries of
one index map injectively into those of another in a way that keeps the slot's conditions. -/

namespace TemporalMotif

/-- One link of a node's index, with the time of its moment. -/
structure Entry where
  time : Int
  nbr : Nat
  edge : Nat
deriving DecidableEq, Repr

theorem sum_flatMap {α : Type} (l : List α) (f : α → List Nat) :
    (l.flatMap f).sum = (l.map fun a => (f a).sum).sum := by
  induction l with
  | nil => rfl
  | cons a l ih => simp [List.flatMap_cons, List.sum_append, ih]

/-- A `flatMap` has no repeats when no part has any and a key tells the parts apart. -/
theorem nodup_flatMap_of_key {α β κ : Type} {xs : List α} {f : α → List β} (k : α → κ)
    (key : β → κ) (hxs : xs.Pairwise fun x y => k x ≠ k y) (hf : ∀ x ∈ xs, (f x).Nodup)
    (hkey : ∀ x ∈ xs, ∀ y ∈ f x, key y = k x) : (xs.flatMap f).Nodup := by
  refine List.nodup_flatMap.2 ⟨hf, hxs.imp_of_mem fun hx hy hne z hz1 hz2 => ?_⟩
  exact hne ((hkey _ hx z hz1).symm.trans (hkey _ hy z hz2))

/-- A list without repeats that maps injectively into another is no longer. -/
theorem length_le_of_injOn {α β : Type} {l₁ : List α} {l₂ : List β} (f : α → β) (hd : l₁.Nodup)
    (hinj : ∀ x ∈ l₁, ∀ y ∈ l₁, f x = f y → x = y) (hmem : ∀ x ∈ l₁, f x ∈ l₂) :
    l₁.length ≤ l₂.length := by
  have hsub : l₁.map f ⊆ l₂ := by
    intro b hb
    obtain ⟨a, ha, rfl⟩ := List.mem_map.1 hb
    exact hmem a ha
  simpa using (List.subperm_of_subset (hd.map_on hinj) hsub).length_le

namespace Links

theorem length_filter_eq (ls : Links) (h : ls.nbrs.Nodup) (n : Nat) :
    (ls.filter fun b => n == b.1).length = if n ∈ ls.nbrs then 1 else 0 := by
  induction ls with
  | nil => simp
  | cons b ls ih =>
    simp only [nbrs, List.map_cons, List.nodup_cons] at h
    rw [List.filter_cons]
    by_cases hb : n = b.1
    · subst hb
      have hnot : ¬ b.1 ∈ nbrs ls := h.1
      have hzero : (ls.filter fun c => b.1 == c.1).length = 0 := by
        rw [ih h.2, if_neg hnot]
      simp [hzero, nbrs]
    · have hbeq : (n == b.1) = false := by simpa using hb
      rw [if_neg (by simp [hbeq]), ih h.2]
      simp only [nbrs, List.map_cons, List.mem_cons, hb, false_or]
      exact if_congr Iff.rfl rfl rfl

theorem length_filter_ne (ls : Links) (h : ls.nbrs.Nodup) (n : Nat) :
    (ls.filter fun b => n != b.1).length = ls.length - if n ∈ ls.nbrs then 1 else 0 := by
  have hsplit := List.length_eq_countP_add_countP (fun b : Nat × Nat => n == b.1) (l := ls)
  rw [List.countP_eq_length_filter, length_filter_eq ls h n, List.countP_eq_length_filter] at hsplit
  have : (ls.filter fun b => n != b.1) = ls.filter fun b => ¬ (n == b.1) := by
    congr 1; funext b; by_cases hb : n = b.1 <;> simp [hb]
  rw [this]
  omega

end Links

namespace Moment

/-- The pairs of a link of `m` and a link of `m'`, as entries, kept when `keep` holds of their
far ends. -/
def pairList (m m' : Moment) (keep : Nat → Nat → Bool) : List (Entry × Entry) :=
  m.links.flatMap fun a => m'.links.filterMap fun b =>
    if keep a.1 b.1 then some (⟨m.time, a.1, a.2⟩, ⟨m'.time, b.1, b.2⟩) else none

theorem length_pairList (m m' : Moment) (keep : Nat → Nat → Bool) :
    (m.pairList m' keep).length = (m.links.map fun a => (m'.links.filter fun b => keep a.1 b.1).length).sum := by
  simp only [pairList, List.length_flatMap]
  congr 1
  refine List.map_congr_left fun a _ => ?_
  rw [List.length_filterMap_eq_countP, List.countP_eq_length_filter]
  congr 1
  refine List.filter_congr fun b _ => ?_
  by_cases hk : keep a.1 b.1 <;> simp [hk]

theorem mem_pairList {m m' : Moment} {keep : Nat → Nat → Bool} {a b : Entry} :
    (a, b) ∈ m.pairList m' keep ↔
      (a.time = m.time ∧ (a.nbr, a.edge) ∈ m.links) ∧ (b.time = m'.time ∧ (b.nbr, b.edge) ∈ m'.links) ∧
        keep a.nbr b.nbr = true := by
  obtain ⟨ta, na, ea⟩ := a
  obtain ⟨tb, nb, eb⟩ := b
  simp only [pairList, List.mem_flatMap, List.mem_filterMap, Option.ite_none_right_eq_some,
    Option.some.injEq, Prod.mk.injEq, Entry.mk.injEq]
  constructor
  · rintro ⟨⟨n, e⟩, hne, ⟨n', e'⟩, hne', hk, ⟨rfl, rfl, rfl⟩, ⟨rfl, rfl, rfl⟩⟩
    exact ⟨⟨rfl, hne⟩, ⟨rfl, hne'⟩, hk⟩
  · rintro ⟨⟨rfl, ha⟩, ⟨rfl, hb⟩, hk⟩
    exact ⟨(na, ea), ha, (nb, eb), hb, hk, ⟨rfl, rfl, rfl⟩, ⟨rfl, rfl, rfl⟩⟩

/-- Pairs of links with distinct far ends: the first half of `pairSplit`. -/
theorem length_pairList_ne (m m' : Moment) (h : m'.links.nbrs.Nodup) :
    (m.pairList m' (· != ·)).length = (m.pairSplit m').1 := by
  rw [length_pairList]
  simp only [Links.length_filter_ne _ h]
  have hle : ∀ a ∈ m.links, (if a.1 ∈ m'.links.nbrs then 1 else 0) ≤ m'.links.length := by
    intro a _
    split
    · rename_i ha
      obtain ⟨b, hb, -⟩ := List.mem_map.1 ha
      exact Nat.succ_le_of_lt (List.length_pos_of_mem hb)
    · exact Nat.zero_le _
  have key : ∀ l : Links, (∀ a ∈ l, (if a.1 ∈ m'.links.nbrs then 1 else 0) ≤ m'.links.length) →
      (l.map fun a => m'.links.length - if a.1 ∈ m'.links.nbrs then 1 else 0).sum =
        l.length * m'.links.length - l.countP fun a => m'.links.hasNeighbour a.1 := by
    intro l hl
    induction l with
    | nil => simp
    | cons a l ih =>
      have ha := hl a List.mem_cons_self
      have hrest := ih fun b hb => hl b (List.mem_cons_of_mem _ hb)
      have hc : l.countP (fun a => m'.links.hasNeighbour a.1) ≤ l.length * m'.links.length := by
        rcases Nat.eq_zero_or_pos m'.links.length with hz | hz
        · simp [List.length_eq_zero_iff.1 hz, Links.hasNeighbour]
        · calc l.countP (fun a => m'.links.hasNeighbour a.1) ≤ l.length := List.countP_le_length
            _ ≤ l.length * m'.links.length := Nat.le_mul_of_pos_right _ hz
      simp only [List.map_cons, List.sum_cons, hrest, List.length_cons, List.countP_cons,
        Links.hasNeighbour_iff]
      split <;> rename_i hn <;> simp only [hn, if_true, if_false] at ha ⊢ <;>
        rw [Nat.succ_mul] <;> omega
  rw [key _ hle]
  rfl

/-- Pairs of links with the same far end: the second half of `pairSplit`. -/
theorem length_pairList_eq (m m' : Moment) (h : m'.links.nbrs.Nodup) :
    (m.pairList m' (· == ·)).length = (m.pairSplit m').2 := by
  rw [length_pairList]
  simp only [Links.length_filter_eq _ h]
  have key : ∀ l : Links, (l.map fun a => if a.1 ∈ m'.links.nbrs then 1 else 0).sum =
      l.countP fun a => m'.links.hasNeighbour a.1 := by
    intro l
    induction l with
    | nil => rfl
    | cons a l ih =>
      by_cases hn : a.1 ∈ m'.links.nbrs
      · simp [ih, hn, (Links.hasNeighbour_iff _ _).2 hn, Nat.add_comm]
      · have hf : m'.links.hasNeighbour a.1 = false :=
          Bool.eq_false_iff.2 fun h' => hn ((Links.hasNeighbour_iff _ _).1 h')
        simp [ih, hn, hf]
  exact key m.links

/-- Ordered pairs of distinct links of one moment. -/
theorem length_pairList_self (m : Moment) (h : m.links.nbrs.Nodup) :
    (m.pairList m (· != ·)).length = m.innerPairs := by
  rw [length_pairList]
  simp only [Links.length_filter_ne _ h]
  have hmem : ∀ a ∈ m.links, a.1 ∈ m.links.nbrs := fun a ha => List.mem_map.2 ⟨a, ha, rfl⟩
  rw [List.map_congr_left (g := fun _ => m.links.length - 1) fun a ha => by rw [if_pos (hmem a ha)]]
  simp [innerPairs]

theorem nodup_pairList (m m' : Moment) (keep : Nat → Nat → Bool) (h : m.links.Nodup)
    (h' : m'.links.Nodup) : (m.pairList m' keep).Nodup := by
  refine nodup_flatMap_of_key id (fun p => (p.1.nbr, p.1.edge)) (h.imp id) (fun a _ => ?_) ?_
  · refine h'.filterMap fun b b' p hb hb' => ?_
    by_cases hk : keep a.1 b.1 <;> by_cases hk' : keep a.1 b'.1 <;>
      simp only [hk, hk', if_true, if_false, Bool.false_eq_true, Option.mem_def,
        reduceCtorEq, Option.some.injEq] at hb hb'
    rw [← hb'] at hb
    simp only [Prod.mk.injEq, Entry.mk.injEq] at hb
    exact Prod.ext hb.2.2.1 hb.2.2.2
  · intro a _ p hp
    obtain ⟨b, -, hb⟩ := List.mem_filterMap.1 hp
    split at hb
    · cases hb; rfl
    · cases hb

end Moment

namespace TimeIndex

/-- The index holds entry `a`: its moment at `a.time` links `a.nbr` through `a.edge`. -/
def Holds (ix : TimeIndex) (a : Entry) : Prop :=
  ∃ m ∈ ix.moments, m.time = a.time ∧ (a.nbr, a.edge) ∈ m.links

/-- The pairs of an entry of `A` and an entry of `B` whose time lies in the window `w` of the
first entry's time, kept when `keep` holds of their far ends. -/
def pairsWithin (A B : TimeIndex) (w : Int → Window) (keep : Nat → Nat → Bool) :
    List (Entry × Entry) :=
  A.moments.flatMap fun m => (B.slice (w m.time)).flatMap fun m' => m.pairList m' keep

theorem mem_slice {ix : TimeIndex} {w : Window} {m : Moment} :
    m ∈ ix.slice w ↔ m ∈ ix.moments ∧ w.contains m.time = true := by
  rw [slice_eq_filter, List.mem_filter]

theorem mem_pairsWithin {A B : TimeIndex} {w : Int → Window} {keep : Nat → Nat → Bool}
    {a b : Entry} :
    (a, b) ∈ A.pairsWithin B w keep ↔
      A.Holds a ∧ B.Holds b ∧ (w a.time).contains b.time = true ∧ keep a.nbr b.nbr = true := by
  simp only [pairsWithin, List.mem_flatMap, mem_slice, Moment.mem_pairList]
  constructor
  · rintro ⟨m, hm, m', ⟨hm', hw⟩, ⟨hat, ha⟩, ⟨hbt, hb⟩, hk⟩
    refine ⟨⟨m, hm, hat.symm, ha⟩, ⟨m', hm', hbt.symm, hb⟩, ?_, hk⟩
    rw [hat, hbt]; exact hw
  · rintro ⟨⟨m, hm, hat, ha⟩, ⟨m', hm', hbt, hb⟩, hw, hk⟩
    refine ⟨m, hm, m', ⟨hm', ?_⟩, ⟨hat.symm, ha⟩, ⟨hbt.symm, hb⟩, hk⟩
    rw [hat, hbt]; exact hw

/-- Pairs are told apart by the times of their entries, then by their links. -/
theorem nodup_pairsWithin (A B : TimeIndex) (w : Int → Window) (keep : Nat → Nat → Bool)
    (hA : ∀ m ∈ A.moments, m.links.Nodup) (hB : ∀ m ∈ B.moments, m.links.Nodup) :
    (A.pairsWithin B w keep).Nodup := by
  have hne : ∀ ms : List Moment, ms.Pairwise (fun a b => a.time < b.time) →
      ms.Pairwise fun a b => a.time ≠ b.time := fun ms h => h.imp Int.ne_of_lt
  refine nodup_flatMap_of_key Moment.time (fun p => p.1.time) (hne _ A.increasing)
    (fun m hm => ?_) (fun m _ p hp => ?_)
  · rw [slice_eq_filter]
    refine nodup_flatMap_of_key Moment.time (fun p => p.2.time)
      (hne _ (B.increasing.filter _)) (fun m' hm' => ?_) (fun m' _ p hp => ?_)
    · exact Moment.nodup_pairList m m' keep (hA m hm) (hB m' (List.mem_filter.1 hm').1)
    · exact (Moment.mem_pairList.1 hp).2.1.1
  · obtain ⟨m', -, hp⟩ := List.mem_flatMap.1 hp
    exact (Moment.mem_pairList.1 hp).1.1

theorem length_pairsWithin (A B : TimeIndex) (w : Int → Window) (keep : Nat → Nat → Bool)
    (f : Moment → Moment → Nat)
    (hf : ∀ m ∈ A.moments, ∀ m' ∈ B.moments, (m.pairList m' keep).length = f m m') :
    (A.pairsWithin B w keep).length =
      (A.moments.flatMap fun m => (B.slice (w m.time)).map (f m)).sum := by
  rw [pairsWithin, List.length_flatMap, sum_flatMap]
  congr 1
  refine List.map_congr_left fun m hm => ?_
  rw [List.length_flatMap]
  congr 1
  exact List.map_congr_left fun m' hm' => hf m hm m' (mem_slice.1 hm').1

/-- On moments in increasing time, those at time `t` are the one found there, if any. -/
theorem filter_time_eq {ms : List Moment} (h : ms.Pairwise fun a b => a.time < b.time) (t : Int) :
    ms.filter (fun m => decide (m.time = t)) = (ms.find? (·.time == t)).toList := by
  induction ms with
  | nil => rfl
  | cons a ms ih =>
    rw [List.pairwise_cons] at h
    rw [find?_cons_time]
    by_cases ha : a.time = t
    · have hrest : ms.filter (fun m => decide (m.time = t)) = [] :=
        List.filter_eq_nil_iff.2 fun m hm hmt => by
          have := h.1 m hm
          simp only [decide_eq_true_eq] at hmt
          omega
      simp [ha, hrest]
    · simp [ha, ih h.2]

theorem slice_exactly (ix : TimeIndex) (t : Int) : ix.slice (Window.exactly t) = (ix.at? t).toList := by
  rw [slice_eq_filter]
  simp only [Window.contains_exactly]
  exact filter_time_eq ix.increasing t

/-- The entries of an index, moment by moment. -/
def entries (ix : TimeIndex) : List Entry :=
  ix.moments.flatMap fun m => m.links.map fun p => ⟨m.time, p.1, p.2⟩

theorem mem_entries {ix : TimeIndex} {a : Entry} : a ∈ ix.entries ↔ ix.Holds a := by
  simp only [entries, List.mem_flatMap, List.mem_map, Holds]
  constructor
  · rintro ⟨m, hm, p, hp, rfl⟩
    exact ⟨m, hm, rfl, hp⟩
  · rintro ⟨m, hm, hmt, ha⟩
    exact ⟨m, hm, _, ha, by rw [hmt]⟩

theorem length_entries (ix : TimeIndex) :
    ix.entries.length = (ix.moments.map fun m => m.links.length).sum := by
  simp [entries, List.length_flatMap]

theorem nodup_entries (ix : TimeIndex) (h : ∀ m ∈ ix.moments, m.links.Nodup) : ix.entries.Nodup := by
  refine nodup_flatMap_of_key Moment.time Entry.time (ix.increasing.imp Int.ne_of_lt)
    (fun m hm => (h m hm).map fun p p' hpp' => ?_) (fun m _ a ha => ?_)
  · simp only [Entry.mk.injEq] at hpp'
    exact Prod.ext hpp'.2.1 hpp'.2.2
  · obtain ⟨p, -, rfl⟩ := List.mem_map.1 ha
    rfl

theorem pairsWithin_exactly_self (A : TimeIndex) (keep : Nat → Nat → Bool) :
    A.pairsWithin A Window.exactly keep = A.moments.flatMap fun m => m.pairList m keep := by
  unfold pairsWithin
  refine List.flatMap_congr fun m hm => ?_
  rw [slice_exactly, (mem_moments_iff A m).1 hm]
  exact List.flatMap_singleton _ m

end TimeIndex

namespace Flow

variable {A B : TimeIndex}

theorem syncSplits_eq (A B : TimeIndex) : syncSplits A B = splits A B Window.exactly := by
  unfold syncSplits splits
  rw [List.filterMap_eq_flatMap_toList]
  refine List.flatMap_congr fun m _ => ?_
  rw [TimeIndex.slice_exactly, Option.toList_map]

theorem sum_splits_fst (w : Int → Window) (hB : ∀ m ∈ B.moments, m.links.nbrs.Nodup) :
    ((splits A B w).map (·.1)).sum = (A.pairsWithin B w (· != ·)).length := by
  rw [TimeIndex.length_pairsWithin A B w _ (fun m m' => (m.pairSplit m').1)
    fun m _ m' hm' => Moment.length_pairList_ne m m' (hB m' hm')]
  simp only [splits, List.map_flatMap, List.map_map]
  rfl

theorem sum_splits_snd (w : Int → Window) (hB : ∀ m ∈ B.moments, m.links.nbrs.Nodup) :
    ((splits A B w).map (·.2)).sum = (A.pairsWithin B w (· == ·)).length := by
  rw [TimeIndex.length_pairsWithin A B w _ (fun m m' => (m.pairSplit m').2)
    fun m _ m' hm' => Moment.length_pairList_eq m m' (hB m' hm')]
  simp only [splits, List.map_flatMap, List.map_map]
  rfl

theorem sum_innerPairs (hA : ∀ m ∈ A.moments, m.links.nbrs.Nodup) :
    (A.moments.map Moment.innerPairs).sum = (A.pairsWithin A Window.exactly (· != ·)).length := by
  rw [TimeIndex.pairsWithin_exactly_self, List.length_flatMap]
  congr 1
  exact List.map_congr_left fun m hm => (Moment.length_pairList_self m (hA m hm)).symm

end Flow

/-- When the second link of a pair comes, relative to the first. -/
inductive Timing where
  | later
  | earlier
  | same
deriving DecidableEq, Repr

/-- The window that the second time must lie in, for a first time `t`. -/
def Timing.window : Timing → MaxSpan → Int → Window
  | later, span => span.after
  | earlier, span => span.before
  | same, _ => Window.exactly

/-- What one flow slot counts: pairs of a link in direction `first` and a link in direction
`second` at the given timing, whose far ends differ when `distinct` holds and agree otherwise. -/
structure PairShape where
  first : Direction
  second : Direction
  timing : Timing
  distinct : Bool
deriving DecidableEq, Repr

namespace PairShape

/-- The test on the two far ends. -/
def keep (s : PairShape) : Nat → Nat → Bool := if s.distinct then (· != ·) else (· == ·)

/-- The twelve directed flow slots, in profile order. -/
def directedSlots : List PairShape :=
  [⟨.incoming, .outgoing, .later, true⟩, ⟨.incoming, .outgoing, .earlier, true⟩,
    ⟨.incoming, .outgoing, .same, true⟩, ⟨.incoming, .outgoing, .later, true⟩,
    ⟨.incoming, .incoming, .same, true⟩, ⟨.outgoing, .outgoing, .later, true⟩,
    ⟨.outgoing, .outgoing, .same, true⟩, ⟨.incoming, .outgoing, .later, false⟩,
    ⟨.incoming, .outgoing, .earlier, false⟩, ⟨.incoming, .outgoing, .same, false⟩,
    ⟨.incoming, .outgoing, .later, false⟩, ⟨.outgoing, .outgoing, .later, false⟩]

/-- The three undirected flow slots, in profile order. -/
def undirectedSlots : List PairShape :=
  [⟨.reciprocal, .reciprocal, .later, true⟩, ⟨.reciprocal, .reciprocal, .same, true⟩,
    ⟨.reciprocal, .reciprocal, .later, false⟩]

/-- The flow slots of a graph of the given kind. -/
def slots (directed : Bool) : List PairShape := if directed then directedSlots else undirectedSlots

end PairShape

/-- The pairs of links at `x` that the slot `s` counts, for the maximum span `span`. -/
def Graph.pairs (g : Graph) (x : Nat) (span : MaxSpan) (s : PairShape) : List (Entry × Entry) :=
  (g.indexOf x s.first).pairsWithin (g.indexOf x s.second) (s.timing.window span) s.keep

namespace Built

variable {g : Graph} {directed : Bool} {ops : List GraphOp}

/-- Every flow slot of a built graph sums to the number of pairs of its shape. -/
theorem flowSlots_sum (h : Built g directed ops) (x : Nat) (span : MaxSpan) :
    (if g.directed then Flow.directedSlots (g.indexOf x .incoming) (g.indexOf x .outgoing) span
      else Flow.undirectedSlots (g.indexOf x .reciprocal) span).map List.sum =
    (PairShape.slots g.directed).map fun s => (g.pairs x span s).length := by
  have hn : ∀ d, ∀ m ∈ (g.indexOf x d).moments, m.links.nbrs.Nodup := fun _ _ hm => h.nodup_nbrs hm
  unfold PairShape.slots
  split
  · simp only [Flow.directedSlots, PairShape.directedSlots, List.map_cons, List.map_nil,
      Graph.pairs, PairShape.keep, Timing.window, if_true, Bool.false_eq_true, if_false,
      Flow.syncSplits_eq, Flow.sum_splits_fst _ (hn _ ), Flow.sum_splits_snd _ (hn _),
      Flow.sum_innerPairs (hn _)]
  · simp only [Flow.undirectedSlots, PairShape.undirectedSlots, List.map_cons, List.map_nil,
      Graph.pairs, PairShape.keep, Timing.window, if_true, Bool.false_eq_true, if_false,
      Flow.sum_splits_fst _ (hn _), Flow.sum_splits_snd _ (hn _), Flow.sum_innerPairs (hn _)]

end Built

/-- Every degree slot sums to the number of entries in its direction. -/
theorem Graph.degreeSlots_sum (g : Graph) (x : Nat) :
    (Direction.all.map fun d => (g.indexOf x d).moments.map fun m => m.links.length).map List.sum =
      Direction.all.map fun d => (g.indexOf x d).entries.length := by
  simp [TimeIndex.length_entries]

end TemporalMotif
