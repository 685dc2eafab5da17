import TemporalMotif.Proofs.Dominance

/-! # Capped counts

Counted under a limit, a slot stops at the first running sum of its contributions that reaches
the limit, and takes nothing for a zero limit; so a capped count lies between the smaller of the
full count and the limit, and the full count (`Graph.limited_counts_truncate`).

Domains are built from target profiles capped at limits that are at least every query node's
counts. Against a profile below its limits, a capped profile dominates exactly when the full
one does, and a node of another label is never taken, so the limits and the label filter change
no domain (`Domains.build_eq_uncapped`). -/

namespace TemporalMotif

/-- Counting the contributions `xs` of a slot gives `full` without a limit and `capped` under
the limit `cap`: `full` is their sum, and `capped` is zero for a zero limit and otherwise the
first running sum of `xs` that reaches `cap`, or `full` if none does, so that it lies between
`min full cap` and `full`. -/
def Truncates (xs : List Nat) (cap full capped : Nat) : Prop :=
  full = xs.sum ∧
    capped = (if cap = 0 then 0 else ((xs.scanl (· + ·) 0).find? (cap ≤ ·)).getD full) ∧
    min full cap ≤ capped ∧ capped ≤ full

namespace Profile

theorem dominates_iff {p q : Profile} : p.dominates q = true ↔ ∀ k, q.get k ≤ p.get k := by
  refine ⟨fun h k => ?_, dominates_of_get_le⟩
  simp only [dominates, List.all_eq_true, List.mem_range, decide_eq_true_eq] at h
  rcases Nat.lt_or_ge k (max p.length q.length) with hk | hk
  · exact h k hk
  · rw [get_eq_zero (p := q) (by omega)]
    exact Nat.zero_le _

end Profile

namespace Tally

theorem runUpTo_le (cap : Nat) : ∀ (acc : Nat) (xs : List Nat), runUpTo cap acc xs ≤ acc + xs.sum
  | acc, [] => by simp [runUpTo]
  | acc, x :: xs => by
    have ih := runUpTo_le cap (acc + x) xs
    rw [runUpTo, List.sum_cons]
    split <;> omega

/-- Counting up to a cap stops at the first running sum that reaches it, or runs to the end. -/
theorem runUpTo_eq_find (cap : Nat) : ∀ (acc : Nat) (xs : List Nat),
    runUpTo cap acc xs = ((xs.scanl (· + ·) acc).find? (cap ≤ ·)).getD (acc + xs.sum)
  | acc, [] => by
    by_cases h : cap ≤ acc <;> simp [runUpTo, h]
  | acc, x :: xs => by
    rw [runUpTo, List.scanl_cons, List.find?_cons, runUpTo_eq_find cap (acc + x) xs, List.sum_cons,
      Nat.add_assoc]
    by_cases h : cap ≤ acc <;> simp [h]

theorem runUpTo_zero (xs : List Nat) : runUpTo 0 0 xs = 0 := by
  cases xs <;> rfl

theorem truncates_capped (cap : Nat) (xs : List Nat) :
    Truncates xs cap (capped none xs) (capped (some cap) xs) := by
  have hfull : capped none xs = xs.sum := capped_none xs
  have hle := runUpTo_le cap 0 xs
  have hmin := min_le_runUpTo cap 0 xs
  rw [Nat.zero_add] at hle hmin
  refine ⟨hfull, ?_, ?_, ?_⟩
  · show runUpTo cap 0 xs = _
    by_cases h : cap = 0
    · rw [if_pos h, h, runUpTo_zero]
    · rw [if_neg h, runUpTo_eq_find, Nat.zero_add, hfull]
  · show min (capped none xs) cap ≤ runUpTo cap 0 xs
    rw [hfull, Nat.min_comm]
    exact hmin
  · show runUpTo cap 0 xs ≤ capped none xs
    rw [hfull]
    exact hle

/-- Each slot of a profile counted under limits `L` truncates the full count of its
contributions at the slot's limit. -/
theorem truncates_profile (L : Profile) (slots : List (List Nat)) (k : Nat) :
    Truncates (slots.getD k []) (L.get k) ((profile none slots).get k) ((profile (some L) slots).get k) := by
  rw [get_profile, get_profile, List.getD_eq_getElem?_getD]
  cases slots[k]? with
  | none =>
    refine ⟨rfl, ?_, by simp, Nat.le_refl _⟩
    by_cases h : L.get k = 0
    · rw [if_pos h]
      rfl
    · rw [if_neg h]
      simp [List.scanl_nil, h]
  | some xs => exact truncates_capped (L.get k) xs

/-- Against a profile below the limits, a capped profile dominates exactly when the full one
does. -/
theorem dominates_profile_some_eq {sig L : Profile} (hcap : ∀ k, sig.get k ≤ L.get k)
    (slots : List (List Nat)) :
    (profile (some L) slots).dominates sig = (profile none slots).dominates sig := by
  rw [Bool.eq_iff_iff, Profile.dominates_iff, Profile.dominates_iff]
  refine forall_congr' fun k => ?_
  obtain ⟨-, -, hmin, hle⟩ := truncates_profile L slots k
  constructor
  · intro h
    exact Nat.le_trans h hle
  · intro h
    exact Nat.le_trans (Nat.le_min.2 ⟨h, hcap k⟩) hmin

end Tally

namespace Graph

/-- The contributions to each degree slot, in the order they are counted: the sizes of the
moments of each direction. -/
def degreeSlots (g : Graph) (x : Nat) : List (List Nat) :=
  Direction.all.map fun d => (g.indexOf x d).moments.map fun m => m.links.length

/-- The contributions to each flow slot, in the order they are counted. -/
def flowSlots (g : Graph) (x : Nat) (span : MaxSpan) : List (List Nat) :=
  if g.directed then Flow.directedSlots (g.indexOf x .incoming) (g.indexOf x .outgoing) span
  else Flow.undirectedSlots (g.indexOf x .reciprocal) span

/-- Under limits `L`, with missing slots read as zero, each slot of the degree and flow profiles
of every node counts nothing for a zero limit and otherwise stops at the first running sum of its
contributions, in the order the full count adds them, that reaches the limit, or takes them all;
so it lies between the smaller of the full count and the limit, and the full count. -/
theorem limited_counts_truncate (g : Graph) (x : Nat) (L : Profile) (span : MaxSpan) (s : Nat) :
    Truncates ((g.degreeSlots x).getD s []) (L.get s) ((g.degree x none).get s)
        ((g.degree x (some L)).get s) ∧
      Truncates ((g.flowSlots x span).getD s []) (L.get s) ((g.flow x none span).get s)
        ((g.flow x (some L) span).get s) := by
  rw [degree_eq_profile, degree_eq_profile, flow_eq_profile, flow_eq_profile]
  exact ⟨Tally.truncates_profile L _ s, Tally.truncates_profile L _ s⟩

/- Two outgoing moments of one link each: under limit 1 the count stops after the first; a zero
limit counts nothing. -/
example : (Graph.ofOps true [.addNode 0 0, .addNode 1 0, .addEdge 1 0 1 0, .addEdge 0 1 2 0,
    .addEdge 0 1 3 0]).degree 0 (some [1, 0, 5]) = [1, 0, 0] := by decide

theorem degree_dominates_eq (g : Graph) (x : Nat) {sig L : Profile} (hcap : ∀ k, sig.get k ≤ L.get k) :
    (g.degree x (some L)).dominates sig = (g.degree x none).dominates sig := by
  rw [degree_eq_profile, degree_eq_profile]
  exact Tally.dominates_profile_some_eq hcap _

theorem flow_dominates_eq (g : Graph) (x : Nat) (span : MaxSpan) {sig L : Profile}
    (hcap : ∀ k, sig.get k ≤ L.get k) :
    (g.flow x (some L) span).dominates sig = (g.flow x none span).dominates sig := by
  rw [flow_eq_profile, flow_eq_profile]
  exact Tally.dominates_profile_some_eq hcap _

end Graph

namespace Domains

/-- The domain of every query position is, in the target's node order, the list of target nodes
of the position's label whose full degree profile dominates the query node's, and whose full flow
profile under the maximum span dominates the query node's unbounded one: neither the limits the
profiles are capped at nor the filter on wanted labels changes a domain. -/
theorem build_eq_uncapped (q target : Graph) (pos : Positions) (span : MaxSpan) :
    build q target pos span =
      ((List.range pos.size).map fun p =>
        target.nodes.filterMap fun (n, l) =>
          if l = pos.label p ∧
              (target.degree n none).dominates (q.degree (pos.node p) none) = true ∧
              (target.flow n none span).dominates (q.flow (pos.node p) none .unbounded) = true
          then some n else none).toArray := by
  simp only [build]
  refine congrArg List.toArray ?_
  conv_lhs => arg 2; unfold signatures
  rw [List.map_map]
  refine List.map_congr_left fun p hp => ?_
  have hsig := mem_signatures q pos (List.mem_range.1 hp)
  dsimp only [Function.comp_apply]
  rw [List.filterMap_map, List.filterMap_filter]
  refine List.filterMap_congr fun x _ => ?_
  obtain ⟨n, l⟩ := x
  -- the caps are at least the counts of every query signature
  have hcapDeg : ∀ k, (q.degree (pos.node p) none).get k ≤
      ((signatures q pos).foldl (fun c s => Profile.mergeMax c s.degree) []).get k :=
    fun k => (Profile.le_get_foldl_mergeMax (·.degree) _ [] k).2 _ hsig
  have hcapFlow : ∀ k, (q.flow (pos.node p) none .unbounded).get k ≤
      ((signatures q pos).foldl (fun c s => Profile.mergeMax c s.flow) []).get k :=
    fun k => (Profile.le_get_foldl_mergeMax (·.flow) _ [] k).2 _ hsig
  have hdeg := target.degree_dominates_eq n hcapDeg
  have hflow := target.flow_dominates_eq n span hcapFlow
  by_cases hl : l = pos.label p
  · -- a node of the position's label is wanted, and its capped profiles decide as the full ones
    subst hl
    have hwanted : ((signatures q pos).any fun s => s.label == pos.label p) = true :=
      List.any_eq_true.2 ⟨_, hsig, by simp⟩
    simp only [Function.comp, hwanted, if_true, beq_self_eq_true, Bool.true_and, hdeg, hflow]
    by_cases hd : (target.degree n none).dominates (q.degree (pos.node p) none) = true <;>
      by_cases hf : (target.flow n none span).dominates (q.flow (pos.node p) none .unbounded) = true <;>
      simp [hd, hf]
  · -- a node of another label is in no domain, wanted or not
    have hne : (pos.label p == l) = false := by simpa using Ne.symm hl
    simp [Function.comp, hne, hl]

end Domains

end TemporalMotif
