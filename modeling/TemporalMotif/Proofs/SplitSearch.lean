import TemporalMotif.Proofs.Matching

/-!
# A search split by root

Run on several threads, a search runs each root on its own and combines what the runs report:
the summaries are merged, two at a time in whatever grouping the threads finish in, and the
occurrences are joined in root order. Merging adds the counts and joins the cancellation flags,
so it is associative with the empty summary as unit, and every grouping of the per-root summaries
merges to their fold in root order (`Grouping.value_eq_foldr`).

Each root's run hands on what the depth-first search lists from that root, and the search over
all roots lists these one after another (`Backtracking`). So the split search counts and lists
what the search over all roots does, cancelled or not (`splitSummary_eq`, `splitFound_eq`), and a
matcher split by root reports what the matcher does (`countParallel_eq_count`).
-/

namespace TemporalMotif

namespace SearchSummary

@[simp] theorem merge_occurrences (a b : SearchSummary) :
    (a.merge b).occurrences = a.occurrences + b.occurrences := rfl

@[simp] theorem merge_cancelled (a b : SearchSummary) :
    (a.merge b).cancelled = (a.cancelled || b.cancelled) := rfl

theorem merge_assoc (a b c : SearchSummary) : (a.merge b).merge c = a.merge (b.merge c) := by
  simp only [merge, Nat.add_assoc, Bool.or_assoc]

theorem empty_merge (a : SearchSummary) : empty.merge a = a := by
  simp [merge, empty]

/-- Merging summaries in order adds their counts and is cancelled when one of them is. -/
theorem foldr_merge (xs : List SearchSummary) :
    xs.foldr merge empty = ⟨(xs.map (·.occurrences)).sum, xs.any (·.cancelled)⟩ := by
  induction xs with
  | nil => rfl
  | cons x xs ih => simp [ih, merge]

/-- Merging two runs of summaries in order merges the merge of each. -/
theorem foldr_merge_append (xs ys : List SearchSummary) :
    (xs ++ ys).foldr merge empty = (xs.foldr merge empty).merge (ys.foldr merge empty) := by
  induction xs with
  | nil => simp [empty_merge]
  | cons x xs ih => rw [List.cons_append, List.foldr_cons, ih, List.foldr_cons, merge_assoc]

/-- A way of merging summaries two at a time, with the summaries it merges in order. -/
inductive Grouping where
  | none
  | one (s : SearchSummary)
  | both (l r : Grouping)

namespace Grouping

/-- The summaries merged, in order. -/
def leaves : Grouping → List SearchSummary
  | none => []
  | one s => [s]
  | both l r => l.leaves ++ r.leaves

/-- What the merges give. -/
def value : Grouping → SearchSummary
  | none => empty
  | one s => s
  | both l r => l.value.merge r.value

/-- Every grouping merges its summaries to their fold in order. -/
theorem value_eq_foldr : ∀ g : Grouping, g.value = g.leaves.foldr merge empty
  | none => rfl
  | one s => by simp [value, leaves, merge, empty]
  | both l r => by
    rw [value, leaves, foldr_merge_append, value_eq_foldr l, value_eq_foldr r]

end Grouping

end SearchSummary

namespace SearchSpace

variable (sp : SearchSpace)

theorem runEach_nil_found (roots : List Nat) (p : Progress) :
    (sp.runEach roots true p).map (·.found) = roots.map fun _ => [] := by
  simp [runEach, run_cancelled]

/-- A run hands on as many occurrences as it counts. -/
theorem run_occurrences (hjoin : sp.order.Joins) (roots : List Nat) (cancelled : Bool)
    (p : Progress) : (sp.run roots cancelled p).summary.occurrences = (sp.run roots cancelled p).found.length := by
  cases cancelled
  · rw [run_uncancelled hjoin]
  · rw [run_cancelled]
    rfl

/-- The runs of a split search hand on what the search lists from each root. -/
theorem runEach_uncancelled (hjoin : sp.order.Joins) (roots : List Nat) (p : Progress) :
    (sp.runEach roots false p).map (·.found) = roots.map sp.fromRoot ∧
      (sp.runEach roots false p).map (·.summary) =
        roots.map fun root => ⟨(sp.fromRoot root).length, false⟩ := by
  simp [runEach, run_uncancelled hjoin, search, Function.comp_def]

/-- The split search counts what the search over all roots counts, and is cancelled when it is. -/
theorem splitSummary_eq (hjoin : sp.order.Joins) (roots : List Nat) (cancelled : Bool)
    (p : Progress) : sp.splitSummary roots cancelled p = (sp.run roots cancelled p).summary := by
  rw [splitSummary, SearchSummary.foldr_merge]
  cases cancelled
  · rw [(sp.runEach_uncancelled hjoin roots p).2, run_uncancelled hjoin]
    simp [search, List.length_flatMap, Function.comp_def]
  · -- each root's run is cancelled before it starts and finds nothing
    cases roots <;> simp [runEach, run_cancelled]

/-- The split search lists what the search over all roots lists, in the same order. -/
theorem splitFound_eq (hjoin : sp.order.Joins) (roots : List Nat) (cancelled : Bool)
    (p : Progress) : sp.splitFound roots cancelled p = (sp.run roots cancelled p).found := by
  cases cancelled
  · rw [splitFound, (sp.runEach_uncancelled hjoin roots p).1, run_uncancelled hjoin, search,
      List.flatMap_def]
  · rw [splitFound, runEach_nil_found, run_cancelled]
    simp

end SearchSpace

namespace MatchPlan

/-- A plan of a built query orders its edge states so that they join its node states. -/
theorem joins_of_ofSpan? {q t : Graph} {directed : Bool} {qops : List GraphOp} {span : MaxSpan}
    {p : MatchPlan} (hq : Built q directed qops) (h : ofSpan? q t span = some p) :
    p.order.Joins := by
  obtain ⟨order, horder, rfl⟩ := build_eq_some (ofSpan?_eq_some h).1
  exact (MatchingOrder.build_chain hq horder).joins

end MatchPlan

/-- A matcher split by root reports what the matcher reports. For graphs built by any calls, any
kind, maximum span and cancellation: the count read off the per-root summaries is the match's
count, and the occurrences joined in root order are the match's occurrences, in the same order;
both fail as the match fails. -/
theorem countParallel_eq_count (dq dt directed : Bool) (qops tops : List GraphOp) (span : MaxSpan)
    (cancelled : Bool) :
    let q := Graph.ofOps dq qops
    let t := Graph.ofOps dt tops
    countParallel q t directed span cancelled =
        (matchGraphs q t directed span cancelled).map MatchRun.count ∧
      enumerateParallel q t directed span cancelled =
        (matchGraphs q t directed span cancelled).map MatchRun.occurrences := by
  intro q t
  have hq : Built q dq qops := built_ofOps dq qops
  simp only [countParallel, enumerateParallel, runnable, matchGraphs]
  split_ifs
  · exact ⟨rfl, rfl⟩
  · exact ⟨rfl, rfl⟩
  cases hplan : MatchPlan.ofSpan? q t span with
  | none => exact ⟨rfl, rfl⟩
  | some p =>
    have hjoin := MatchPlan.joins_of_ofSpan? hq hplan
    by_cases hempty : p.domains.anyEmpty = true
    · simp [hempty, Except.map, MatchRun.count, MatchRun.occurrences]
    · -- the split search and the search over all roots agree on what they find
      simp only [hempty, Bool.false_eq_true, if_false, Except.map, MatchRun.count,
        MatchRun.occurrences, Except.ok.injEq]
      rw [SearchSpace.splitSummary_eq _ hjoin, SearchSpace.run_occurrences _ hjoin,
        SearchSpace.splitFound_eq _ hjoin]
      exact ⟨rfl, rfl⟩

end TemporalMotif
