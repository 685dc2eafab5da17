import TemporalMotif.Proofs.Termination

/-! # The search loop lists what the depth-first search lists

Over an order whose edge states join its node states, the uncancelled loop, given as much fuel as
its budget, hands on all that was pending (`loop_spec`). A run gives its loop that much fuel
(`budget_initLoop_le`), so it hands on exactly what the search lists (`run_uncancelled`);
cancelled before it starts, it hands on nothing (`run_cancelled`). So the search over many roots
is the searches over each, one after another (`run_splits_by_root`). -/

namespace TemporalMotif

namespace SearchSpace

variable {sp : SearchSpace} {l : SearchLoop}

theorem LoopInv.shape (hinv : sp.LoopInv l) : sp.LoopShape l :=
  ⟨hinv.state_lt, hinv.size_active, hinv.size_candidates, hinv.size_cursors⟩

/-- Run with at least as much fuel as its budget, the uncancelled loop hands on all that was
pending and ends with no root left. -/
theorem loop_spec (hjoin : sp.order.Joins) (fuel : Nat) (hinv : sp.LoopInv l)
    (hfuel : sp.budget l ≤ fuel) : sp.Finishes l (sp.loop false fuel l) := by
  -- the budget carries the induction: each turn that goes on lowers it
  induction fuel generalizing l with
  | zero => exact absurd hfuel (Nat.not_le_of_lt budget_pos)
  | succ fuel ih =>
    rcases step_spec hjoin hinv with ⟨l', hstep, ha⟩ | ⟨l', hstep, hf⟩
    · have hlt := (shape_step hinv.shape hstep).2
      simp only [loop, hstep]
      exact ha.finishes (ih ha.inv (by omega))
    · simp only [loop, hstep]
      exact hf

variable {roots : List Nat} {p : Progress}

/-- Uncancelled, a run hands on every occurrence the search lists, root by root, counts them,
and counts every root as scanned. -/
theorem run_uncancelled (hjoin : sp.order.Joins) (roots : List Nat) (p : Progress) :
    sp.run roots false p = ⟨sp.search roots, ⟨(sp.search roots).length, false⟩,
      ⟨p.totalRoots, p.scannedRoots + roots.length, p.occurrences + (sp.search roots).length⟩⟩ := by
  simp only [run]
  set l₀ : SearchLoop := ⟨SearchContext.new sp.order.nodes.length sp.order.edges.length, 0, roots,
    [], ⟨0, false⟩, p, 0⟩ with hl₀
  have h₀ : l₀.ctx.nextCandidate l₀.state = none := nextCandidate_new _ _
  have hc₀ : Counted p roots.length l₀ := ⟨Nat.le_refl _, rfl, by simp [l₀]⟩
  -- whatever last turn the loop takes, it hands on and counts all the roots lead to
  have hend : ∀ lf, sp.Finishes l₀ lf → (⟨lf.found, lf.summary, lf.progress⟩ : SearchRun) =
      ⟨sp.search roots, ⟨(sp.search roots).length, false⟩,
        ⟨p.totalRoots, p.scannedRoots + roots.length, p.occurrences + (sp.search roots).length⟩⟩ := by
    intro lf hf
    have hc := hf.counted p roots.length hc₀
    have hfound : lf.found = sp.search roots := by
      rw [hf.found]
      simp [l₀, pending, frames_one_of_exhausted sp (nextCandidate_new _ _), search]
    rw [hc.2, hc.3, hf.roots, hfound]
    simp
  obtain ⟨b, l₁, hb⟩ : ∃ b l₁, sp.loadRoot false roots l₀ = (b, l₁) := ⟨_, _, rfl⟩
  rw [hb]
  cases b
  · exact hend l₁ (finishes_reload h₀ rfl hb)
  · have h0 := edges_pos_of_loadRoot hb
    have ha := advances_reload hjoin (loopInv_new h0) h₀ rfl hb
    have hbudget : sp.budget l₁ ≤ sp.stepBound roots := by
      have := (budget_reload (shape_initLoop h0) h₀ rfl hb).2
      have := budget_initLoop_le sp roots p
      simp only [initLoop] at *
      omega
    exact hend _ (ha.finishes (loop_spec hjoin _ ha.inv hbudget))

/-- Cancelled before it starts, a run tries no root and hands on nothing; it reports the
cancellation when there was a root to try. -/
theorem run_cancelled (roots : List Nat) (p : Progress) :
    sp.run roots true p = ⟨[], ⟨0, !roots.isEmpty⟩, p⟩ := by
  cases roots <;> rfl

/-- The search splits by root. Uncancelled, a run over `roots` hands on what the depth-first
search lists, which is what the runs over each root hand on, one after another; it finds as many
occurrences as they do together, and raises the scanned counter by the number of roots and the
occurrence counter by what it finds. Cancelled before it starts, it hands on nothing and leaves
the counters as they were. This holds over every order whose edge states join its node states,
the first two different ones, as every order a plan builds does. -/
theorem run_splits_by_root (hjoin : sp.order.Joins) (roots : List Nat) (p : Progress) :
    let r := sp.run roots false p
    r.found = sp.search roots ∧
      r.found = (roots.map fun root => (sp.run [root] false p).found).flatten ∧
      r.summary = ⟨(roots.map fun root => (sp.run [root] false p).summary.occurrences).sum, false⟩ ∧
      r.progress =
        ⟨p.totalRoots, p.scannedRoots + roots.length, p.occurrences + r.summary.occurrences⟩ ∧
      sp.run roots true p = ⟨[], ⟨0, !roots.isEmpty⟩, p⟩ := by
  have hsplit : ∀ root, sp.search [root] = sp.fromRoot root := fun root => by
    simp [search]
  simp only [run_uncancelled hjoin, run_cancelled, hsplit, true_and]
  refine ⟨?_, ?_⟩
  · simp [search, List.flatMap_def]
  · simp [search, List.length_flatMap]

/-- Two roots of a one-edge query, over an order that joins its two node states. -/
theorem run_splits_by_root_two_roots :
    let sp : SearchSpace := ⟨Graph.ofOps true [.addNode 0 7, .addNode 1 7, .addEdge 0 1 5 3],
      Graph.ofOps true [.addNode 4 7, .addNode 2 7, .addNode 9 7, .addEdge 2 9 8 3, .addEdge 9 4 6 3],
      .within 2, #[[4, 2, 9], [4, 2, 9]], ⟨[0, 1], [none, none], [⟨0, 1, 0, .incoming⟩]⟩,
      #[⟨none, none⟩]⟩
    let p : Progress := ⟨2, 0, 0⟩
    sp.order.Joins ∧
      let r := sp.run [2, 9] false p
      r.found = sp.search [2, 9] ∧
        r.found = ([2, 9].map fun root => (sp.run [root] false p).found).flatten ∧
        r.summary = ⟨([2, 9].map fun root => (sp.run [root] false p).summary.occurrences).sum, false⟩ ∧
        r.progress =
          ⟨p.totalRoots, p.scannedRoots + [2, 9].length, p.occurrences + r.summary.occurrences⟩ ∧
        sp.run [2, 9] true p = ⟨[], ⟨0, !([2, 9] : List Nat).isEmpty⟩, p⟩ := by
  intro sp p
  have hjoin : sp.order.Joins := ⟨by decide, by decide, by decide⟩
  exact ⟨hjoin, run_splits_by_root hjoin [2, 9] p⟩

end SearchSpace

end TemporalMotif
