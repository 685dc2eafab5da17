import TemporalMotif.Proofs.Matching

/-! # The window of an edge state is exact

Times bound to the first edge states fit the query when every two of them compare as their
query times do and, under a maximum span `within v`, none lies more than `v` after another.
The window that the search computes for an edge state reads only the two earlier states its
bound names and the span's slack, with saturating arithmetic; for every plan it still admits a
timestamp exactly when binding it keeps the times fitting (`MatchPlan.window_contains_iff_fits`).
-/

namespace TemporalMotif

/-- Times `ts` of the first edge states fit the query times `qt`: every two compare as their
query times do, and under `within v` the latest is at most `v` after the earliest. -/
def FitsQuery (qt : Nat → Int) (span : MaxSpan) (ts : List Int) : Prop :=
  (∀ j < ts.length, ∀ k < ts.length, compare (ts.getD j 0) (ts.getD k 0) = compare (qt j) (qt k)) ∧
    ∀ v, span = .within v → ∀ j < ts.length, ∀ k < ts.length, ts.getD j 0 - ts.getD k 0 ≤ v

namespace Assignment

variable {a : Assignment} {qt : Nat → Int} {span : MaxSpan} {i : Nat}

theorem timeAt_eq_getD (a : Assignment) (j : Nat) : a.timeAt j = a.times.toList.getD j 0 := by
  simp [timeAt, Array.getD_eq_getD_getElem?, List.getD_eq_getElem?_getD]

/-- The bound times fit as the search keeps them exactly when they fit the query and are
timestamps. -/
theorem timesFit_iff_fitsQuery :
    a.TimesFit qt span i ↔
      a.times.size = i ∧ FitsQuery qt span a.times.toList ∧ ∀ τ ∈ a.times.toList, Stamp.InRange τ := by
  simp only [FitsQuery, Array.length_toList, ← timeAt_eq_getD]
  constructor
  · rintro ⟨hsize, horder, hwithin, hrange⟩
    subst hsize
    refine ⟨rfl, ⟨horder, hwithin⟩, fun τ hτ => ?_⟩
    obtain ⟨j, hj, rfl⟩ := (mem_times_iff a τ).1 hτ
    exact hrange j hj
  · rintro ⟨rfl, ⟨horder, hwithin⟩, hrange⟩
    exact ⟨rfl, horder, hwithin, fun j hj => hrange _ ((mem_times_iff a _).2 ⟨j, hj, rfl⟩)⟩

/-- Under a span that is not negative, a timestamp is admitted after fitting times exactly when
the times with it appended still fit. -/
theorem admits_iff_fitsQuery_append (hfit : a.TimesFit qt span i)
    (hv : ∀ v, span = .within v → 0 ≤ v) {x : Int} (hx : Stamp.InRange x) :
    a.Admits qt span i x ↔ FitsQuery qt span (a.times.toList ++ [x]) := by
  let a' : Assignment := { a with times := a.times.push x }
  have ha' : a'.times = a.times.push x := rfl
  have hlist : a'.times.toList = a.times.toList ++ [x] := Array.toList_push
  constructor
  · intro hadm
    obtain ⟨-, hfits, -⟩ := timesFit_iff_fitsQuery.1 (hfit.push hv hadm hx ha')
    rwa [hlist] at hfits
  · intro hfits
    obtain ⟨hsize, -, hrange⟩ := timesFit_iff_fitsQuery.1 hfit
    have hrange' : ∀ τ ∈ a'.times.toList, Stamp.InRange τ := by
      intro τ hτ
      rw [hlist, List.mem_append, List.mem_singleton] at hτ
      rcases hτ with hτ | rfl
      · exact hrange τ hτ
      · exact hx
    have hfit' : a'.TimesFit qt span (i + 1) :=
      timesFit_iff_fitsQuery.2 ⟨by rw [ha', Array.size_push, hsize], hlist ▸ hfits, hrange'⟩
    exact hfit'.admits_of_push ha' hsize

end Assignment

namespace MatchPlan

variable {q t : Graph} {span : MaxSpan} {p : MatchPlan}

/-- The bound of each edge state of a plan brackets its query time among the earlier ones. -/
theorem brackets_of_build (hp : build q t span = some p) {s : Nat} (hs : s < p.order.edges.length) :
    TimeBound.Brackets (p.space q t span).queryTime s ((p.space q t span).bounds.getD s ⟨none, none⟩) := by
  obtain ⟨order, -, rfl⟩ := build_eq_some hp
  have hs' : s < (order.edges.map fun oe => q.timeOf oe.edge).length := by simpa using hs
  have hb := TimeBound.ofPrefix_brackets hs'
  rw [← TimeBound.getD_table hs'] at hb
  exact hb

/-- For every plan, under an unbounded span or a span `within v` with `0 ≤ v`, the window of
edge state `s`, after timestamps bound to the earlier states that fit the query, holds a
timestamp `x` exactly when the times with `x` appended still fit the query. -/
theorem window_contains_iff_fits (hp : build q t span = some p)
    (hspan : ∀ v, span = .within v → 0 ≤ v ∧ Stamp.InRange v)
    {s : Nat} (hs : s < p.order.edges.length) {a : Assignment} (hsize : a.times.size = s)
    (hrange : ∀ τ ∈ a.times.toList, Stamp.InRange τ)
    (hfit : FitsQuery (p.space q t span).queryTime span a.times.toList)
    {x : Int} (hx : Stamp.InRange x) :
    ((p.space q t span).window a s).contains x = true ↔
      FitsQuery (p.space q t span).queryTime span (a.times.toList ++ [x]) := by
  have hfit' : a.TimesFit (p.space q t span).queryTime span s :=
    Assignment.timesFit_iff_fitsQuery.2 ⟨hsize, hfit, hrange⟩
  rw [SearchSpace.window_contains_iff _ (brackets_of_build hp hs) hfit' hspan hx]
  exact Assignment.admits_iff_fitsQuery_append hfit' (fun v hv => (hspan v hv).1) hx

/-- A two-edge path whose later edge is bound first: with time 7 bound to edge state 0, the
window of edge state 1 is checked at time 5. -/
theorem window_contains_iff_fits_of_path :
    let q := Graph.ofOps true
      [.addNode 0 0, .addNode 1 0, .addNode 2 0, .addEdge 0 1 5 0, .addEdge 1 2 7 0]
    let p := (build q q (.within 10)).getD ⟨⟨#[], #[]⟩, #[], ⟨[], [], []⟩, []⟩
    let a : Assignment := ⟨#[], #[], #[7]⟩
    build q q (.within 10) = some p ∧
      (∀ v, MaxSpan.within 10 = .within v → 0 ≤ v ∧ Stamp.InRange v) ∧
      1 < p.order.edges.length ∧ a.times.size = 1 ∧ (∀ τ ∈ a.times.toList, Stamp.InRange τ) ∧
      FitsQuery (p.space q q (.within 10)).queryTime (.within 10) a.times.toList ∧
      (((p.space q q (.within 10)).window a 1).contains 5 = true ↔
        FitsQuery (p.space q q (.within 10)).queryTime (.within 10) (a.times.toList ++ [5])) := by
  intro q p a
  have hp : build q q (.within 10) = some p := by
    obtain ⟨p', hp'⟩ := Option.isSome_iff_exists.1 (by decide +kernel : (build q q (.within 10)).isSome)
    simp only [p, hp', Option.getD_some]
  have hspan : ∀ v, MaxSpan.within 10 = .within v → 0 ≤ v ∧ Stamp.InRange v := by
    rintro v ⟨⟩
    decide
  have hs : 1 < p.order.edges.length := by decide +kernel
  have hrange : ∀ τ ∈ a.times.toList, Stamp.InRange τ := by decide
  have hfit : FitsQuery (p.space q q (.within 10)).queryTime (.within 10) a.times.toList := by
    refine ⟨by decide +kernel, ?_⟩
    rintro v ⟨⟩ j hj k hk
    have hj0 : j = 0 := by simp [a] at hj; omega
    have hk0 : k = 0 := by simp [a] at hk; omega
    subst hj0 hk0
    decide
  exact ⟨hp, hspan, hs, rfl, hrange, hfit, window_contains_iff_fits hp hspan hs rfl hrange hfit (by decide)⟩

end MatchPlan

end TemporalMotif
