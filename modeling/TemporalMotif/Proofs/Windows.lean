import TemporalMotif.Proofs.Profiles

/-! # Saturating windows and safe slices

The profiles cut time indices by the windows after and before a timestamp, whose far ends are
saturating sums and differences. On timestamps those windows are exact: saturation never admits
or drops a time that the integer comparison would not (`MaxSpan.windows_exact`). A slice then
runs its range query only on ends the query takes, and yields exactly the moments whose time
lies in the window, in increasing time (`TimeIndex.slice_safe_filter`). -/

namespace TemporalMotif

namespace MaxSpan

/-- For timestamps `t` and `x`, `x` lies in the window after `t` exactly when it comes later
and, under a bound `v`, at most `v` later; and in the window before `t` exactly when it comes
earlier and, under a bound `v`, at most `v` earlier. Differences are taken in the integers. -/
theorem windows_exact (d : MaxSpan) {t x : Int} (ht : Stamp.InRange t) (hx : Stamp.InRange x) :
    ((d.after t).contains x = true ↔ t < x ∧ ∀ v, d = .within v → x - t ≤ v) ∧
      ((d.before t).contains x = true ↔ x < t ∧ ∀ v, d = .within v → t - x ≤ v) := by
  have hafter := Timing.contains_window_eq .later d ht hx
  have hbefore := Timing.contains_window_eq .earlier d ht hx
  simp only [Timing.window, Timing.relates] at hafter hbefore
  rw [hafter, hbefore]
  cases d with
  | unbounded => simp [admits]
  | within v => simp [admits]

/-- The largest span, from the timestamp before the greatest: the sum saturates and the window
still holds the greatest timestamp. -/
theorem windows_exact_near_greatest :
    Stamp.InRange (Stamp.greatest - 1) ∧ Stamp.InRange Stamp.greatest ∧
      ((((within Stamp.greatest).after (Stamp.greatest - 1)).contains Stamp.greatest = true ↔
          Stamp.greatest - 1 < Stamp.greatest ∧
            ∀ v, within Stamp.greatest = .within v → Stamp.greatest - (Stamp.greatest - 1) ≤ v) ∧
        (((within Stamp.greatest).before (Stamp.greatest - 1)).contains Stamp.greatest = true ↔
          Stamp.greatest < Stamp.greatest - 1 ∧
            ∀ v, within Stamp.greatest = .within v → Stamp.greatest - 1 - Stamp.greatest ≤ v)) :=
  ⟨by decide, by decide, windows_exact _ (by decide) (by decide)⟩

example : ((within Stamp.greatest).before (Stamp.least + 1)).contains Stamp.least = true := by
  decide

end MaxSpan

namespace TimeIndex

/-- A slice runs the range query only on ends the query takes (a lower end at most the upper
one, and below it when both are excluded), and yields exactly the moments whose time lies in
the window, in increasing time. -/
theorem slice_safe_filter (ix : TimeIndex) (w : Window) :
    (w.isValid = true → w.rangeAccepts = true) ∧
      ix.slice w = ix.moments.filter (fun m => w.contains m.time) ∧
      (ix.slice w).Pairwise (fun a b => a.time < b.time) := by
  refine ⟨Window.rangeAccepts_of_isValid, ix.slice_eq_filter w, ?_⟩
  rw [ix.slice_eq_filter w]
  exact ix.increasing.filter _

example : ((ofTimes [1, 3, 5, 7]).slice ⟨.excluded 3, .included 7⟩).map (·.time) = [5, 7] := by
  decide

example :
    (ofTimes [1, 3, 5, 7]).slice (Window.strictlyBetween Stamp.greatest Stamp.greatest) = [] := by
  decide

end TimeIndex

end TemporalMotif
