/-! # Time windows

A window is a range of timestamps given by two endpoints, each included, excluded or absent.
`Window.contains` is membership; `Window.isValid` says that the window is a well-formed range,
which fails only for windows that hold no timestamp. `Window.rangeAccepts` is what an ordered
map's range query asks of its ends; every well-formed window meets it. -/

namespace TemporalMotif

/-- One end of a time window. -/
inductive Endpoint where
  | included (t : Int)
  | excluded (t : Int)
  | unbounded
deriving DecidableEq, Repr

namespace Endpoint

/-- Whether `t` lies on the right side of `e` taken as a lower end. -/
def admitsAbove : Endpoint → Int → Bool
  | included s, t => decide (s ≤ t)
  | excluded s, t => decide (s < t)
  | unbounded, _ => true

/-- Whether `t` lies on the right side of `e` taken as an upper end. -/
def admitsBelow : Endpoint → Int → Bool
  | included e, t => decide (t ≤ e)
  | excluded e, t => decide (t < e)
  | unbounded, _ => true

/-- Passing a lower end is kept by larger times. -/
theorem admitsAbove_mono (e : Endpoint) (s t : Int) (hst : s ≤ t)
    (h : e.admitsAbove s = true) : e.admitsAbove t = true := by
  cases e <;> simp_all [admitsAbove] <;> omega

/-- Passing an upper end is kept by smaller times. -/
theorem admitsBelow_anti (e : Endpoint) (s t : Int) (hst : s ≤ t)
    (h : e.admitsBelow t = true) : e.admitsBelow s = true := by
  cases e <;> simp_all [admitsBelow] <;> omega

end Endpoint

/-- A range of timestamps between two endpoints. -/
structure Window where
  lower : Endpoint
  upper : Endpoint
deriving DecidableEq, Repr

namespace Window

/-- Every timestamp. -/
def all : Window := ⟨.unbounded, .unbounded⟩

/-- The one timestamp `t`. -/
def exactly (t : Int) : Window := ⟨.included t, .included t⟩

/-- The timestamps strictly between `l` and `u`. -/
def strictlyBetween (l u : Int) : Window := ⟨.excluded l, .excluded u⟩

/-- Whether `t` lies in the window. -/
def contains (w : Window) (t : Int) : Bool :=
  w.lower.admitsAbove t && w.upper.admitsBelow t

/-- The window is a well-formed range: when both ends are present the lower lies below the
upper, with room for one timestamp when both are excluded. -/
def isValid (w : Window) : Bool :=
  match w.lower, w.upper with
  | .excluded s, .excluded e => decide (s + 1 < e)
  | .included s, .excluded e => decide (s < e)
  | .excluded s, .included e => decide (s < e)
  | .included s, .included e => decide (s ≤ e)
  | _, _ => true

/-- The ends that an ordered map's range query takes: it fails on a lower end above the upper one,
and on two excluded ends at one time. -/
def rangeAccepts (w : Window) : Bool :=
  match w.lower, w.upper with
  | .excluded s, .excluded e => decide (s < e)
  | .included s, .excluded e => decide (s ≤ e)
  | .excluded s, .included e => decide (s ≤ e)
  | .included s, .included e => decide (s ≤ e)
  | _, _ => true

/-- The range query takes the ends of every well-formed window. -/
theorem rangeAccepts_of_isValid {w : Window} (h : w.isValid = true) : w.rangeAccepts = true := by
  rcases w with ⟨l, u⟩
  cases l <;> cases u <;> simp_all [isValid, rangeAccepts] <;> omega

theorem contains_exactly (t x : Int) : (exactly t).contains x = decide (x = t) := by
  by_cases h : x = t <;> simp [exactly, contains, Endpoint.admitsAbove, Endpoint.admitsBelow, h]
  omega

/-- A window that is not well formed holds no timestamp. -/
theorem contains_eq_false_of_not_isValid {w : Window} (h : w.isValid = false) (t : Int) :
    w.contains t = false := by
  rcases w with ⟨l, u⟩
  cases l <;> cases u <;>
    simp_all [isValid, contains, Endpoint.admitsAbove, Endpoint.admitsBelow] <;> omega

end Window

end TemporalMotif
