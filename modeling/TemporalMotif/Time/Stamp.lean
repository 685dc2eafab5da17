/-! # Timestamps

Timestamps are signed 64-bit values, kept as `Int` inside `[Stamp.least, Stamp.greatest]`.
Window arithmetic saturates: a sum or difference that leaves the range is pulled back to the
nearest end, so a window never wraps around. -/

namespace TemporalMotif

namespace Stamp

/-- The least timestamp, `-2^63`. -/
def least : Int := -9223372036854775808

/-- The greatest timestamp, `2^63 - 1`. -/
def greatest : Int := 9223372036854775807

/-- The value `t` is a timestamp: it lies in the signed 64-bit range. -/
def InRange (t : Int) : Prop := least ≤ t ∧ t ≤ greatest

instance (t : Int) : Decidable (InRange t) := inferInstanceAs (Decidable (_ ∧ _))

/-- The nearest timestamp to `x`. -/
def clamp (x : Int) : Int := max least (min greatest x)

/-- Saturating sum of two timestamps. -/
def addSat (a b : Int) : Int := clamp (a + b)

/-- Saturating difference of two timestamps. -/
def subSat (a b : Int) : Int := clamp (a - b)

theorem clamp_inRange (x : Int) : InRange (clamp x) := by
  unfold InRange clamp least greatest; omega

theorem clamp_of_inRange {x : Int} (h : InRange x) : clamp x = x := by
  unfold InRange clamp least greatest at *; omega

end Stamp

end TemporalMotif
