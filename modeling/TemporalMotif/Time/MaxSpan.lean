import TemporalMotif.Time.Stamp
import TemporalMotif.Time.Window

/-! # The maximum span of an occurrence

An occurrence's timestamps must all fit in a window of width at most `Δ`, the maximum span.
From it come the windows "after `t`" `(t, t + Δ]` and "before `t`" `[t - Δ, t)` used by the
profiles, and the slack left once part of an occurrence is fixed. All arithmetic saturates. -/

namespace TemporalMotif

/-- The largest allowed difference between the last and the first timestamp of an occurrence. -/
inductive MaxSpan where
  | unbounded
  | within (v : Int)
deriving DecidableEq, Repr

namespace MaxSpan

/-- A difference `span` between timestamps is allowed. -/
def admits : MaxSpan → Int → Bool
  | unbounded, _ => true
  | within v, span => decide (span ≤ v)

/-- The timestamps after `t` that can still share an occurrence with it: `(t, t + Δ]`. -/
def after : MaxSpan → Int → Window
  | unbounded, t => ⟨.excluded t, .unbounded⟩
  | within v, t => ⟨.excluded t, .included (Stamp.addSat t v)⟩

/-- The timestamps before `t` that can still share an occurrence with it: `[t - Δ, t)`. -/
def before : MaxSpan → Int → Window
  | unbounded, t => ⟨.unbounded, .excluded t⟩
  | within v, t => ⟨.included (Stamp.subSat t v), .excluded t⟩

/-- How far an occurrence whose timestamps run from `lo` to `hi` may still stretch. -/
def slack : MaxSpan → Int → Int → Option Int
  | unbounded, _, _ => none
  | within v, lo, hi => some (Stamp.subSat v (Stamp.subSat hi lo))

/-- The span's text: `inf`, or the span in decimal. -/
def display : MaxSpan → String
  | unbounded => "inf"
  | within v => toString v

/-- The maximum span given by an optional value; no value is unbounded. -/
def ofOption : Option Int → MaxSpan
  | none => unbounded
  | some v => within v

end MaxSpan

end TemporalMotif
