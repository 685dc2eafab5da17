import Std.Data.TreeMap

/-! # The multiset of bound times

A search keeps the times of its bound edges as a multiset, so that the earliest and the latest
of them are read without a scan: an ordered map from each time to its number of copies, beside
the total number of copies. Removing the last copy of a time drops the time from the map, so the
least and the greatest key are the least and the greatest time held. -/

namespace TemporalMotif

/-- Times, each with its number of copies, and the total number of copies. -/
structure TimeMultiset where
  counts : Std.TreeMap Int Nat compare
  len : Nat

namespace TimeMultiset

/-- No time, as a search starts. -/
def empty : TimeMultiset := ⟨∅, 0⟩

/-- Adds one copy of `t`. -/
def insert (s : TimeMultiset) (t : Int) : TimeMultiset :=
  ⟨s.counts.insert t (s.counts.getD t 0 + 1), s.len + 1⟩

/-- Removes one copy of `t`, dropping `t` from the map with its last copy; says whether `t` was
there. -/
def remove (s : TimeMultiset) (t : Int) : Bool × TimeMultiset :=
  match s.counts[t]? with
  | none => (false, s)
  | some c =>
    let counts := if c - 1 = 0 then s.counts.erase t else s.counts.insert t (c - 1)
    (true, ⟨counts, s.len - 1⟩)

/-- The earliest and the latest time held, if any. -/
def span (s : TimeMultiset) : Option (Int × Int) := do
  let lo ← s.counts.minKey?
  let hi ← s.counts.maxKey?
  some (lo, hi)

end TimeMultiset

end TemporalMotif
