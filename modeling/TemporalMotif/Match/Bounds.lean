/-! # Time bounds of the edge states

When edge state `i` is bound, the timestamps of the earlier edge states fix where its own may
lie, since the search keeps the order of timestamps. Its bound names the earlier states whose
times come just below and just above its own (the last such state where several share a time);
a time that an earlier state already has is bound on both sides by the last of them. -/

namespace TemporalMotif

/-- The earlier edge states whose times bound an edge state's time from below and above. -/
structure TimeBound where
  lower : Option Nat
  upper : Option Nat
deriving DecidableEq, Repr

namespace TimeBound

/-- The last state before `i` whose time is `t`. -/
def lastWith (times : List Int) (i : Nat) (t : Int) : Option Nat :=
  (((times.take i).zipIdx.filter (·.1 == t)).getLast?).map (·.2)

/-- The bound of state `i` with time `t`, among the times of the states before it. -/
def ofPrefix (times : List Int) (i : Nat) (t : Int) : TimeBound :=
  let earlier := times.take i
  if earlier.contains t then
    let same := lastWith times i t
    ⟨same, same⟩
  else
    let below := (earlier.filter (· < t)).max?
    let above := (earlier.filter (t < ·)).min?
    ⟨below.bind (lastWith times i), above.bind (lastWith times i)⟩

/-- The bounds of edge states with the given times. -/
def table (times : List Int) : List TimeBound :=
  times.zipIdx.map fun (t, i) => ofPrefix times i t

end TimeBound

end TemporalMotif
