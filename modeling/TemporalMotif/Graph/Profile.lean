/-! # Profiles

A profile is a vector of counts, one per slot; a slot past the end counts as zero. One profile
dominates another when it is at least as large in every slot. Counting a slot can be capped:
the count then stops at the first running sum that reaches the cap, which is all that a
dominance test against the cap needs to know.

Counting is done by a slot counter: slots share the loops that produce their contributions, a
slot is finished once its count reaches its limit (at once for a zero limit) and takes nothing
more, and a loop stops early once every slot it feeds is finished. -/

namespace TemporalMotif

/-- Counts by slot. -/
abbrev Profile := List Nat

namespace Profile

/-- The count in slot `k`, zero past the end. -/
def get (p : Profile) (k : Nat) : Nat := p.getD k 0

/-- Whether `p` is at least `q` in every slot. -/
def dominates (p q : Profile) : Bool :=
  (List.range (max p.length q.length)).all fun k => q.get k ≤ p.get k

/-- The slotwise maximum, as long as the longer of the two. -/
def mergeMax (p q : Profile) : Profile :=
  (List.range (max p.length q.length)).map fun k => max (p.get k) (q.get k)

/-- The cap of slot `k` under optional limits: none without limits, zero past their end. -/
def capOf (limits : Option Profile) (k : Nat) : Option Nat := limits.map (·.get k)

end Profile

namespace Tally

/-- Adds the amounts to `acc` in order and stops as soon as the sum reaches `cap`. -/
def runUpTo (cap : Nat) : Nat → List Nat → Nat
  | acc, [] => acc
  | acc, x :: xs => if cap ≤ acc then acc else runUpTo cap (acc + x) xs

/-- The count of a slot with the given contributions: their sum without a cap, else the first
running sum that reaches the cap (zero for a zero cap), or the whole sum if none does. -/
def capped : Option Nat → List Nat → Nat
  | none, xs => xs.foldr (· + ·) 0
  | some cap, xs => runUpTo cap 0 xs

/-- The profile whose slot `k` counts the contributions `slots[k]` under the slot's cap. -/
def profile (limits : Option Profile) (slots : List (List Nat)) : Profile :=
  (slots.zipIdx).map fun (xs, k) => capped (Profile.capOf limits k) xs

end Tally

/-- Slot counts being taken under optional limits: which slots are finished, and how many
are still open. -/
structure SlotCounter where
  counts : List Nat
  finished : List Bool
  limits : Option Profile
  openSlots : Nat

namespace SlotCounter

/-- A counter of `slots` zero counts; a slot whose limit is zero is finished from the start. -/
def new (slots : Nat) (limits : Option Profile) : SlotCounter :=
  let finished := (List.range slots).map fun k => limits.any fun l => l.get k == 0
  ⟨List.replicate slots 0, finished, limits, finished.count false⟩

/-- Slot `slot` still takes contributions. -/
def isOpen (c : SlotCounter) (slot : Nat) : Bool := !c.finished.getD slot true

/-- Some slot of `slots` still takes contributions. -/
def anyOpen (c : SlotCounter) (slots : List Nat) : Bool := slots.any c.isOpen

/-- No slot takes contributions any more. -/
def allFinished (c : SlotCounter) : Bool := c.openSlots == 0

/-- Adds `amount` to an open slot, finishing it once its count reaches its limit; a finished
slot is left as it is. -/
def add (c : SlotCounter) (slot amount : Nat) : SlotCounter :=
  if c.isOpen slot then
    let n := c.counts.getD slot 0 + amount
    let c := { c with counts := c.counts.set slot n }
    if c.limits.any fun l => l.get slot ≤ n then
      { c with finished := c.finished.set slot true, openSlots := c.openSlots - 1 }
    else c
  else c

/-- Runs `body` over `xs` in order while `go` holds before each step: a loop that breaks as
soon as `go` fails. -/
def loop {α : Type} (go : SlotCounter → Bool) (body : SlotCounter → α → SlotCounter) :
    SlotCounter → List α → SlotCounter
  | c, [] => c
  | c, x :: xs => if go c then loop go body (body c x) xs else c

end SlotCounter

end TemporalMotif
