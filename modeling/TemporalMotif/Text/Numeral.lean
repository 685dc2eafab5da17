/-! # Decimal numerals

A numeral is an optional sign followed by one or more ASCII digits. A `+` is always allowed, a
`-` only where negative values are; a sign alone is no numeral. The value must lie in the
requested range. -/

namespace TemporalMotif

namespace Numeral

/-- The value of a nonempty run of ASCII digits. -/
def digits? : List Char → Option Nat
  | [] => none
  | c :: cs => go (c :: cs) 0
where
  /-- Reads digits onto the value `acc`. -/
  go : List Char → Nat → Option Nat
    | [], acc => some acc
    | c :: cs, acc => if c.isDigit then go cs (10 * acc + (c.toNat - '0'.toNat)) else none

/-- A numeral without `-` whose value is at most `hi`. -/
def natUpTo? (hi : Nat) (cs : List Char) : Option Nat :=
  let body := match cs with
    | '+' :: ds => ds
    | ds => ds
  (digits? body).bind fun v => if v ≤ hi then some v else none

/-- A numeral whose value lies in `[lo, hi]`. -/
def intIn? (lo hi : Int) (cs : List Char) : Option Int :=
  let value : Option Int := match cs with
    | '+' :: ds => (digits? ds).map Int.ofNat
    | '-' :: ds => (digits? ds).map fun v => -(v : Int)
    | ds => (digits? ds).map Int.ofNat
  value.bind fun v => if lo ≤ v ∧ v ≤ hi then some v else none

/-- The largest unsigned 32-bit value. -/
def u32Max : Nat := 4294967295

/-- The largest unsigned 64-bit value. -/
def u64Max : Nat := 18446744073709551615

end Numeral

end TemporalMotif
