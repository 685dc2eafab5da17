/-! # The xorshift128 generator and uniform draws

Marsaglia's xorshift128 generator on four 32-bit words, seeded from one 64-bit number by four
steps of the PCG32 output function (an all-zero seed becomes a fixed nonzero one). A 64-bit
word is two 32-bit outputs, the first one low. A uniform draw from `[lo, hi]` multiplies a word
by the range size `r` and keeps the high half, rejecting the word when the low half exceeds
the largest multiple-aligned zone `r · 2^(64 - bits r) - 1`, so every value is equally likely.
Rejection has fuel: each try succeeds with probability above one half, so running out means
more than a thousand rejections in a row; the draw then gives `lo`. -/

namespace TemporalMotif

/-- The four words of the generator's state. -/
structure XorShift where
  x : UInt32
  y : UInt32
  z : UInt32
  w : UInt32
deriving DecidableEq, Repr

namespace XorShift

/-- The multiplier of the seeding sequence. -/
def seedMul : UInt64 := 6364136223846793005

/-- The increment of the seeding sequence. -/
def seedInc : UInt64 := 11634580027462260723

/-- The next seeding state and the 32-bit word it gives. -/
def seedStep (s : UInt64) : UInt64 × UInt32 :=
  let s := s * seedMul + seedInc
  let xs := (((s >>> 18) ^^^ s) >>> 27).toUInt32
  let rot := (s >>> 59).toUInt32
  (s, (xs >>> rot) ||| (xs <<< (32 - rot)))

/-- The generator seeded from `seed`. -/
def ofSeed (seed : UInt64) : XorShift :=
  let (s, a) := seedStep seed
  let (s, b) := seedStep s
  let (s, c) := seedStep s
  let (_, d) := seedStep s
  if a == 0 && b == 0 && c == 0 && d == 0 then ⟨0xBAD5EED, 0xBAD5EED, 0xBAD5EED, 0xBAD5EED⟩
  else ⟨a, b, c, d⟩

/-- The next 32-bit output. -/
def next32 (g : XorShift) : UInt32 × XorShift :=
  let t := g.x ^^^ (g.x <<< 11)
  let w := g.w ^^^ (g.w >>> 19) ^^^ (t ^^^ (t >>> 8))
  (w, ⟨g.y, g.z, g.w, w⟩)

/-- The next 64-bit output, as a number: two 32-bit outputs, the first one low. -/
def next64 (g : XorShift) : Nat × XorShift :=
  let (lo, g) := g.next32
  let (hi, g) := g.next32
  ((hi.toNat <<< 32) + lo.toNat, g)

/-- The number of 64-bit words, `2^64`. -/
def wordCount : Nat := 18446744073709551616

/-- The largest accepted low half for a range of size `r`: `r` shifted up to fill 64 bits,
less one. -/
def zone (r : Nat) : Nat := (r <<< (63 - Nat.log2 r)) - 1

/-- A uniform value in `[lo, lo + r)` for `0 < r < 2^64`, by rejection with `fuel` tries. -/
def uniformFuel (lo r : Nat) : Nat → XorShift → Nat × XorShift
  | 0, g => (lo, g)
  | fuel + 1, g =>
    let (v, g) := g.next64
    let m := v * r
    if m % wordCount ≤ zone r then (lo + m / wordCount, g) else uniformFuel lo r fuel g

/-- A uniform value in `[lo, hi]`. -/
def uniform (g : XorShift) (lo hi : Nat) : Nat × XorShift :=
  uniformFuel lo (hi + 1 - lo) 1024 g

end XorShift

end TemporalMotif
