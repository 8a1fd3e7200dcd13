/-!
# `Mapsto.Decimal.Shortest` — the fewest digits that read back

A positive double is a whole number `m · 2^s` of units of `2^-1074`. The reals that round to it form an
interval around it, which holds its ends when `m` is even. A decimal `d · 10^k` reads back as the double
exactly when it lies in that interval, and it has fewest digits when `k` is greatest: so the search goes
from a coarse power of ten to finer ones, looks on each at the two multiples next to the double, and
stops at the first power of which one lies in the interval. If both do, the nearer is taken; `Tie` says
what happens half way.

All comparisons are between natural numbers, in quarters of a unit, so that nothing is rounded.
-/

namespace Mapsto.Decimal

/-- Which of two equally near digits is taken. -/
inductive Tie where
  | toEven
  | up
deriving DecidableEq

/-- The reals that round to a positive double, and the double itself, in quarters of `2^-1074`. -/
structure Rounding where
  low : Nat
  value : Nat
  high : Nat
  /-- Whether the ends belong to the interval. -/
  closed : Bool

namespace Rounding

/-- The interval of the positive finite double with the given exponent field and fraction field. The gap
below a power of two is half as wide as the gap above it. -/
def ofFields (exponent fraction : Nat) : Rounding :=
  let m := if exponent = 0 then fraction else fraction + Nat.pow 2 52
  let s := exponent - 1
  let below := if fraction = 0 ∧ 1 < exponent then 1 else 2
  { low := (4 * m - below) * Nat.pow 2 s
    value := 4 * m * Nat.pow 2 s
    high := (4 * m + 2) * Nat.pow 2 s
    closed := m % 2 == 0 }

/-- How many quarters of a unit make `1`. -/
def one : Nat := Nat.pow 2 1076

/-- The factor by which both sides are multiplied when numbers are compared with multiples of `10^k`. -/
def scale (k : Int) : Nat := Nat.pow 10 (-k).toNat

/-- `10^k` in quarters of a unit, times `scale k`. -/
def step (k : Int) : Nat := one * Nat.pow 10 k.toNat

/-- Whether `d · 10^k` lies in the interval. -/
def holds (r : Rounding) (d : Nat) (k : Int) : Bool :=
  let x := d * step k
  let low := r.low * scale k
  let high := r.high * scale k
  if r.closed then decide (low ≤ x) && decide (x ≤ high) else decide (low < x) && decide (x < high)

/-- The nearer of the multiples `d` and `d + 1` of `10^k`, of which the double lies between. -/
def nearer (r : Rounding) (tie : Tie) (d : Nat) (k : Int) : Nat :=
  let twice := 2 * (r.value * scale k - d * step k)
  if twice < step k then d
  else if step k < twice then d + 1
  else match tie with
    | .up => d + 1
    | .toEven => if d % 2 = 0 then d else d + 1

/-- The multiple of `10^k` that reads back as the double, if there is one. -/
def onGrid? (r : Rounding) (tie : Tie) (k : Int) : Option Nat :=
  let d := r.value * scale k / step k
  match r.holds d k, r.holds (d + 1) k with
  | true, true => some (r.nearer tie d k)
  | true, false => some d
  | false, true => some (d + 1)
  | false, false => none

/-- Tries the powers of ten from `k` downwards, `fuel` of them. -/
def search (r : Rounding) (tie : Tie) : (fuel : Nat) → (k : Int) → Nat × Int
  | 0, k => (r.value * scale k / step k, k)
  | fuel + 1, k =>
    match r.onGrid? tie k with
    | some d => (d, k)
    | none => search r tie fuel (k - 1)

/-- A power of ten above the double: `30103 / 100000` is a little more than the logarithm of two. -/
def above (r : Rounding) : Int :=
  ((r.value.log2 : Int) - 1075) * 30103 / 100000 + 1

/-- The digits `d` and the exponent `k` of the shortest decimal `d · 10^k` that reads back. Seventeen
digits always do, and the search starts at most two powers above the first of them. -/
def shortest (r : Rounding) (tie : Tie) : Nat × Int :=
  r.search tie 20 r.above

end Rounding

end Mapsto.Decimal
