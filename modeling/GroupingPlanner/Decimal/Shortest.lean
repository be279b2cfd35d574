/-!
# The fewest decimal digits that read back as a given double

A positive finite double `m · 2^q` is what every real close enough to it is read as.  Those reals
form an interval around it, and the shortest text for the double is the point of that interval
that lies on the coarsest grid `…, 100, 10, 1, 0.1, …` having a point in it at all.

Everything is exact arithmetic on `Nat`.

* `Neighbourhood`: the interval, with its ends counted in units of `1 / den`.
* `Neighbourhood.nearestOn`: the point of the interval on one grid that is nearest to the double.
  If the interval meets a grid, it holds one of the two grid points next to the double.
* `Neighbourhood.shortest`: the first hit, from coarse to fine.
* `neighbourhood`: the interval of the double with given exponent and fraction fields.
-/

namespace GroupingPlanner.Decimal

/-- A power of ten. -/
def tenTo (n : Nat) : Nat := Nat.pow 10 n

/-- A power of two. -/
def twoTo (n : Nat) : Nat := Nat.pow 2 n

/-- The decimal `digits · 10 ^ exponent`. -/
structure Scaled where
  digits : Nat
  exponent : Int
deriving DecidableEq, Repr

/-- The reals that are read as one positive double: from `low / den` to `high / den`, around the
double itself, which is `value / den`. -/
structure Neighbourhood where
  low : Nat
  value : Nat
  high : Nat
  den : Nat
  /-- Whether the two ends are read as the double too. -/
  closed : Bool
deriving DecidableEq, Repr

namespace Neighbourhood

/-- Whether a decimal is read as the double. -/
def contains (n : Neighbourhood) (d : Scaled) : Bool :=
  let scale := tenTo (-d.exponent).toNat
  let x := d.digits * tenTo d.exponent.toNat * n.den
  if n.closed then decide (n.low * scale ≤ x) && decide (x ≤ n.high * scale)
  else decide (n.low * scale < x) && decide (x < n.high * scale)

/-- The multiple of `10 ^ k` that is read as the double and lies nearest to it; of two equally
near ones, the greater. -/
def nearestOn (n : Neighbourhood) (k : Int) : Option Scaled :=
  let scaled := n.value * tenTo (-k).toNat
  let unit := tenTo k.toNat * n.den
  let below : Scaled := ⟨scaled / unit, k⟩
  let above : Scaled := ⟨scaled / unit + 1, k⟩
  match n.contains below, n.contains above with
  | true, true => some (if 2 * (scaled % unit) < unit then below else above)
  | true, false => some below
  | false, true => some above
  | false, false => none

/-- The first hit on the grids `10 ^ k`, `10 ^ (k - 1)`, …, as many as `count` says. -/
def firstHit (n : Neighbourhood) : (count : Nat) → (k : Int) → Option Scaled
  | 0, _ => none
  | count + 1, k => (n.nearestOn k).or (firstHit n count (k - 1))

/-- The number of decimal digits of the integer part. -/
def integerDigits (n : Neighbourhood) : Nat := (Nat.toDigits 10 (n.value / n.den)).length

/-- The shortest decimal that is read as the double.  The search starts on a grid coarser than
the double and ends below the finest one that any double needs, `10 ^ -343`. -/
def shortest (n : Neighbourhood) : Scaled :=
  (n.firstHit (n.integerDigits + 345) n.integerDigits).getD ⟨0, 0⟩

end Neighbourhood

/-- The neighbourhood of the positive double with exponent field `e` and fraction field `f`.

The double is `m · 2^q`, and half way to the next double on either side is half a unit of its last
place, except that the doubles below a power of two lie twice as dense.  Counting in quarters of
that unit makes all three numbers whole.  The ends are read as the double if `m` is even. -/
def neighbourhood (e f : Nat) : Neighbourhood :=
  let m := if e = 0 then f else twoTo 52 + f
  -- the quarter unit is `2 ^ (e' - 1077)`
  let e' := if e = 0 then 1 else e
  let unit := twoTo (e' - 1077)
  { low := (if f = 0 ∧ 1 < e then 4 * m - 1 else 4 * m - 2) * unit
    value := 4 * m * unit
    high := (4 * m + 2) * unit
    den := twoTo (1077 - e')
    closed := m % 2 == 0 }

end GroupingPlanner.Decimal
