/-!
# Shortest decimals

The decimal with the fewest digits that is read back as a given binary number, and of several such
decimals the nearest. A binary number stands for all reals that are rounded to it; these form an
interval from halfway to the number below to halfway to the number above. The search runs over
decimal grids, from coarse to fine, in exact arithmetic on natural numbers.
-/

namespace TropicalAlgebra

/-- The positive number `mantissa * 2 ^ exponent` with a mantissa of at most 53 bits. -/
structure Binary where
  mantissa : Nat
  exponent : Int
  /-- The number below is only half as far away as the number above. -/
  narrowBelow : Bool
  deriving DecidableEq

/-- The number `digits * 10 ^ exponent`. -/
structure Decimal where
  digits : Nat
  exponent : Int
  deriving DecidableEq

namespace Binary

/-- The magnitude of the finite double with the given bits. -/
def ofBits (bits : UInt64) : Binary :=
  let pattern : Nat := bits.toNat % Nat.pow 2 63
  let fraction : Nat := pattern % Nat.pow 2 52
  let biased : Nat := pattern / Nat.pow 2 52
  if biased = 0 then ⟨fraction, -1074, false⟩
  else ⟨Nat.pow 2 52 + fraction, (biased : Int) - 1075, fraction == 0 && decide (1 < biased)⟩

/-- The reals that round to a number, and the number itself, in units of a grid. Everything is
multiplied by `unit`, so that only natural numbers occur. -/
structure Window where
  unit : Nat
  value : Nat
  low : Nat
  high : Nat
  closed : Bool

/-- What a number looks like on the grid of the multiples of `10 ^ grid`. Its mantissa is taken
four times, so that the ends of the interval are whole. -/
def window (b : Binary) (grid : Int) : Window :=
  let exponent := b.exponent - 2
  let scale := Nat.pow 2 exponent.toNat * Nat.pow 10 (-grid).toNat
  let below := if b.narrowBelow then 1 else 2
  { unit := Nat.pow 2 (-exponent).toNat * Nat.pow 10 grid.toNat
    value := 4 * b.mantissa * scale
    low := (4 * b.mantissa - below) * scale
    high := (4 * b.mantissa + 2) * scale
    closed := b.mantissa % 2 == 0 }

/-- Whether the `n`-th point of the grid is read back as the number. -/
def Window.holds (w : Window) (n : Nat) : Bool :=
  if w.closed then w.low ≤ n * w.unit && n * w.unit ≤ w.high
  else w.low < n * w.unit && n * w.unit < w.high

/-- The point of the grid that is read back as the number and is nearest to it; of two points at
the same distance the upper one. -/
def Window.nearest? (w : Window) : Option Nat :=
  let lower := w.value / w.unit
  let upper := lower + 1
  -- the middle between both points decides if both are read back
  if w.holds lower && (!w.holds upper || 2 * w.value < (lower + upper) * w.unit) then some lower
  else if w.holds upper then some upper
  else none

/-- Whether a number is less than `10 ^ k`. -/
def ltPowerOfTen (b : Binary) (k : Int) : Bool :=
  b.mantissa * Nat.pow 2 b.exponent.toNat * Nat.pow 10 (-k).toNat <
    Nat.pow 10 k.toNat * Nat.pow 2 (-b.exponent).toNat

/-- The least of `k, …, k + tries` whose power of ten exceeds a number, if there is one. -/
def leastPower (b : Binary) (k : Int) : Nat → Int
  | 0 => k
  | tries + 1 => if b.ltPowerOfTen k then k else leastPower b (k + 1) tries

/-- The least `k` with a number below `10 ^ k`. The binary logarithm gives it up to a few steps. -/
def magnitude (b : Binary) : Int :=
  -- the decimal logarithm of two is a little less than 30103 / 100000
  b.leastPower (((b.mantissa.log2 : Int) + b.exponent) * 30103 / 100000 - 1) 5

/-- The exact value of a number. -/
def exact (b : Binary) : Decimal :=
  ⟨b.mantissa * Nat.pow 2 b.exponent.toNat * Nat.pow 5 (-b.exponent).toNat, min b.exponent 0⟩

/-- The decimal with the fewest digits, at most seventeen, that is read back as the number. -/
def shortest (b : Binary) : Decimal :=
  let grids := (List.range 17).map fun n : Nat => b.magnitude - (n + 1)
  (grids.findSome? fun grid => ((b.window grid).nearest?.map fun n => ⟨n, grid⟩)).getD b.exact

end Binary

/-- The same decimal without zeros at its end, of which at most `tries` are removed. -/
def Decimal.strip (d : Decimal) : Nat → Decimal
  | 0 => d
  | tries + 1 =>
      if d.digits % 10 = 0 then Decimal.strip ⟨d.digits / 10, d.exponent + 1⟩ tries else d

end TropicalAlgebra
