import Clausal.Decimal.Binary64

/-!
# Printing binary numbers in decimal

Whole numbers print exactly, with one zero after the point. Every other finite number prints with
the fewest digits that read back as the same number, and of those with the nearest; the text is
positional, never with an exponent.
-/
namespace Clausal.Decimal

/-- `value / den` with the interval from `low / den` to `high / den` of reals that round to it. -/
structure Rounding where
  low : Nat
  value : Nat
  high : Nat
  den : Nat
  /-- Whether the ends of the interval round to the value too. -/
  closed : Bool
  deriving DecidableEq, Repr

namespace Rounding

/-- The reals that round to a finite number. Below a power of two the next number is only half as
far away as above it. -/
def of (x : Binary64) : Rounding :=
  let m := x.coefficient
  let nearBelow := x.fraction = 0 ∧ 1 < x.biasedExponent
  -- in units of a quarter of the coefficient's unit, times 2 ^ 1076 / 2 ^ scale
  let grow := Nat.pow 2 x.scale
  { low := (4 * m - if nearBelow then 1 else 2) * grow
    value := 4 * m * grow
    high := (4 * m + 2) * grow
    den := Nat.pow 2 1076
    closed := m % 2 = 0 }

def contains (r : Rounding) (num den : Nat) : Bool :=
  let n := num * r.den
  let lo := r.low * den
  let hi := r.high * den
  if r.closed then lo ≤ n && n ≤ hi else lo < n && n < hi

end Rounding

/-- A decimal `digits * 10 ^ power`. -/
structure Written where
  digits : Nat
  power : Int
  deriving DecidableEq, Repr

/-- The least power of ten above `num / den`, counting down from `start`. -/
def decimalTop (num den : Nat) : Nat → Int → Int
  | 0, top => top
  | fuel + 1, top =>
    let below := top - 1
    let fits := if 0 ≤ below then num < den * Nat.pow 10 below.toNat
      else num * Nat.pow 10 (-below).toNat < den
    if fits then decimalTop num den fuel below else top

/-- The nearer of the two neighbours on the grid of multiples of `10 ^ power` that lie in the
interval, if any does; the upper one if both are equally near. -/
def onGrid (r : Rounding) (power : Int) : Option Written :=
  -- a multiple `k` stands for `k * up / down`
  let up := if 0 ≤ power then Nat.pow 10 power.toNat else 1
  let down := if 0 ≤ power then 1 else Nat.pow 10 (-power).toNat
  let below := r.value * down / (r.den * up)
  let above := below + 1
  let fitsBelow := r.contains (below * up) down
  let fitsAbove := r.contains (above * up) down
  let gapBelow := r.value * down - below * up * r.den
  let gapAbove := above * up * r.den - r.value * down
  if fitsBelow && (!fitsAbove || gapBelow < gapAbove) then some ⟨below, power⟩
  else if fitsAbove then some ⟨above, power⟩
  else none

/-- The first grid, from coarse to fine, that meets the interval. Seventeen digits always do. -/
def shortestFrom (r : Rounding) (top : Int) : Nat → Nat → Written
  | 0, n => ⟨r.value / r.den, n⟩
  | fuel + 1, n =>
    match onGrid r (top - n) with
    | some w => w
    | none => shortestFrom r top fuel (n + 1)

/-- Moves zeros at the end of the digits into the power. -/
def Written.reduce : Nat → Written → Written
  | 0, w => w
  | fuel + 1, w => if w.digits % 10 = 0 then reduce fuel ⟨w.digits / 10, w.power + 1⟩ else w

def shortest (x : Binary64) : Written :=
  let r := Rounding.of x
  (shortestFrom r (decimalTop r.value r.den 700 310) 17 1).reduce 17

/-- The digits with their point in place. -/
def Written.positional (w : Written) : String :=
  let digits := Nat.toDigits 10 w.digits
  if 0 ≤ w.power then String.ofList (digits ++ List.replicate w.power.toNat '0')
  else
    let places := (-w.power).toNat
    let padded := List.replicate (places + 1 - digits.length) '0' ++ digits
    let whole := padded.take (padded.length - places)
    let part := padded.drop (padded.length - places)
    String.ofList (whole ++ '.' :: part)

/-- The whole number that a finite number is, if it is one. -/
def whole? (x : Binary64) : Option Nat :=
  let num := x.coefficient * Nat.pow 2 x.scale
  if num % Nat.pow 2 1074 = 0 then some (num / Nat.pow 2 1074) else none

def render (x : Binary64) : String :=
  if x.isNaN then "NaN"
  else
    let sign := if x.isNegative then "-" else ""
    if x.isInfinite then sign ++ "inf"
    else
      match whole? x with
      | some n => sign ++ toString n ++ ".0"
      | none => sign ++ (shortest x).positional

end Clausal.Decimal
