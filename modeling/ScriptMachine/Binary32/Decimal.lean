import ScriptMachine.Binary32

/-!
# Decimal text of binary numbers

A finite number is written with the fewest digits that read back as itself. The
reals that round to `m · 2 ^ q` form an interval around it (`Neighbourhood`),
whose ends belong to it exactly when `m` is even. Decimals of a given precision
form a grid `10 ^ g · ℕ`; on the coarsest grid with a point in the interval, the
point nearest to the number is its shortest decimal (`shortest`). Only the two
grid points around the number have to be looked at: if any point of the grid
lies in the interval, so does one of these.

How a decimal is laid out, in positional or in scientific notation, is a matter
of the format that writes it, gathered in one record (`Layout`).
-/

namespace ScriptMachine

/-- The decimal fraction `digits · 10 ^ exponent`. -/
structure Decimal where
  digits : Nat
  exponent : Int
deriving DecidableEq, Inhabited

namespace Decimal

/-- The exponent of the leading digit. -/
def leadingExponent (d : Decimal) : Int :=
  d.exponent + (Nat.toDigits 10 d.digits).length - 1

end Decimal

/-- Which of two equally near decimals is taken. -/
inductive Tie where
  /-- The larger one. -/
  | up
  /-- The one whose last digit is even. -/
  | even
deriving DecidableEq, Inhabited

namespace Binary32

/-- The reals that round to a number, in units of `2 ^ exponent`: those from
    `low` to `high`, with the ends if `closed`, and the number itself. -/
structure Neighbourhood where
  low : Nat
  value : Nat
  high : Nat
  exponent : Int
  closed : Bool

/-- The interval that rounds to a finite number. Below a power of two the next
    number is only half as far away. -/
def neighbourhood (x : Binary32) : Neighbourhood where
  low := 4 * x.significand - if x.significand = exponentUnit ∧ -149 < x.exponent then 1 else 2
  value := 4 * x.significand
  high := 4 * x.significand + 2
  exponent := x.exponent - 2
  closed := x.significand % 2 == 0

/-- The multiple of `10 ^ g` in the interval that is nearest to its number. -/
def Neighbourhood.onGrid (n : Neighbourhood) (tie : Tie) (g : Int) : Option Nat :=
  -- Both sides are multiplied by what makes them natural numbers.
  let unit := Nat.pow 10 g.toNat <<< (-n.exponent).toNat
  let scale := Nat.pow 10 (-g).toNat <<< n.exponent.toNat
  let inside (c : Nat) : Bool :=
    if n.closed then decide (n.low * scale ≤ c * unit ∧ c * unit ≤ n.high * scale)
    else decide (n.low * scale < c * unit ∧ c * unit < n.high * scale)
  let below := n.value * scale / unit
  let rest := n.value * scale % unit
  match inside below, inside (below + 1) with
  | false, false => none
  | true, false => some below
  | false, true => some (below + 1)
  | true, true =>
    if 2 * rest < unit then some below
    else if unit < 2 * rest then some (below + 1)
    else match tie with
      | .up => some (below + 1)
      | .even => some (below + below % 2)

/-- The first hit on the grids `10 ^ g`, `10 ^ (g - 1)`, … -/
def Neighbourhood.search (n : Neighbourhood) (tie : Tie) : Nat → Int → Decimal
  | 0, g => ⟨0, g⟩
  | fuel + 1, g =>
    match n.onGrid tie g with
    | some c => ⟨c, g⟩
    | none => n.search tie fuel (g - 1)

/-- The shortest decimal that reads back as the magnitude of a finite number
    other than zero. No such number reaches `10 ^ 39`, and on the grid of
    `10 ^ -54` every one of them is hit. -/
def shortest (tie : Tie) (x : Binary32) : Decimal :=
  x.neighbourhood.search tie 94 39

/-- How numbers are laid out. -/
structure Layout where
  /-- The least exponent of a leading digit that is written positionally. -/
  least : Int
  /-- The greatest exponent of a leading digit that is written positionally. -/
  greatest : Int
  /-- What follows the only digit of a scientific mantissa. -/
  wholeMantissa : String
  /-- What stands before a scientific exponent that is not negative. -/
  upwards : String
  /-- What stands before a negative scientific exponent. -/
  downwards : String
  /-- The decimal taken when two are equally near. -/
  tie : Tie
  /-- Infinity. -/
  infinite : String
  /-- Negative infinity. -/
  negativeInfinite : String
  /-- What is not a number. -/
  notANumber : String

namespace Layout

/-- Digits with a point behind the leading one. -/
def scientific (l : Layout) (d : Decimal) : String :=
  let digits := Nat.toDigits 10 d.digits
  let mantissa := match digits with
    | [c] => c.toString ++ l.wholeMantissa
    | c :: rest => c.toString ++ "." ++ String.ofList rest
    | [] => ""
  let e := d.leadingExponent
  mantissa ++ (if e < 0 then l.downwards else l.upwards) ++ toString e.natAbs

/-- Digits around a point at their place, with a digit on both sides of it. -/
def positional (d : Decimal) : String :=
  let digits := Nat.toDigits 10 d.digits
  let zeros (n : Int) : String := String.ofList (List.replicate n.toNat '0')
  let e := d.leadingExponent
  if 0 ≤ d.exponent then
    String.ofList digits ++ zeros d.exponent ++ ".0"
  else if 0 ≤ e then
    String.ofList (digits.take (e + 1).toNat) ++ "." ++ String.ofList (digits.drop (e + 1).toNat)
  else
    "0." ++ zeros (-e - 1) ++ String.ofList digits

/-- The text of a number. -/
def render (l : Layout) (x : Binary32) : String :=
  if x.isNaN then l.notANumber
  else if x.isInfinite then
    if x.negative then l.negativeInfinite else l.infinite
  else
    let sign := if x.negative then "-" else ""
    if x.isZero then sign ++ "0.0"
    else
      let d := shortest l.tie x
      if l.least ≤ d.leadingExponent ∧ d.leadingExponent ≤ l.greatest then
        sign ++ positional d
      else
        sign ++ l.scientific d

end Layout

end Binary32

end ScriptMachine
