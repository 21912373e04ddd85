/-!
# Binary numbers of thirty-two bits

The fractional numbers of a script are binary floating-point numbers with one
sign bit, eight bits of exponent and twenty-three bits of fraction. A number is
its bits (`Binary32`); every finite one denotes

  `± significand · 2 ^ exponent`

with a natural `significand` and an integral `exponent`, and the *magnitude*
(the bits below the sign) grows with that value, so comparing two numbers is
comparing two integers (`orderKey`).

Arithmetic is exact arithmetic followed by one rounding (`round`), which goes to
the nearest number and, when two are equally near, to the one with the even
significand. Every operation of this module is therefore a short computation on
naturals and integers; nothing depends on the floating-point unit.
-/

namespace ScriptMachine

/-- A binary floating-point number of thirty-two bits. -/
structure Binary32 where
  /-- Sign, exponent and fraction, the sign in the highest bit. -/
  bits : BitVec 32
deriving DecidableEq, Inhabited

namespace Binary32

/-! ## Reading the bits -/

/-- The value of the sign bit. -/
def signUnit : Nat := 0x80000000

/-- The value of the lowest bit of the exponent, which is also the weight of the
    implicit leading one. -/
def exponentUnit : Nat := 0x800000

/-- The magnitude of the infinities; all larger magnitudes are not numbers. -/
def infinityMagnitude : Nat := 255 * exponentUnit

/-- Is the sign bit set? -/
def negative (x : Binary32) : Bool := x.bits.msb

/-- The bits below the sign, as a natural number. -/
def magnitude (x : Binary32) : Nat := x.bits.toNat % signUnit

/-- Is `x` not a number? -/
def isNaN (x : Binary32) : Bool := decide (infinityMagnitude < x.magnitude)

/-- Is `x` one of the two infinities? -/
def isInfinite (x : Binary32) : Bool := x.magnitude == infinityMagnitude

/-- Is `x` one of the two zeros? -/
def isZero (x : Binary32) : Bool := x.magnitude == 0

/-- The significand of a finite number: its fraction, with the implicit leading
    one unless the exponent field is zero. -/
def significand (x : Binary32) : Nat :=
  if x.magnitude < exponentUnit then x.magnitude
  else x.magnitude % exponentUnit + exponentUnit

/-- The power of two that the significand of a finite number counts. -/
def exponent (x : Binary32) : Int :=
  if x.magnitude < exponentUnit then -149 else (x.magnitude / exponentUnit : Nat) - 150

/-- The number with the given sign and magnitude. -/
def ofMagnitude (negative : Bool) (magnitude : Nat) : Binary32 :=
  ⟨BitVec.ofNat 32 (magnitude + if negative then signUnit else 0)⟩

/-- Zero with the given sign. -/
def zero (negative : Bool) : Binary32 := ofMagnitude negative 0

/-- Infinity with the given sign. -/
def infinity (negative : Bool) : Binary32 := ofMagnitude negative infinityMagnitude

/-- The value of operations that have no result. -/
def nan : Binary32 := ofMagnitude false (infinityMagnitude + exponentUnit / 2)

/-- One half. -/
def half : Binary32 := ofMagnitude false (126 * exponentUnit)

/-! ## Rounding -/

/-- The natural number nearest to `num / den`; the even one of two nearest. -/
def nearestQuotient (num den : Nat) : Nat :=
  let q := num / den
  let r := num % den
  if 2 * r < den then q
  else if den < 2 * r then q + 1
  else q + q % 2

/-- The largest `l` with `2 ^ l ≤ num / den`, for positive `num` and `den`. -/
def floorLog2 (num den : Nat) : Int :=
  let l : Int := (num.log2 : Int) - den.log2
  if den <<< l.toNat ≤ num <<< (-l).toNat then l else l - 1

/-- The number nearest to `± num / den`, for positive `den`. The significand has
    twenty-four bits unless the exponent would fall below its least value; a
    result beyond the largest finite number is infinite. -/
def round (negative : Bool) (num den : Nat) : Binary32 :=
  if num = 0 then
    zero negative
  else
    let q := max (-149) (floorLog2 num den - 23)
    let m := nearestQuotient (num <<< (-q).toNat) (den <<< q.toNat)
    ofMagnitude negative (min ((q + 149).toNat * exponentUnit + m) infinityMagnitude)

/-- The number nearest to `± m · 2 ^ e`. -/
def roundScaled (negative : Bool) (m : Nat) (e : Int) : Binary32 :=
  round negative (m <<< e.toNat) (1 <<< (-e).toNat)

/-- The number nearest to an integer. -/
def ofInt (n : Int) : Binary32 := round (decide (n < 0)) n.natAbs 1

/-- The number nearest to `digits · 10 ^ exponent`. -/
def ofDecimal (digits : Nat) (exponent : Int) : Binary32 :=
  round false (digits * Nat.pow 10 exponent.toNat) (Nat.pow 10 (-exponent).toNat)

/-! ## Arithmetic -/

/-- The number with the other sign. -/
def neg (x : Binary32) : Binary32 := ofMagnitude (!x.negative) x.magnitude

/-- A finite number as a multiple of `2 ^ e`, for `e` not above its exponent. -/
def signedAt (x : Binary32) (e : Int) : Int :=
  let m : Int := (x.significand <<< (x.exponent - e).toNat : Nat)
  if x.negative then -m else m

/-- The rounded sum. An exact zero is negative only if both operands are. -/
def add (x y : Binary32) : Binary32 :=
  if x.isNaN || y.isNaN then nan
  else if x.isInfinite then
    if y.isInfinite && x.negative != y.negative then nan else x
  else if y.isInfinite then y
  else
    let e := min x.exponent y.exponent
    let s := x.signedAt e + y.signedAt e
    if s = 0 then zero (x.negative && y.negative)
    else roundScaled (decide (s < 0)) s.natAbs e

/-- The rounded difference. -/
def sub (x y : Binary32) : Binary32 :=
  if y.isNaN then nan else x.add y.neg

/-- The rounded product. -/
def mul (x y : Binary32) : Binary32 :=
  let s := x.negative != y.negative
  if x.isNaN || y.isNaN then nan
  else if x.isInfinite || y.isInfinite then
    if x.isZero || y.isZero then nan else infinity s
  else roundScaled s (x.significand * y.significand) (x.exponent + y.exponent)

/-- The rounded quotient. -/
def div (x y : Binary32) : Binary32 :=
  let s := x.negative != y.negative
  if x.isNaN || y.isNaN then nan
  else if x.isInfinite then
    if y.isInfinite then nan else infinity s
  else if y.isInfinite then zero s
  else if y.isZero then
    if x.isZero then nan else infinity s
  else
    let e := x.exponent - y.exponent
    round s (x.significand <<< e.toNat) (y.significand <<< (-e).toNat)

/-! ## Comparison -/

/-- An integer that orders the numbers by value; both zeros have the key zero. -/
def orderKey (x : Binary32) : Int :=
  if x.negative then -(x.magnitude : Int) else x.magnitude

/-- Do two numbers stand in the relation `r` on their order keys? What is not a
    number stands in no relation, not even to itself. -/
def related (r : Int → Int → Bool) (x y : Binary32) : Bool :=
  !x.isNaN && !y.isNaN && r x.orderKey y.orderKey

/-- Numerical equality. -/
def eq (x y : Binary32) : Bool := related (· == ·) x y

/-! ## Integers -/

/-- The largest integer not above a finite number. -/
def floor (x : Binary32) : Int :=
  x.signedAt (min x.exponent 0) / (1 <<< (-x.exponent).toNat : Nat)

/-- The largest word not above the number, the nearest bound for numbers beyond
    the range of words, and zero for what is not a number. -/
def floorToWord (x : Binary32) : Int32 :=
  if x.isNaN then 0
  else if x.isInfinite then
    if x.negative then Int32.minValue else Int32.maxValue
  else Int32.ofInt (max (-2147483648) (min 2147483647 x.floor))

end Binary32

end ScriptMachine
