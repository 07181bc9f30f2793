import Sigil.Number.Binary

/-!
# Decimals

Reading a decimal as a float, and the shortest decimal that reads back as a
given float. A decimal is kept as a whole number of digits and a power of
ten; both directions compare exact integers and round once.
-/

namespace Sigil

/-- The number `digits · 10 ^ exponent`. -/
structure Decimal where
  digits : Nat
  exponent : Int
deriving DecidableEq, Repr

namespace Decimal

-- powers are those of the core library, also where others are known
attribute [local instance (high)] instPowNat

/-- How many decimal digits a number has; zero has one. -/
def digitCount (n : Nat) : Nat :=
  (Nat.toDigits 10 n).length

/-- The float nearest to a decimal. Beyond four hundred places on either side of the point every
decimal is infinite or zero, whatever its digits. -/
def toFloat (d : Decimal) : Float :=
  let places := digitCount d.digits + d.exponent
  if d.digits = 0 ∨ places < -400 then 0
  else if 400 < places then Float.ofScientific 1 false 400
  else if d.exponent < 0 then Float.ofScientific d.digits true (-d.exponent).toNat
  else Float.ofScientific d.digits false d.exponent.toNat

/-- How `a · 10 ^ i` compares with `n · 2 ^ j`. -/
def compareScaled (a : Nat) (i : Int) (n : Nat) (j : Int) : Ordering :=
  compare (a * 10 ^ i.toNat * 2 ^ (-j).toNat) (n * 2 ^ j.toNat * 10 ^ (-i).toNat)

/-- Whether a decimal lies among the reals that round to `significand · 2 ^ exponent`: from halfway
to the float below to halfway to the float above, the ends included when the significand is
even. -/
def readsBack (significand : Nat) (exponent : Int) (d : Decimal) : Bool :=
  let low := if Binary.narrowBelow significand exponent then 4 * significand - 1
    else 4 * significand - 2
  let high := 4 * significand + 2
  let closed := significand % 2 = 0
  let fromLow := compareScaled d.digits d.exponent low (exponent - 2)
  let fromHigh := compareScaled d.digits d.exponent high (exponent - 2)
  (fromLow == .gt || (closed && fromLow == .eq)) &&
    (fromHigh == .lt || (closed && fromHigh == .eq))

/-- The least power of ten above `significand · 2 ^ exponent`, as its exponent. -/
def scale (significand : Nat) (exponent : Int) : Int :=
  digitCount (significand * 2 ^ exponent.toNat * 10 ^ (400 : Nat) / 2 ^ (-exponent).toNat) - 400

/-- The multiple of `10 ^ place` that reads back and is nearest, if one does: one of the value's two
neighbours on that grid, the even one when they are equally near. -/
def onGrid (significand : Nat) (exponent : Int) (place : Int) : Option Decimal :=
  let below := significand * 2 ^ exponent.toNat * 10 ^ (-place).toNat /
    (2 ^ (-exponent).toNat * 10 ^ place.toNat)
  let down : Decimal := ⟨below, place⟩
  let up : Decimal := ⟨below + 1, place⟩
  match readsBack significand exponent down, readsBack significand exponent up with
  | false, false => none
  | true, false => some down
  | false, true => some up
  | true, true =>
    match compareScaled (2 * below + 1) place (2 * significand) exponent with
    | .gt => some down
    | .lt => some up
    | .eq => some (if below % 2 = 0 then down else up)

/-- The same number without zeros at the end of its digits. -/
def stripZeros : Nat → Decimal → Decimal
  | 0, d => d
  | fuel + 1, d =>
    if d.digits % 10 = 0 ∧ d.digits ≠ 0 then stripZeros fuel ⟨d.digits / 10, d.exponent + 1⟩ else d

/-- The shortest decimal that reads back as `significand · 2 ^ exponent`, the nearest of those. Some
decimal of seventeen digits always does; the exact value stands in should none be found. -/
def shortest (significand : Nat) (exponent : Int) : Decimal :=
  let top := scale significand exponent
  match (List.range 17).findSome? fun (i : Nat) => onGrid significand exponent (top - (i + 1)) with
  | some d => stripZeros (digitCount d.digits) d
  | none =>
    ⟨significand * 2 ^ exponent.toNat * 5 ^ (-exponent).toNat, -(-exponent).toNat⟩

/-- How a decimal is laid out: positionally when the power of ten of its first digit lies in a
range, with an exponent otherwise. -/
structure Layout where
  /-- The smallest power of ten written positionally. -/
  least : Int
  /-- The power of ten from which on an exponent is written. -/
  limit : Int
  /-- The least number of digits of the exponent. -/
  exponentDigits : Nat

/-- Zeros. -/
def zeros (n : Nat) : List Char :=
  List.replicate n '0'

/-- The text of a decimal. Positional text always has a point and a digit on either side of it. -/
def layOut (style : Layout) (d : Decimal) : List Char :=
  let ds := Nat.toDigits 10 d.digits
  let point := ds.length + d.exponent
  let first := point - 1
  if style.least ≤ first ∧ first < style.limit then
    if point ≤ 0 then '0' :: '.' :: (zeros (-point).toNat ++ ds)
    else if ds.length ≤ point then ds ++ zeros (point - ds.length).toNat ++ ['.', '0']
    else ds.take point.toNat ++ '.' :: ds.drop point.toNat
  else
    let power := Nat.toDigits 10 first.natAbs
    let fraction := if ds.length ≤ 1 then [] else '.' :: ds.drop 1
    ds.take 1 ++ fraction ++ 'e' :: (if first < 0 then '-' else '+') ::
      (zeros (style.exponentDigits - power.length) ++ power)

end Decimal

end Sigil
