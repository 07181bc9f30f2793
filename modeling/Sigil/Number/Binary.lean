/-!
# The exact content of a float

A float is a sign, a significand and a binary exponent, or one of the values
that are no number. Whatever has to be exact about floats (their text, their
order, their remainder) is computed on this content with integers.
-/

namespace Sigil

/-- What a float stands for: `finite negative significand exponent` is
`± significand · 2 ^ exponent`. -/
inductive Binary where
  | nan
  | infinite (negative : Bool)
  | finite (negative : Bool) (significand : Nat) (exponent : Int)
deriving DecidableEq, Repr

namespace Binary

-- powers are those of the core library, also where others are known
attribute [local instance (high)] instPowNat

/-- The content of a float, read off its bits. -/
def ofFloat (x : Float) : Binary :=
  let bits := x.toBits.toNat
  let negative := decide (2 ^ (63 : Nat) ≤ bits)
  let biased : Nat := bits / 2 ^ (52 : Nat) % 2 ^ (11 : Nat)
  let fraction := bits % 2 ^ (52 : Nat)
  if biased = 2047 then
    if fraction = 0 then .infinite negative else .nan
  else if biased = 0 then .finite negative fraction (-1074)
  else .finite negative (2 ^ (52 : Nat) + fraction) ((biased : Int) - 1075)

/-- The float `± significand · 2 ^ exponent`, where a float has that value: the significand is
brought to 53 binary digits, or to the smallest exponent. -/
def pack (negative : Bool) (significand : Nat) (exponent : Int) : Float :=
  let target := max (exponent + significand.log2 - 52) (-1074)
  let scaled :=
    if exponent ≤ target then significand / 2 ^ (target - exponent).toNat
    else significand * 2 ^ (exponent - target).toNat
  let biased := if scaled < 2 ^ (52 : Nat) then 0 else (target + 1075).toNat
  let sign := if negative then 2 ^ (63 : Nat) else 0
  Float.ofBits (UInt64.ofNat (sign + biased * 2 ^ (52 : Nat) + scaled % 2 ^ (52 : Nat)))

/-- Whether the gap to the next smaller float is half the gap to the next larger one. -/
def narrowBelow (significand : Nat) (exponent : Int) : Bool :=
  significand = 2 ^ (52 : Nat) && exponent > -1074

end Binary

end Sigil
