import Sigil.Number.Decimal

/-!
# Numbers

Integers of any size and floats, their order, their arithmetic and their
text. Integers and floats mix: an integer becomes the nearest float before
it takes part in arithmetic with one, and is compared with it exactly.
-/

namespace Sigil

/-- A number of the language. -/
inductive Number where
  | int (n : Int)
  | float (x : Float)
deriving DecidableEq

namespace Number

-- powers are those of the core library, also where others are known
attribute [local instance (high)] instPowNat

/-! ## Order -/

/-- The place of a number on the line: `at m e` is `m · 2 ^ e`. -/
inductive Place where
  | belowAll
  | at (m e : Int)
  | aboveAll
deriving DecidableEq, Repr

/-- The place of a number; a float that is no number has none. -/
def place : Number → Option Place
  | .int n => some (.at n 0)
  | .float x =>
    match Binary.ofFloat x with
    | .nan => none
    | .infinite negative => some (if negative then .belowAll else .aboveAll)
    | .finite negative significand exponent =>
      some (.at (if negative then -significand else significand) exponent)

/-- The order of two places, computed on a common power of two. -/
def Place.compare : Place → Place → Ordering
  | .at m e, .at n f =>
    let g := min e f
    Ord.compare (m * 2 ^ (e - g).toNat) (n * 2 ^ (f - g).toNat)
  | .belowAll, .belowAll | .aboveAll, .aboveAll => .eq
  | .belowAll, _ | _, .aboveAll => .lt
  | .aboveAll, _ | _, .belowAll => .gt

/-- The order of two numbers; there is none if one of them is no number. -/
def compare? (a b : Number) : Option Ordering := do
  return (← a.place).compare (← b.place)

/-- Whether two numbers are equal, whatever their kinds. -/
def equal (a b : Number) : Bool :=
  compare? a b == some .eq

/-- Whether a number is zero of either sign. -/
def isZero (a : Number) : Bool :=
  a.equal (.int 0)

/-! ## Arithmetic -/

/-- Why an arithmetic operation has no result. -/
inductive Fault where
  | divisionByZero
  | remainderByZero
  /-- An integer is too large to take part as a float. -/
  | outOfRange
deriving DecidableEq, Repr

/-- The nearest float; there is none for an integer that rounds beyond the largest float. -/
def toFloat? : Number → Option Float
  | .float x => some x
  | .int n =>
    let x := Float.ofInt n
    match Binary.ofFloat x with
    | .finite .. => some x
    | _ => none

/-- The remainder that truncated division leaves, which is exact and has the sign of `x`. -/
def truncatedRemainder (x y : Float) : Float :=
  match Binary.ofFloat x, Binary.ofFloat y with
  | .finite negative m e, .finite _ n f =>
    let g := min e f
    Binary.pack negative (m * 2 ^ (e - g).toNat % (n * 2 ^ (f - g).toNat)) g
  | .finite .., .infinite _ => x
  | _, _ => 0 / 0

/-- The remainder with the sign of the divisor. -/
def floatRemainder (x y : Float) : Float :=
  let r := truncatedRemainder x y
  if r == 0 then (if y < 0 then -0.0 else 0.0)
  else if decide (y < 0) != decide (r < 0) then r + y else r

/-- An operation that works on integers and on floats; a mixed pair is taken as floats. -/
def combine (onInts : Int → Int → Int) (onFloats : Float → Float → Float) :
    Number → Number → Except Fault Number
  | .int a, .int b => .ok (.int (onInts a b))
  | a, b =>
    match a.toFloat?, b.toFloat? with
    | some x, some y => .ok (.float (onFloats x y))
    | _, _ => .error .outOfRange

/-- The sum. -/
def add : Number → Number → Except Fault Number :=
  combine (· + ·) (· + ·)

/-- The difference. -/
def sub : Number → Number → Except Fault Number :=
  combine (· - ·) (· - ·)

/-- The product. -/
def mul : Number → Number → Except Fault Number :=
  combine (· * ·) (· * ·)

/-- The quotient: of two integers the greatest integer not above it, otherwise the float. -/
def div (a b : Number) : Except Fault Number :=
  if b.isZero then .error .divisionByZero else combine Int.fdiv (· / ·) a b

/-- The remainder, with the sign of the divisor. -/
def mod (a b : Number) : Except Fault Number :=
  if b.isZero then .error .remainderByZero else combine Int.fmod floatRemainder a b

/-- The number with the other sign. -/
def neg : Number → Number
  | .int n => .int (-n)
  | .float x => .float (-x)

/-! ## Text -/

/-- An integer with more digits than this has no text, and no literal is longer. -/
def maxDigits : Nat := 4300

/-- Whether an integer is short enough to be written out. -/
def isWritable (n : Int) : Bool :=
  n.natAbs < 10 ^ maxDigits

/-- An integer in decimal. -/
def intText (n : Int) : String :=
  String.ofList ((if n < 0 then ['-'] else []) ++ Nat.toDigits 10 n.natAbs)

/-- Floats are written with the fewest digits that identify them, positionally from `0.0001` to
below `10 ^ 16` and otherwise with a signed exponent of two digits or more. -/
def floatLayout : Decimal.Layout := ⟨-4, 16, 2⟩

/-- A float as text. -/
def floatText (x : Float) : String :=
  match Binary.ofFloat x with
  | .nan => "nan"
  | .infinite negative => if negative then "-inf" else "inf"
  | .finite negative significand exponent =>
    let digits :=
      if significand = 0 then ['0', '.', '0']
      else (Decimal.shortest significand exponent).layOut floatLayout
    String.ofList (if negative then '-' :: digits else digits)

end Number

end Sigil
