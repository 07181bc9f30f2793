import Sigil.Value

/-!
# Operators on values

Equality, order and arithmetic of values. Numbers compare and compute with
numbers, texts with texts, the run of a command counting as the text that it
wrote; truth values are no numbers.
-/

namespace Sigil

/-- Why an operation has no result. -/
inductive OperatorFault where
  | mismatch (symbol : String) (left right : Ty)
  | divisionByZero
  | remainderByZero
  | outOfRange (symbol : String)
deriving DecidableEq

namespace Value

/-- Whether two values are equal. Closures are equal only to themselves; of two runs everything is
compared, of a run and a text the text. -/
def equal : Value → Value → Bool
  | closure a, closure b => a.id = b.id
  | closure _, _ | _, closure _ => false
  | number a, number b => a.equal b
  | run r, string s => r.text = s
  | string s, run r => s = r.text
  | datum a, datum b => a = b

/-- The order of two values that have one: numbers, or texts by their characters. Nothing is said of
a float that is no number. -/
def order? (a b : Value) : Option (Option Ordering) :=
  match a, b with
  | number m, number n => some (m.compare? n)
  | a, b =>
    match a.asText, b.asText with
    | some s, some t => some (some (compare s t))
    | _, _ => none

/-- Whether an order of two values is one that a comparison asks for. -/
def holds (op : BinaryOperator) (o : Option Ordering) : Bool :=
  match op, o with
  | .less, some .lt | .lessEqual, some .lt | .lessEqual, some .eq => true
  | .greater, some .gt | .greaterEqual, some .gt | .greaterEqual, some .eq => true
  | _, _ => false

/-- The fault of operands that an operator is not made for. -/
def mismatched (op : BinaryOperator) (a b : Value) : OperatorFault :=
  .mismatch op.symbol a.type b.type

/-- The result of a comparison. -/
def compare (op : BinaryOperator) (a b : Value) : Except OperatorFault Bool :=
  match op with
  | .equal => .ok (a.equal b)
  | .unequal => .ok (!a.equal b)
  | _ =>
    match a.order? b with
    | some o => .ok (holds op o)
    | none => .error (mismatched op a b)

/-- The operation on numbers that an operator stands for. -/
def numeric? : BinaryOperator → Option (Number → Number → Except Number.Fault Number)
  | .add => some Number.add
  | .sub => some Number.sub
  | .mul => some Number.mul
  | .div => some Number.div
  | .mod => some Number.mod
  | _ => none

/-- The result of an arithmetic operation; `+` also joins texts. -/
def arithmetic (op : BinaryOperator) (a b : Value) : Except OperatorFault Value :=
  match op, a.asText, b.asText with
  | .add, some s, some t => .ok (string (s ++ t))
  | _, _, _ =>
    match a, b, numeric? op with
    | number m, number n, some f =>
      match f m n with
      | .ok r => .ok (number r)
      | .error .divisionByZero => .error .divisionByZero
      | .error .remainderByZero => .error .remainderByZero
      | .error .outOfRange => .error (.outOfRange op.symbol)
    | _, _, _ => .error (mismatched op a b)

/-- Arithmetic gives data. -/
theorem arithmetic_datum {op : BinaryOperator} {a b c : Value} (h : a.arithmetic op b = .ok c) :
    ∃ d, c = datum d := by
  unfold arithmetic at h
  split at h
  · cases h
    exact ⟨_, rfl⟩
  · split at h
    · split at h <;> cases h
      exact ⟨_, rfl⟩
    · cases h

end Value

end Sigil
