/-!
# Static types

The types that scripts may declare and that the checker infers. `dynamic`
goes with every other type; `unknown` does too, and marks an expression whose
type could not be inferred. The main definitions are when a value of one type
may stand where another is required (`Ty.accepts`), and the type that several
types have in common (`Ty.join`).
-/

namespace Sigil

/-- The types without parts. -/
inductive Primitive where
  | unit
  | bool
  | int
  | float
  | string
  | command
deriving DecidableEq, Repr

/-- The name of a type without parts. -/
def Primitive.name : Primitive → String
  | .unit => "Unit"
  | .bool => "Bool"
  | .int => "Int"
  | .float => "Float"
  | .string => "String"
  | .command => "Command"

/-- A static type. -/
inductive Ty where
  | dynamic
  | unknown
  | primitive (p : Primitive)
  | fn (params : List Ty) (returns : Ty)
deriving Repr, Inhabited

namespace Ty

@[match_pattern] abbrev unit : Ty := .primitive .unit
@[match_pattern] abbrev bool : Ty := .primitive .bool
@[match_pattern] abbrev int : Ty := .primitive .int
@[match_pattern] abbrev float : Ty := .primitive .float
@[match_pattern] abbrev string : Ty := .primitive .string
@[match_pattern] abbrev command : Ty := .primitive .command

mutual

/-- Types are compared part by part. -/
def decEq : (a b : Ty) → Decidable (a = b)
  | .dynamic, .dynamic => isTrue rfl
  | .unknown, .unknown => isTrue rfl
  | .primitive p, .primitive q =>
    if h : p = q then isTrue (h ▸ rfl) else isFalse fun e => h (Ty.primitive.inj e)
  | .fn ps r, .fn qs s =>
    match decEqAll ps qs, decEq r s with
    | isTrue h, isTrue k => isTrue (h ▸ k ▸ rfl)
    | isFalse h, _ => isFalse fun e => h (Ty.fn.inj e).1
    | _, isFalse k => isFalse fun e => k (Ty.fn.inj e).2
  | .dynamic, .unknown | .dynamic, .primitive _ | .dynamic, .fn .. => isFalse nofun
  | .unknown, .dynamic | .unknown, .primitive _ | .unknown, .fn .. => isFalse nofun
  | .primitive _, .dynamic | .primitive _, .unknown | .primitive _, .fn .. => isFalse nofun
  | .fn .., .dynamic | .fn .., .unknown | .fn .., .primitive _ => isFalse nofun

@[inherit_doc decEq]
def decEqAll : (as bs : List Ty) → Decidable (as = bs)
  | [], [] => isTrue rfl
  | [], _ :: _ | _ :: _, [] => isFalse nofun
  | a :: as, b :: bs =>
    match decEq a b, decEqAll as bs with
    | isTrue h, isTrue k => isTrue (h ▸ k ▸ rfl)
    | isFalse h, _ => isFalse fun e => h (List.cons.inj e).1
    | _, isFalse k => isFalse fun e => k (List.cons.inj e).2

end

instance : DecidableEq Ty := decEq

/-! ## Names -/

mutual

/-- A type as scripts and messages write it. -/
def text : Ty → String
  | dynamic => "Any"
  | unknown => "Unknown"
  | primitive p => p.name
  | fn params returns => "Fn(" ++ ", ".intercalate (texts params) ++ ") -> " ++ returns.text

@[inherit_doc text]
def texts : List Ty → List String
  | [] => []
  | t :: ts => t.text :: texts ts

end

/-- The type that a name stands for in scripts. -/
def ofName? (name : String) : Option Ty :=
  if name = "Any" then some dynamic
  else [Primitive.unit, .bool, .int, .float, .string, .command].find? (·.name = name)
    |>.map primitive

/-! ## Compatibility -/

/-- Whether a type goes with every other. -/
def isDynamic : Ty → Bool
  | dynamic | unknown => true
  | _ => false

/-- Whether a type is that of numbers. -/
def isNumeric : Ty → Bool
  | int | float => true
  | _ => false

mutual

/-- Whether a value of one of two types may stand where the other is required. The flag says that
the first type is the one required; it turns over at the parameters of functions. -/
def fits (required : Bool) : Ty → Ty → Bool
  | dynamic, _ | unknown, _ => true
  | _, dynamic | _, unknown => true
  | primitive p, primitive q =>
    p = q || (if required then p = .float && q = .int else p = .int && q = .float)
  | fn ps r, fn qs s => fitsAll (!required) ps qs && fits required r s
  | primitive _, fn .. | fn .., primitive _ => false

/-- `fits` for two lists of types, which must have the same length. -/
def fitsAll (required : Bool) : List Ty → List Ty → Bool
  | [], [] => true
  | a :: as, b :: bs => fits required a b && fitsAll required as bs
  | [], _ :: _ | _ :: _, [] => false

end

/-- Whether a value of type `actual` may stand where `required` is required: an integer may stand
for a float, a function for one whose parameters it takes and whose results it gives, and a dynamic
type anywhere. -/
def accepts (required actual : Ty) : Bool :=
  fits true required actual

/-- The type that several types have in common: theirs if they agree, `float` if all are numbers,
and `dynamic` otherwise. -/
def join : List Ty → Ty
  | [] => unit
  | t :: ts =>
    if ts.all (· = t) then t
    else if (t :: ts).all isNumeric then float
    else dynamic

/-- The type of a function from what is declared of it; what is not declared is dynamic. -/
def ofSignature (params : List (Option Ty)) (returns : Option Ty) : Ty :=
  fn (params.map (·.getD dynamic)) (returns.getD dynamic)

end Ty

end Sigil
