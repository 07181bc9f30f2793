import Sigil.Node.Printer

/-!
# Values

What a script computes with: data, the runs of commands among them, and
closures. A closure knows the frame that it was made in, so that it sees what
becomes of the names there; two closures are the same only if they were made
by the same evaluation of the same definition.
-/

namespace Sigil

/-- A frame of the store, by its place there. -/
abbrev FrameId := Nat

/-- A function as a value. -/
structure Closure where
  /-- Tells closures apart: every evaluation of a definition makes another one. -/
  id : Nat
  name : Option String
  params : List Param
  returns : Option Ty
  bodySpan : Option Span
  body : List Node
  /-- The frame that the definition was evaluated in. -/
  scope : FrameId

namespace Closure

/-- The type that the definition declares. -/
def signature (c : Closure) : Ty :=
  .ofSignature (c.params.map (·.declared)) c.returns

/-- A closure as text: its definition without the body. -/
def text (c : Closure) : String :=
  let name := match c.name with
    | some n => if n = "" then "" else " " ++ n
    | none => ""
  let returns := match c.returns with
    | some t => " -> " ++ t.text
    | none => ""
  "<fn" ++ name ++ "(" ++ ", ".intercalate (c.params.map fun p => String.ofList p.source) ++ ")" ++
    returns ++ ">"

/-- A closure as messages name it. -/
def describe (c : Closure) : String :=
  match c.name with
  | some n => if n = "" then "anonymous function" else n
  | none => "anonymous function"

end Closure

/-- A value of a script. -/
inductive Value where
  | datum (d : Datum)
  | closure (c : Closure)

namespace Value

@[match_pattern] abbrev unit : Value := .datum .unit
@[match_pattern] abbrev bool (b : Bool) : Value := .datum (.bool b)
@[match_pattern] abbrev number (n : Number) : Value := .datum (.number n)
@[match_pattern] abbrev int (n : Int) : Value := .datum (.int n)
@[match_pattern] abbrev float (x : Float) : Value := .datum (.float x)
@[match_pattern] abbrev string (s : String) : Value := .datum (.text s)
@[match_pattern] abbrev run (r : CommandRun) : Value := .datum (.run r)

instance : Inhabited Value := ⟨unit⟩

/-- The type of a value. -/
def type : Value → Ty
  | unit => .unit
  | bool _ => .bool
  | int _ => .int
  | float _ => .float
  | string _ => .string
  | run _ => .command
  | closure c => c.signature

/-- The text that a value stands for where a text is wanted. -/
def asText : Value → Option String
  | string s => some s
  | run r => some r.text
  | _ => none

/-- Whether a value may be kept where a type is declared. The run of a command may stand for the
text that it wrote. -/
def fits (declared : Option Ty) (v : Value) : Bool :=
  match declared, v with
  | none, _ => true
  | some .string, run _ => true
  | some t, v => t.accepts v.type

/-- A value as the argument of a command, or in a string; an integer may be too long for it. -/
def argument? : Value → Option String
  | unit => some "()"
  | bool b => some (if b then "true" else "false")
  | int n => if Number.isWritable n then some (Number.intText n) else none
  | float x => some (Number.floatText x)
  | string s => some s
  | run r => some r.text
  | closure c => some c.text

/-- A value as it is shown to the user; an integer may be too long for it. -/
def display? : Value → Option String
  | string s => some (String.ofList (quoteText s))
  | v => v.argument?

/-- A value as a listing of names shows it; an integer may be too long for it. -/
def describe? : Value → Option String
  | unit => some "()"
  | bool b => some (if b then "True" else "False")
  | int n => if Number.isWritable n then some (Number.intText n) else none
  | float x => some (Number.floatText x)
  | string s => some (Text.quoted s)
  | run r => some r.describe
  | closure c => some c.text

end Value

end Sigil
