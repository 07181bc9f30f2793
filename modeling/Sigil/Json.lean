import Sigil.Number
import Sigil.Text.Quoted

/-!
# JSON values

Values as they travel over a connection, and two ways of writing them: as one
line of JSON, and as messages show them.
-/

namespace Sigil

/-- A JSON value. Integers are told from other numbers; the fields of an object are in the order in
which they were first written. -/
inductive Json where
  | null
  | bool (b : Bool)
  | int (n : Int)
  | float (x : Float)
  | string (s : String)
  | array (items : List Json)
  | object (fields : List (String × Json))
deriving Inhabited

namespace Json

/-- The value of a field, if this is an object that has it. -/
def field? (j : Json) (key : String) : Option Json :=
  match j with
  | object fields => (fields.find? (·.1 = key)).map (·.2)
  | _ => none

/-! ## One line of JSON -/

/-- The two code units of a character beyond the basic plane, or its only one. -/
def codeUnits (c : Char) : List Nat :=
  if c.toNat < 0x10000 then [c.toNat]
  else [0xD800 + (c.toNat - 0x10000) / 0x400, 0xDC00 + (c.toNat - 0x10000) % 0x400]

/-- A character within a string: ASCII as itself, everything else escaped by its code units. -/
def escapeChar (c : Char) : List Char :=
  if c = '"' ∨ c = '\\' then ['\\', c]
  else if c = '\n' then ['\\', 'n']
  else if c = '\r' then ['\\', 'r']
  else if c = '\t' then ['\\', 't']
  else if c = '\x08' then ['\\', 'b']
  else if c = '\x0c' then ['\\', 'f']
  else if 0x20 ≤ c.toNat ∧ c.toNat < 0x7F then [c]
  else (codeUnits c).flatMap fun u => '\\' :: 'u' :: Text.hexDigits 4 u

/-- A string in quotes. -/
def renderString (s : String) : String :=
  String.ofList ('"' :: (s.toList.flatMap escapeChar ++ ['"']))

/-- A float; the values that are no number have names. -/
def renderFloat (x : Float) : String :=
  match Binary.ofFloat x with
  | .nan => "NaN"
  | .infinite negative => if negative then "-Infinity" else "Infinity"
  | .finite .. => Number.floatText x

mutual

/-- A value on one line, with a blank after commas and colons. -/
def render : Json → String
  | null => "null"
  | bool b => if b then "true" else "false"
  | int n => Number.intText n
  | float x => renderFloat x
  | string s => renderString s
  | array items => "[" ++ ", ".intercalate (renderItems items) ++ "]"
  | object fields => "\x7b" ++ ", ".intercalate (renderFields fields) ++ "\x7d"

@[inherit_doc render]
def renderItems : List Json → List String
  | [] => []
  | item :: items => item.render :: renderItems items

@[inherit_doc render]
def renderFields : List (String × Json) → List String
  | [] => []
  | (key, value) :: fields => (renderString key ++ ": " ++ value.render) :: renderFields fields

end

/-! ## As messages show it -/

mutual

/-- A value within a list or an object, as messages show it. -/
def describeItem : Json → String
  | null => "None"
  | bool b => if b then "True" else "False"
  | int n => Number.intText n
  | float x => Number.floatText x
  | string s => Text.quoted s
  | array items => "[" ++ ", ".intercalate (describeItems items) ++ "]"
  | object fields => "\x7b" ++ ", ".intercalate (describeFields fields) ++ "\x7d"

@[inherit_doc describeItem]
def describeItems : List Json → List String
  | [] => []
  | item :: items => item.describeItem :: describeItems items

@[inherit_doc describeItem]
def describeFields : List (String × Json) → List String
  | [] => []
  | (key, value) :: fields =>
    (Text.quoted key ++ ": " ++ value.describeItem) :: describeFields fields

end

/-- A value as messages show it; a string that stands alone has no quotes. -/
def describe : Json → String
  | string s => s
  | j => j.describeItem

end Json

end Sigil
