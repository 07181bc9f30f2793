import Sigil.Json

/-!
# Reading JSON

A JSON text as a value, or why it has none: the first fault in it, or an
integer before it that is too long to be read (`Failure`). Besides the
standard's values the names of the floats that are no number are read.
-/

namespace Sigil.Json

/-- What is wrong with a text. -/
inductive Problem where
  | byteOrderMark
  | noValue
  | noPropertyName
  | noColon
  | noComma
  | extraData
  | openString
  | controlCharacter
  | unknownEscape
  | malformedUnicodeEscape
deriving DecidableEq, Repr

/-- The problem in words. -/
def Problem.message : Problem → String
  | byteOrderMark => "Unexpected UTF-8 BOM (decode using utf-8-sig)"
  | noValue => "Expecting value"
  | noPropertyName => "Expecting property name enclosed in double quotes"
  | noColon => "Expecting ':' delimiter"
  | noComma => "Expecting ',' delimiter"
  | extraData => "Extra data"
  | openString => "Unterminated string starting at"
  | controlCharacter => "Invalid control character at"
  | unknownEscape => "Invalid \\escape"
  | malformedUnicodeEscape => "Invalid \\uXXXX escape"

/-- A problem and the offset where it was found. -/
structure Fault where
  problem : Problem
  offset : Nat
deriving DecidableEq, Repr

/-- The fault in words, with its place in the text. -/
def Fault.message (source : List Char) (f : Fault) : String :=
  let before := source.take f.offset
  let line := before.count '\n' + 1
  let column := (before.reverse.takeWhile (· ≠ '\n')).length + 1
  s!"{f.problem.message}: line {line} column {column} (char {f.offset})"

/-- Why a text was not read. -/
inductive Failure where
  | malformed (fault : Fault)
  /-- An integer has more digits than are read. -/
  | longInteger (digits : Nat)
deriving DecidableEq, Repr

/-- The failure in words. -/
def Failure.message (source : List Char) : Failure → String
  | malformed f => f.message source
  | longInteger digits =>
    s!"Exceeds the limit ({Number.maxDigits} digits) for integer string conversion: " ++
      s!"value has {digits} digits; use sys.set_int_max_str_digits() to increase the limit"

/-- What is left of a text, and its offset. -/
structure Rest where
  offset : Nat
  chars : List Char

namespace Rest

/-- What is left after some characters. -/
def drop (r : Rest) (n : Nat) : Rest := ⟨r.offset + n, r.chars.drop n⟩

/-- What is left after blanks. -/
def skipBlanks (r : Rest) : Rest :=
  r.drop (r.chars.takeWhile (· ∈ [' ', '\t', '\n', '\r'])).length

/-- A fault here. -/
def fault (r : Rest) (p : Problem) : Fault := ⟨p, r.offset⟩

end Rest

/-- The value of hexadecimal digits. -/
def hexValue? (cs : List Char) : Option Nat :=
  cs.foldl (fun n c => do
    let n ← n
    let d ←
      if c.isDigit then some (c.toNat - '0'.toNat)
      else if 'a' ≤ c ∧ c ≤ 'f' then some (c.toNat - 'a'.toNat + 10)
      else if 'A' ≤ c ∧ c ≤ 'F' then some (c.toNat - 'A'.toNat + 10)
      else none
    return 16 * n + d) (some 0)

/-- The code unit that four hexadecimal digits name, if more text follows them. -/
def codeUnit? (cs : List Char) : Option Nat :=
  if cs.length ≤ 4 then none else hexValue? (cs.take 4)

/-- What a character means after a backslash. -/
def unescape : Char → Option Char
  | '"' => some '"'
  | '\\' => some '\\'
  | '/' => some '/'
  | 'b' => some '\x08'
  | 'f' => some '\x0c'
  | 'n' => some '\n'
  | 'r' => some '\r'
  | 't' => some '\t'
  | _ => none

/-- The character of a code unit and the escape after it, and whether that escape was used. Half of
a pair without the other half is no character; the replacement character stands for it. -/
def joinUnits (high : Nat) (following : List Char) : Char × Bool :=
  if 0xD800 ≤ high ∧ high < 0xDC00 then
    match following with
    | '\\' :: 'u' :: cs =>
      match codeUnit? cs with
      | some low =>
        if 0xDC00 ≤ low ∧ low < 0xE000 then
          (Char.ofNat (0x10000 + (high - 0xD800) * 0x400 + (low - 0xDC00)), true)
        else ('\ufffd', false)
      | none => ('\ufffd', false)
    | _ => ('\ufffd', false)
  else if 0xDC00 ≤ high ∧ high < 0xE000 then ('\ufffd', false)
  else (Char.ofNat high, false)

/-- Reads a string after its opening quote, which stood at `opened`. `text` is what was read
already, in reverse. -/
def stringFrom (opened : Nat) (text : List Char) (r : Rest) : Except Fault (String × Rest) :=
  match _h : r.chars with
  | [] | ['\\'] => .error ⟨.openString, opened⟩
  | '"' :: _ => .ok (String.ofList text.reverse, r.drop 1)
  | '\\' :: 'u' :: cs =>
    match codeUnit? cs with
    | none => .error ⟨.malformedUnicodeEscape, r.offset + 1⟩
    | some unit =>
      let (c, paired) := joinUnits unit (cs.drop 4)
      stringFrom opened (c :: text) (r.drop (if paired then 12 else 6))
  | '\\' :: c :: _ =>
    match unescape c with
    | none => .error ⟨.unknownEscape, r.offset⟩
    | some d => stringFrom opened (d :: text) (r.drop 2)
  | c :: _ =>
    if c.toNat < 0x20 then .error ⟨.controlCharacter, r.offset⟩
    else stringFrom opened (c :: text) (r.drop 1)
termination_by r.chars.length
decreasing_by
  all_goals
    simp only [Rest.drop, List.length_drop, _h, List.length_cons]
    try split
    all_goals omega

/-- The value of decimal digits. -/
def digitsValue (ds : List Char) : Nat :=
  ds.foldl (fun n c => 10 * n + (c.toNat - '0'.toNat)) 0

/-- Reads a number: its integer part without needless zeros, then a fraction and an exponent, each
only if it has digits. -/
def number (r : Rest) : Except Failure (Json × Rest) :=
  let sign := r.chars.takeWhile (· = '-') |>.take 1
  let cs := r.chars.drop sign.length
  let whole := match cs with
    | '0' :: _ => ['0']
    | _ => cs.takeWhile Char.isDigit
  if whole.isEmpty then .error (.malformed (r.fault .noValue))
  else
    let cs := cs.drop whole.length
    let fraction := match cs with
      | '.' :: ds => ds.takeWhile Char.isDigit
      | _ => []
    let cs := if fraction.isEmpty then cs else cs.drop (fraction.length + 1)
    let (mark, power) := match cs with
      | e :: ds =>
        if e = 'e' ∨ e = 'E' then
          let mark := match ds with
            | '+' :: _ => ['+']
            | '-' :: _ => ['-']
            | _ => []
          (mark, (ds.drop mark.length).takeWhile Char.isDigit)
        else ([], [])
      | [] => ([], [])
    let rest := r.drop (sign.length + whole.length +
      (if fraction.isEmpty then 0 else fraction.length + 1) +
      (if power.isEmpty then 0 else mark.length + power.length + 1))
    if fraction.isEmpty ∧ power.isEmpty then
      if whole.length > Number.maxDigits then .error (.longInteger whole.length)
      else
        let n : Int := digitsValue whole
        .ok (.int (if sign.isEmpty then n else -n), rest)
    else
      let exponent : Int := if mark = ['-'] then -(digitsValue power) else digitsValue power
      let x := Decimal.toFloat ⟨digitsValue (whole ++ fraction), exponent - fraction.length⟩
      .ok (.float (if sign.isEmpty then x else -x), rest)

/-- The values that are written as names. -/
def names : List (String × Json) :=
  [("null", .null), ("true", .bool true), ("false", .bool false), ("NaN", .float (0 / 0)),
   ("Infinity", .float (1 / 0)), ("-Infinity", .float (-1 / 0))]

/-- The fields of an object with one more, which takes the place of an earlier one of its name. -/
def putField (fields : List (String × Json)) (key : String) (value : Json) :
    List (String × Json) :=
  if fields.any (·.1 = key) then
    fields.map fun field => if field.1 = key then (key, value) else field
  else fields ++ [(key, value)]

mutual

/-- Reads a value. The first argument bounds the depth of the reading; twice the length of the text
is enough. -/
def valueAt : Nat → Rest → Except Failure (Json × Rest)
  | 0, r => .error (.malformed (r.fault .noValue))
  | fuel + 1, r =>
    match r.chars with
    | '"' :: _ => do
      let (s, rest) ← (stringFrom r.offset [] (r.drop 1)).mapError .malformed
      return (.string s, rest)
    | '\x7b' :: _ =>
      let r := (r.drop 1).skipBlanks
      match r.chars with
      | '\x7d' :: _ => .ok (.object [], r.drop 1)
      | _ => fieldsAt fuel [] r
    | '[' :: _ =>
      let r := (r.drop 1).skipBlanks
      match r.chars with
      | ']' :: _ => .ok (.array [], r.drop 1)
      | _ => itemsAt fuel [] r
    | cs =>
      match names.find? (fun (name, _) => name.toList.isPrefixOf cs) with
      | some (name, value) => .ok (value, r.drop name.length)
      | none => number r

/-- Reads the rest of an array, at an item. -/
def itemsAt : Nat → List Json → Rest → Except Failure (Json × Rest)
  | 0, _, r => .error (.malformed (r.fault .noValue))
  | fuel + 1, items, r => do
    let (item, r) ← valueAt fuel r
    let r := r.skipBlanks
    match r.chars with
    | ']' :: _ => return (.array (items ++ [item]), r.drop 1)
    | ',' :: _ => itemsAt fuel (items ++ [item]) (r.drop 1).skipBlanks
    | _ => throw (.malformed (r.fault .noComma))

/-- Reads the rest of an object, at a field. -/
def fieldsAt : Nat → List (String × Json) → Rest → Except Failure (Json × Rest)
  | 0, _, r => .error (.malformed (r.fault .noValue))
  | fuel + 1, fields, r =>
    match r.chars with
    | '"' :: _ => do
      let (key, r) ← (stringFrom r.offset [] (r.drop 1)).mapError .malformed
      let r := r.skipBlanks
      match r.chars with
      | ':' :: _ =>
        let (value, r) ← valueAt fuel (r.drop 1).skipBlanks
        let r := r.skipBlanks
        let fields := putField fields key value
        match r.chars with
        | '\x7d' :: _ => return (.object fields, r.drop 1)
        | ',' :: _ => fieldsAt fuel fields (r.drop 1).skipBlanks
        | _ => throw (.malformed (r.fault .noComma))
      | _ => throw (.malformed (r.fault .noColon))
    | _ => .error (.malformed (r.fault .noPropertyName))

end

/-- Reads a whole text. -/
def read (source : List Char) : Except Failure Json :=
  if source.head? = some '\ufeff' then .error (.malformed ⟨.byteOrderMark, 0⟩)
  else do
    let (value, r) ← valueAt (2 * source.length + 2) (Rest.skipBlanks ⟨0, source⟩)
    let r := r.skipBlanks
    if r.chars.isEmpty then return value else throw (.malformed (r.fault .extraData))

end Sigil.Json
