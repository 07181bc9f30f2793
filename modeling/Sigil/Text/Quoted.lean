import Sigil.Text.Printable

/-!
# Quoted text

The form in which messages show a piece of text: between single quotes, or
between double quotes when the text holds a single quote and no double one.
The quote in use and the backslash are escaped, the characters that are not
printable are written by their code point.
-/

namespace Sigil.Text

-- powers are those of the core library, also where others are known
attribute [local instance (high)] instPowNat

/-- The last `width` hexadecimal digits of a number, in lower case. -/
def hexDigits (width n : Nat) : List Char :=
  (List.range width).reverse.map fun i => Nat.digitChar (n / 16 ^ i % 16)

/-- One character between the quotes `mark`. -/
def quoteChar (mark c : Char) : List Char :=
  if c = mark ∨ c = '\\' then ['\\', c]
  else if c = '\n' then ['\\', 'n']
  else if c = '\r' then ['\\', 'r']
  else if c = '\t' then ['\\', 't']
  else if isPrintable c then [c]
  else if c.toNat < 0x100 then '\\' :: 'x' :: hexDigits 2 c.toNat
  else if c.toNat < 0x10000 then '\\' :: 'u' :: hexDigits 4 c.toNat
  else '\\' :: 'U' :: hexDigits 8 c.toNat

/-- The quotes that a text is shown in. -/
def quoteMark (cs : List Char) : Char :=
  if '\'' ∈ cs ∧ '"' ∉ cs then '"' else '\''

/-- A text as messages show it. -/
def quoted (s : String) : String :=
  let mark := quoteMark s.toList
  String.ofList (mark :: (s.toList.flatMap (quoteChar mark) ++ [mark]))

end Sigil.Text
