import Sigil.Token

/-!
# Reading tokens

Cutting a view of a text into tokens. Blanks and comments separate tokens;
the longest operator wins; a word that starts with a slash or a dash needs a
letter after it, so that both can be operators too. Reading stops at the
first fault: the result holds the tokens before it.
-/

namespace Sigil

/-- Why a text cannot be cut into tokens. -/
inductive LexFault where
  | openString
  | openSubstitution
  | openReference
  | malformedReference
  /-- No name after a sigil; the character found there, if there is one. -/
  | missingName (found : Option Char)
  | unknownEscape (c : Char)
  | unexpected (c : Char)
  | integerTooLong
deriving DecidableEq, Repr

namespace LexFault

/-- The fault in words. -/
def message : LexFault → String
  | openString => "unterminated string literal"
  | openSubstitution => "unterminated '$(' command substitution"
  | openReference => "unterminated '$\x7b' variable reference"
  | malformedReference => "malformed '$\x7b...\x7d' variable reference"
  | missingName none => "expected a variable name after '$'"
  | missingName (some c) => "expected a variable name after '$', found " ++ Text.quoted c.toString
  | unknownEscape c => "invalid escape sequence '\\" ++ c.toString ++ "'"
  | unexpected c => "unexpected character " ++ Text.quoted c.toString
  | integerTooLong => "integer literal too large"

/-- Whether more text could still complete the token. -/
def isIncomplete : LexFault → Bool
  | openString | openSubstitution | openReference => true
  | _ => false

end LexFault

/-- A fault and the place where it was found. -/
structure LexError where
  fault : LexFault
  position : Position
deriving DecidableEq, Repr

/-- The tokens of a view: all of them, the last one standing for its end, or those before a
fault. -/
structure Lexed where
  tokens : List Token
  error : Option LexError
deriving DecidableEq

/-- One more token in front. -/
def Lexed.cons (t : Token) (l : Lexed) : Lexed := { l with tokens := t :: l.tokens }

namespace Lexer

/-! ## Character classes and plain tokens -/

/-- A letter, a digit or an underscore. -/
def isNameChar (c : Char) : Bool := c.isAlphanum || c = '_'

/-- What a name may start with. -/
def isNameStart (c : Char) : Bool := c.isAlpha || c = '_'

/-- What a word may hold. -/
def isWordChar (c : Char) : Bool := c.isAlphanum || c ∈ ['_', '.', '-', '/', '~', '+', ':', '@']

/-- Whether a word starts here. -/
def startsWord : List Char → Bool
  | '/' :: c :: _ => c.isAlpha || c ∈ ['_', '.', '~', '/']
  | '-' :: c :: _ => c.isAlpha || c = '-'
  | c :: _ => c.isAlpha || c ∈ ['_', '.', '~']
  | [] => false

/-- The operators, longer ones before their beginnings. -/
def operators : List String :=
  ["==", "!=", "<=", ">=", "&&", "||", "->", "<", ">", "+", "-", "*", "/", "%", "!", "=", ":"]

/-- The marks of one character that are no operators. -/
def delimiters : List Char := ['(', ')', '{', '}', ',', ';']

/-- How many characters of blanks and comments come first. A comment runs from a hash mark to the
end of its line. -/
def gapLength (inComment : Bool) : List Char → Nat
  | [] => 0
  | c :: cs =>
    if Text.isBlank c then gapLength (inComment && c ≠ '\n') cs + 1
    else if inComment || c = '#' then gapLength true cs + 1
    else 0

/-- The longest number at the start of a text: its digits, the digits after the point, and the
exponent's sign and digits. -/
structure NumberText where
  whole : List Char
  fraction : List Char
  exponent : Option (List Char × List Char)
deriving DecidableEq, Repr

/-- Reads an exponent mark with its digits. -/
def exponentText : List Char → Option (List Char × List Char)
  | e :: cs =>
    if e = 'e' ∨ e = 'E' then
      let sign := match cs with
        | '+' :: _ => ['+']
        | '-' :: _ => ['-']
        | _ => []
      match (cs.drop sign.length).takeWhile Char.isDigit with
      | [] => none
      | ds => some (sign, ds)
    else none
  | [] => none

/-- Reads the digits after a point; a point without digits is not part of the number. -/
def fractionText : List Char → List Char
  | '.' :: cs => cs.takeWhile Char.isDigit
  | _ => []

/-- Reads a number. -/
def numberText (cs : List Char) : NumberText :=
  let whole := cs.takeWhile Char.isDigit
  let rest := cs.drop whole.length
  let fraction := fractionText rest
  let rest := if fraction.isEmpty then rest else rest.drop (fraction.length + 1)
  ⟨whole, fraction, exponentText rest⟩

namespace NumberText

/-- How many characters the number has. -/
def length (t : NumberText) : Nat :=
  t.whole.length + (if t.fraction.isEmpty then 0 else t.fraction.length + 1) +
    match t.exponent with
    | none => 0
    | some (sign, ds) => sign.length + ds.length + 1

/-- The value of decimal digits. -/
def digitsValue (ds : List Char) : Nat :=
  ds.foldl (fun n c => 10 * n + (c.toNat - '0'.toNat)) 0

/-- What the number says: an integer if it has neither point nor exponent. -/
def content (t : NumberText) : Except LexFault Token.Content :=
  if t.fraction.isEmpty && t.exponent.isNone then
    if t.whole.length ≤ Number.maxDigits then .ok (.integer (digitsValue t.whole))
    else .error .integerTooLong
  else
    let power : Int := match t.exponent with
      | none => 0
      | some (sign, ds) => if sign = ['-'] then -(digitsValue ds) else digitsValue ds
    .ok (.float (Decimal.toFloat ⟨digitsValue (t.whole ++ t.fraction), power - t.fraction.length⟩))

end NumberText

/-! ## References -/

/-- A text without the pair of equal quotes around it, if there is one. -/
def stripQuotes (cs : List Char) : List Char :=
  match cs, cs.getLast? with
  | c :: d :: _, some last =>
    if c = last ∧ (c = '"' ∨ c = '\'') then (cs.drop 1).dropLast else c :: d :: cs.drop 2
  | _, _ => cs

/-- A reference: its name, its default, and how many characters it has after the sigil. -/
structure Reference where
  name : List Char
  default : Option (List Char)
  length : Nat
deriving DecidableEq, Repr

/-- Reads what follows `$\x7b`. A reference that the text ends within can still be completed. -/
def bracedReference (cs : List Char) : Except LexFault Reference :=
  let name := cs.takeWhile isNameChar
  let proper := name.head?.any isNameStart
  match cs.drop name.length with
  | [] | [':'] => .error .openReference
  | '}' :: _ => if proper then .ok ⟨name, none, name.length + 2⟩ else .error .malformedReference
  | ':' :: '-' :: rest =>
    let default := rest.takeWhile (· ≠ '}')
    if default.length = rest.length then .error .openReference
    else if proper then .ok ⟨name, some (stripQuotes default), name.length + default.length + 4⟩
    else .error .malformedReference
  | _ => .error .malformedReference

/-- Reads what follows a sigil. -/
def reference : List Char → Except LexFault Reference
  | '{' :: cs => bracedReference cs
  | c :: cs =>
    if isNameStart c then
      let name := c :: cs.takeWhile isNameChar
      .ok ⟨name, none, name.length⟩
    else .error (.missingName (some c))
  | [] => .error (.missingName none)

/-! ## Strings -/

/-- What encloses a character within a substitution: the substitution itself at some depth of
parentheses, a raw string, a string, or a backslash in a string. Each knows where the construct was
opened that a missing end is reported for. -/
inductive Enclosure where
  | substitution (opened : Position) (depth : Nat)
  | raw (opened : Position) (depth : Nat)
  | string (opened : Position)
  | escape (opened : Position)
deriving DecidableEq, Repr

namespace Enclosure

/-- The fault of a text that ends within an enclosure. -/
def unclosed : Enclosure → LexError
  | substitution opened _ | raw opened _ => ⟨.openSubstitution, opened⟩
  | string opened | escape opened => ⟨.openString, opened⟩

/-- The enclosures after the character `c` at `p`, innermost first. Parentheses nest, those in
strings do not count, and a substitution in a string has strings of its own. -/
def next (p : Position) (c : Char) (following : Option Char) : List Enclosure → List Enclosure
  | [] => []
  | substitution opened depth :: outer =>
    if c = ')' then if depth ≤ 1 then outer else substitution opened (depth - 1) :: outer
    else if c = '(' then substitution opened (depth + 1) :: outer
    else if c = '"' then string p :: substitution opened depth :: outer
    else if c = '\'' then raw opened depth :: outer
    else substitution opened depth :: outer
  | raw opened depth :: outer =>
    if c = '\'' then substitution opened depth :: outer else raw opened depth :: outer
  | string opened :: outer =>
    if c = '"' then outer
    else if c = '\\' then escape opened :: outer
    else if c = '$' ∧ following = some '(' then substitution p 0 :: string opened :: outer
    else string opened :: outer
  | escape opened :: outer => string opened :: outer

end Enclosure

/-- How many characters come before the one that closes the outermost enclosure. -/
def closing (enclosures : List Enclosure) (p : Position) : List Char → Except LexError Nat
  | [] =>
    match enclosures with
    | [] => .ok 0
    | innermost :: _ => .error innermost.unclosed
  | c :: cs =>
    match Enclosure.next p c cs.head? enclosures with
    | [] => .ok 0
    | enclosures => (closing enclosures (p.step c) cs).map (· + 1)

/-- What a character means after a backslash. -/
def escape : Char → Option Char
  | 'n' => some '\n'
  | 't' => some '\t'
  | 'r' => some '\r'
  | '0' => some '\x00'
  | '\\' => some '\\'
  | '"' => some '"'
  | '\'' => some '\''
  | '$' => some '$'
  | _ => none

/-- A part of text in front, unless it is empty. -/
def prependText (text : List Char) (parts : List StringPart) : List StringPart :=
  if text.isEmpty then parts else .text (String.ofList text) :: parts

/-- The parts of a string and how many characters they take up, the closing quote included. `text`
is what was read of the current part, `opened` where the string starts. -/
def stringParts (opened p : Position) (text : List Char) (cs : List Char) :
    Except LexError (List StringPart × Nat) :=
  match cs with
  | [] | ['\\'] => .error ⟨.openString, opened⟩
  | '"' :: _ => .ok (prependText text [], 1)
  | '\\' :: c :: rest =>
    match escape c with
    | none => .error ⟨.unknownEscape c, p⟩
    | some d => do
      let (parts, n) ← stringParts opened ((p.step '\\').step c) (text ++ [d]) rest
      return (parts, n + 2)
  | '$' :: '(' :: rest => do
    let start := (p.step '$').step '('
    let n ← closing [.substitution p 1] start rest
    let stop := (start.after (rest.take n)).step ')'
    let (parts, m) ← stringParts opened stop [] (rest.drop (n + 1))
    return (prependText text
      (.substitution ⟨start, rest.take n, rest.drop n⟩ ⟨p, stop⟩ :: parts), m + n + 3)
  | '$' :: rest =>
    match reference rest with
    | .error fault => .error ⟨fault, p⟩
    | .ok ref => do
      let stop := (p.step '$').after (rest.take ref.length)
      let (parts, n) ← stringParts opened stop [] (rest.drop ref.length)
      return (prependText text
        (.variable (String.ofList ref.name) (ref.default.map String.ofList) ⟨p, stop⟩ :: parts),
        n + ref.length + 1)
  | c :: rest => do
    let (parts, n) ← stringParts opened (p.step c) (text ++ [c]) rest
    return (parts, n + 1)
termination_by cs.length
decreasing_by all_goals (simp_all [List.length_drop]; try omega)

/-- The parts of a raw string, which is one text, and how many characters they take up, the closing
quote included. -/
def rawParts (opened : Position) (cs : List Char) : Except LexError (List StringPart × Nat) :=
  let text := cs.takeWhile (· ≠ '\'')
  if text.length = cs.length then .error ⟨.openString, opened⟩
  else .ok (prependText text [], text.length + 1)

/-! ## Tokens -/

/-- Reads one token that starts with `c`: what it says, and how many characters it has after `c`.
Strings and references may use what lies beyond the view. -/
def content (p : Position) (c : Char) (inside beyond : List Char) :
    Except LexError (Token.Content × Nat) :=
  let located {α : Type} (r : Except LexFault α) : Except LexError α :=
    r.mapError (⟨·, p⟩)
  if c = '$' then
    match inside with
    | '(' :: _ => .ok (.delimiter, 1)
    | _ => do
      let ref ← located (reference (inside ++ beyond))
      match ref.default with
      | none => return (.variable (String.ofList ref.name), ref.length)
      | some default =>
        return (.defaulted (String.ofList ref.name) (String.ofList default), ref.length)
  else if c = '"' then do
    let (parts, n) ← stringParts p (p.step c) [] (inside ++ beyond)
    return (.string parts, n)
  else if c = '\'' then do
    let (parts, n) ← rawParts p (inside ++ beyond)
    return (.string parts, n)
  else if c.isDigit then do
    let number := numberText (c :: inside)
    return (← located number.content, number.length - 1)
  else if startsWord (c :: inside) then
    .ok (.word, (inside.takeWhile isWordChar).length)
  else
    match operators.find? fun op => op.toList.isPrefixOf (c :: inside) with
    | some op => .ok (.operator, op.length - 1)
    | none =>
      if c ∈ delimiters then .ok (.delimiter, 0) else .error ⟨.unexpected c, p⟩

end Lexer

/-- The tokens of a view. -/
def View.tokens (v : View) : Lexed :=
  let v := v.advance (Lexer.gapLength false v.inside)
  match _h : v.inside with
  | [] => ⟨[.atEnd v.position], none⟩
  | c :: cs =>
    match Lexer.content v.position c cs v.beyond with
    | .error e => ⟨[], some e⟩
    | .ok (content, n) =>
      let rest := v.advance (n + 1)
      let lexeme := String.ofList ((v.inside ++ v.beyond).take (n + 1))
      rest.tokens.cons ⟨content, lexeme, ⟨v.position, rest.position⟩⟩
termination_by v.inside.length
decreasing_by
  have h := congrArg List.length _h
  simp only [v, View.inside_advance, List.length_drop, List.length_cons] at h ⊢
  omega

/-- The tokens of a whole text. -/
def tokenize (source : List Char) : Lexed :=
  (View.whole source).tokens

end Sigil
