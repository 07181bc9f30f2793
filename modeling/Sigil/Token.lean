import Sigil.Number
import Sigil.Span
import Sigil.Text.Quoted

/-!
# Tokens

What the reader of scripts sees: words, names, numbers, strings and marks,
each with the text that it was read from and where that text stands. A string
is kept in parts, since it may refer to variables and hold command
substitutions; the inside of a substitution is a view of the text, to be read
when it is wanted.
-/

namespace Sigil

/-- A stretch of a text to be read, and what lies beyond it. What is read token by token ends with
the stretch; a string or a reference that starts in it is read to its own end. -/
structure View where
  /-- Where the stretch starts in the whole text. -/
  position : Position
  inside : List Char
  beyond : List Char
deriving DecidableEq, Repr

namespace View

/-- A whole text. -/
def whole (source : List Char) : View := ⟨.start, source, []⟩

/-- The stretch of a text from one offset to another. -/
def range (source : List Char) (start stop : Nat) : View :=
  ⟨.ofOffset source start, (source.take stop).drop start, source.drop (max start stop)⟩

/-- What is left after some characters. -/
def advance (v : View) (n : Nat) : View :=
  ⟨(v.position.after (v.inside.take n)).after (v.beyond.take (n - v.inside.length)),
   v.inside.drop n, v.beyond.drop (n - v.inside.length)⟩

theorem inside_advance (v : View) (n : Nat) : (v.advance n).inside = v.inside.drop n := rfl

end View

/-- A part of a string. -/
inductive StringPart where
  | text (s : String)
  | variable (name : String) (default : Option String) (span : Span)
  | substitution (inside : View) (span : Span)
deriving DecidableEq

/-- What a token says. -/
inductive Token.Content where
  | variable (name : String)
  /-- A reference with the text that stands in for an empty or missing value. -/
  | defaulted (name default : String)
  | word
  | integer (n : Nat)
  | float (x : Float)
  | string (parts : List StringPart)
  | operator
  | delimiter
  | endOfInput
deriving DecidableEq

/-- A token. -/
structure Token where
  content : Token.Content
  /-- The text that it was read from. -/
  lexeme : String
  span : Span
deriving DecidableEq

namespace Token

/-- The token that stands for the end of the text. -/
def atEnd (p : Position) : Token := ⟨.endOfInput, "", .point p⟩

/-- What kind of token it is, in words. -/
def Content.kind : Content → String
  | .variable _ => "variable"
  | .defaulted .. => "defaulted variable"
  | .word => "word"
  | .integer _ => "integer"
  | .float _ => "float"
  | .string _ => "string"
  | .operator => "operator"
  | .delimiter => "delimiter"
  | .endOfInput => "end of input"

/-- A token as messages name it. -/
def describe (t : Token) : String :=
  match t.content with
  | .endOfInput => "end of input"
  | c => c.kind ++ " " ++ Text.quoted t.lexeme

/-- Whether a token is a given operator. -/
def isOperator (t : Token) (s : String) : Bool :=
  t.content = .operator && t.lexeme = s

/-- Whether a token is a given delimiter. -/
def isDelimiter (t : Token) (s : String) : Bool :=
  t.content = .delimiter && t.lexeme = s

/-- The words that have a meaning of their own. -/
def keywords : List String :=
  ["let", "fn", "if", "then", "else", "return", "true", "false"]

/-- Whether a token is a given keyword. -/
def isKeyword (t : Token) (s : String) : Bool :=
  t.content = .word && t.lexeme = s && s ∈ keywords

/-- Whether a token is a word without a meaning of its own. -/
def isPlainWord (t : Token) : Bool :=
  t.content = .word && t.lexeme ∉ keywords

end Token

end Sigil
