import Mathlib.Data.List.Forall2
import Sigil.Proofs.Number.Text

/-!
# Written tokens

A text that a printer writes, cut where the reader is meant to cut it: a
`Chunk` is what one token says (`Mark`), with or without a space before it.
`textOf` is the text of chunks, and `Legible` says that each of them is proper
and ends before the character after it, so that the reader of tokens has no
choice where to cut. `Token.Say` relates tokens to the chunks that they were
read from.
-/

namespace Sigil

/-- A part of a string as it is written, the inside of a substitution as its text. -/
inductive Fragment where
  | text (s : String)
  | variable (name : String) (default : Option String)
  | substitution (inside : List Char)

namespace Fragment

/-- The text of a part of a string. -/
def source : Fragment → List Char
  | text s => escapeText s
  | «variable» name default => referenceSource true name default
  | substitution inside => "$(".toList ++ inside ++ [')']

/-- Parts of a string as the reader would cut them. -/
def Proper (afterText : Bool) : List Fragment → Prop
  | [] => True
  | text s :: fs => afterText = false ∧ s ≠ "" ∧ Proper true fs
  | «variable» name default :: fs => Lexer.isReference name default ∧ Proper false fs
  | substitution inside :: fs => Lexer.isClosed inside ∧ Proper false fs

end Fragment

/-- What one token says, as it is written. -/
inductive Mark where
  | word (s : String)
  | variable (name : String)
  | defaulted (name default : String)
  | integer (n : Nat)
  | float (x : Float)
  | string (parts : List Fragment)
  | operator (s : String)
  | delimiter (s : String)

namespace Mark

/-- The text of a token. -/
def source : Mark → List Char
  | word s | operator s | delimiter s => s.toList
  | «variable» name => referenceSource false name none
  | defaulted name default => referenceSource false name (some default)
  | integer n => Nat.toDigits 10 n
  | float x => Number.floatSource x
  | string parts => '"' :: (parts.flatMap Fragment.source ++ ['"'])

/-- The delimiters as tokens have them. -/
def delimiters : List String := ["(", ")", "\x7b", "\x7d", ",", ";", "$("]

/-- A token that the reader can be made to read. -/
def Proper : Mark → Prop
  | word s => Lexer.isWord s
  | «variable» name => Lexer.isReference name none
  | defaulted name default => Lexer.isReference name (some default)
  | integer n => Lexer.IsNumber (Nat.toDigits 10 n) (.integer n)
  | float x => Lexer.IsNumber (Number.floatSource x) (.float x)
  | string parts => Fragment.Proper false parts
  | operator s => s ∈ Lexer.operators
  | delimiter s => s ∈ delimiters

/-- Whether a token ends before a character, or where there is none. -/
def endsBefore (next : Option Char) : Mark → Bool
  | word _ => next.all (!Lexer.isWordChar ·)
  | «variable» _ => next.all (!Lexer.isNameChar ·)
  | integer _ | float _ => next.all fun c => !c.isDigit && c ∉ ['.', 'e', 'E']
  | operator s => next.all fun c => c ∉ ['=', '>'] &&
    (s ∉ ["-", "/"] || !(c.isAlpha || c ∈ ['_', '.', '~', '/', '-']))
  | defaulted .. | string _ | delimiter _ => true

end Mark

/-- A token with or without a space before it. -/
structure Chunk where
  spaced : Bool
  mark : Mark

/-- A space, or nothing. -/
def gap (spaced : Bool) : List Char :=
  if spaced then [' '] else []

/-- The text of a chunk. -/
def Chunk.source (p : Chunk) : List Char :=
  gap p.spaced ++ p.mark.source

/-- The text of chunks. -/
def textOf (ps : List Chunk) : List Char :=
  ps.flatMap Chunk.source

@[simp] theorem textOf_nil : textOf [] = [] := rfl

@[simp] theorem textOf_cons (p : Chunk) (ps : List Chunk) :
    textOf (p :: ps) = gap p.spaced ++ p.mark.source ++ textOf ps := by
  simp [textOf, Chunk.source]

@[simp] theorem textOf_append (ps qs : List Chunk) : textOf (ps ++ qs) = textOf ps ++ textOf qs :=
  List.flatMap_append

/-- Chunks that the reader cuts where they were put together, before a character or the end of the
text. -/
def Legible (next : Option Char) : List Chunk → Prop
  | [] => True
  | p :: ps => p.mark.Proper ∧ p.mark.endsBefore ((textOf ps).head?.or next) ∧ Legible next ps

theorem legible_append {next : Option Char} {ps qs : List Chunk} :
    Legible next (ps ++ qs) ↔ Legible ((textOf qs).head?.or next) ps ∧ Legible next qs := by
  induction ps with
  | nil => simp [Legible]
  | cons p ps ih => simp [Legible, ih, and_assoc, Option.or_assoc]

/-! ## Tokens -/

/-- A part of a string says what was written. The text of a substitution goes on with the
parenthesis that closes it. -/
def StringPart.Says : StringPart → Fragment → Prop
  | text s, .text t => s = t
  | «variable» name default _, .variable n d => name = n ∧ default = d
  | substitution view _, .substitution inside =>
    view.inside = inside ∧ view.beyond.head? = some ')'
  | _, _ => False

namespace Token

/-- A token says what was written. -/
def Says (t : Token) : Mark → Prop
  | .word s => t.content = .word ∧ t.lexeme = s
  | .variable name => t.content = .variable name
  | .defaulted name default => t.content = .defaulted name default
  | .integer n => t.content = .integer n
  | .float x => t.content = .float x
  | .string fragments =>
    ∃ parts, t.content = .string parts ∧ List.Forall₂ StringPart.Says parts fragments
  | .operator s => t.content = .operator ∧ t.lexeme = s
  | .delimiter s => t.content = .delimiter ∧ t.lexeme = s

/-- Tokens say what was written, with spaces between them where spaces were written, and then comes
the end of the text. -/
def Say : List Token → List Chunk → Prop
  | [t], [] => t.content = .endOfInput
  | t :: u :: ts, p :: ps =>
    t.Says p.mark ∧ (∀ q ∈ ps.head?, Parser.adjacent t u = !q.spaced) ∧ Say (u :: ts) ps
  | _, _ => False

end Token

end Sigil
