/-!
# Lines of a text

Two ways of cutting a text into lines: at line feeds only, as positions count
lines, and at every line boundary that an editor knows, each line keeping its
end. The main statement is that the second way loses nothing
(`flatten_linesWithEnds`).
-/

namespace Sigil.Text

/-- The pieces between the occurrences of a separator; there is always one more than there are
separators. -/
def splitAtChar (sep : Char) : List Char → List (List Char)
  | [] => [[]]
  | c :: cs =>
    if c = sep then [] :: splitAtChar sep cs
    else match splitAtChar sep cs with
      | [] => [[c]]
      | piece :: pieces => (c :: piece) :: pieces

/-- A text cut at a separator. -/
def split (sep : Char) (s : String) : List String :=
  (splitAtChar sep s.toList).map String.ofList

/-- The characters that end a line on an editor's screen. -/
def isLineEnd (c : Char) : Bool :=
  c ∈ ['\n', '\r', '\x0b', '\x0c', '\x1c', '\x1d', '\x1e', '\u0085', '\u2028', '\u2029']

/-- The lines of a text, each with the characters that end it; a carriage return and the line feed
after it end one line together. -/
def linesWithEnds : List Char → List (List Char)
  | [] => []
  | '\r' :: '\n' :: cs => ['\r', '\n'] :: linesWithEnds cs
  | c :: cs =>
    if isLineEnd c then [c] :: linesWithEnds cs
    else match linesWithEnds cs with
      | [] => [[c]]
      | line :: lines => (c :: line) :: lines

/-- The lines of a text together are the text. -/
theorem flatten_linesWithEnds (cs : List Char) : (linesWithEnds cs).flatten = cs := by
  fun_induction linesWithEnds cs <;> simp_all

/-- A text with each of the line ends `\r\n` and `\r` replaced by a line feed. -/
def unifyLineEnds : List Char → List Char
  | [] => []
  | '\r' :: '\n' :: cs => '\n' :: unifyLineEnds cs
  | c :: cs => (if c = '\r' then '\n' else c) :: unifyLineEnds cs

end Sigil.Text
