import Sigil.Text.Lines

/-!
# Paths

Names of files, cut at their slashes. Empty pieces and single dots say nothing
and are left out; two dots stay, since what they mean depends on the files
that are there.
-/

namespace Sigil

/-- A path: the slashes that it begins with, of which there are none, one or two, and the names
between slashes. -/
structure Path where
  root : String
  names : List String
deriving DecidableEq, Repr

namespace Path

/-- The names in a text, without those that say nothing. -/
def namesOf (s : String) : List String :=
  (Text.split '/' s).filter fun name => name ≠ "" && name ≠ "."

/-- The path that a text names. Exactly two slashes at the beginning are told from one; more of them
are like one. -/
def ofString (s : String) : Path :=
  let slashes := (s.toList.takeWhile (· = '/')).length
  ⟨if slashes = 0 then "" else if slashes = 2 then "//" else "/", namesOf s⟩

/-- A path as text. -/
def text (p : Path) : String :=
  let s := p.root ++ "/".intercalate p.names
  if s = "" then "." else s

/-- A path within another. -/
def append (p : Path) (names : List String) : Path :=
  { p with names := p.names ++ names }

end Path

end Sigil
