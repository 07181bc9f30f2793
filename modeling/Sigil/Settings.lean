import Sigil.Names
import Sigil.Path
import Sigil.Repl
import Sigil.Text.Blank
import Sigil.Text.UpperCase

/-!
# Settings

What the environment variables say: the prompts, how much is logged, and the
startup files. Paths in variables may begin with a tilde, which stands for
somebody's home directory.
-/

namespace Sigil

/-- What the settings are read from. -/
structure Surroundings where
  /-- The environment variables. -/
  env : Names String
  /-- The home directory of another user. -/
  homeOf : String → Option String

namespace Surroundings

/-- The home directory that a tilde with a name stands for; without a name it is the user's own. -/
def home? (e : Surroundings) (name : String) : Option String := do
  let dir ← if name = "" then e.env.get? "HOME" else e.homeOf name
  let trimmed := String.ofList ((dir.toList.reverse.dropWhile (· = '/')).reverse)
  let dir := if trimmed = "" then "/" else trimmed
  if dir.toList.head? = some '~' then none else return dir

/-- A path with the tilde that it may begin with replaced, if the home directory that the tilde
stands for is known. -/
def expand? (e : Surroundings) (p : Path) : Option Path :=
  match p.root, p.names with
  | "", first :: names =>
    match first.toList with
    | '~' :: name => (e.home? (String.ofList name)).map fun dir => (Path.ofString dir).append names
    | _ => some p
  | _, _ => some p

/-- The paths in a variable, between colons; the defaults if it says nothing. None if a home
directory is not known. -/
def paths? (e : Surroundings) (key : String) (defaults : List Path) : Option (List Path) :=
  match e.env.get? key with
  | none | some "" => some defaults
  | some value =>
    (((Text.split ':' value).map Text.trim).filter (· ≠ "")).mapM fun s => e.expand? (.ofString s)

/-- The files that are run before anything else. -/
def startupFiles? (e : Surroundings) : Option (List Path) := do
  let home ← e.expand? (.ofString "~")
  e.paths? "YSH_RC" [home.append [".yshrc"]]

/-- The prompts. -/
def prompts (e : Surroundings) : Prompts :=
  ⟨(e.env.get? "YSH_PROMPT").getD "ysh> ",
   (e.env.get? "YSH_CONTINUATION_PROMPT").getD "...> "⟩

/-- How much is logged, in capitals. -/
def logLevel (e : Surroundings) : String :=
  Text.upperCase ((e.env.get? "YSH_LOG_LEVEL").getD "WARNING")

end Surroundings

end Sigil
