import Sigil.CommandLine
import Sigil.Settings

/-!
# The program

What the program does once its command line is understood: it runs the
startup files, and then a text from the command line, a script from a file, or
the interactive loop. Files are read by a function that is given, so that
nothing here depends on the system.
-/

namespace Sigil

/-- Why a file cannot be read. -/
inductive ReadFault where
  | missing
  | isDirectory
  /-- Something on the way to the file is no directory. -/
  | notDirectory
  | other (reason : String)
deriving DecidableEq, Repr

/-- The reason in words. -/
def ReadFault.text : ReadFault → String
  | missing => "No such file or directory"
  | isDirectory => "Is a directory"
  | notDirectory => "Not a directory"
  | other reason => reason

/-- What the program works with. -/
structure Console where
  surroundings : Surroundings
  host : Option Host
  /-- The text of the file with a name. -/
  read : Path → Except ReadFault (List Char)
  /-- What the user types. -/
  typed : List Typed

namespace Console

/-- The text of a script in a file; its lines may end in any of the usual ways. -/
def script (c : Console) (p : Path) : Except ReadFault (List Char) :=
  Text.unifyLineEnds <$> c.read p

/-- Runs the startup files that are there, in order. Their failures are reported, nothing else. -/
def startUp (c : Console) (s : Session) : List Path → Session × Transcript
  | [] => (s, [])
  | p :: ps =>
    match c.script p with
    | .error _ => startUp c s ps
    | .ok text =>
      let (r, s) := s.submitAfresh c.host text false
      let (s', t) := startUp c s ps
      match r.failure? with
      | some _ => (s', Transcript.complain (p.text ++ ": " ++ r.formatError) ++ t)
      | none => (s', t)

/-- Why the program cannot do what it is asked for at all. -/
inductive Breakdown where
  /-- A home directory that is needed is not known. -/
  | homeless
  /-- The code to run is no text but the mark that ends the switches. -/
  | markForCode
  /-- The script's name has a null character in it. -/
  | nullInName
deriving DecidableEq, Repr

/-- The reason in words. -/
def Breakdown.text : Breakdown → String
  | homeless => "the home directory is not known"
  | markForCode => "-- is no code"
  | nullInName => "the name of the script has a null character in it"

/-- How the program ended. -/
structure End where
  status : ExitStatus
  shown : Transcript
  session : Session

/-- Runs a text and shows the outcome. -/
def runText (c : Console) (s : Session) (text : List Char) : End :=
  let (r, s) := s.submitAfresh c.host text false
  ⟨r.exitStatus, r.report, s⟩

/-- Runs what the command line names, in a session that is set up. -/
def runInvocation (c : Console) (s : Session) (i : Invocation) : Except Breakdown End :=
  match i.code, i.script with
  | some (.text code), _ => .ok (c.runText s code.toList)
  | some .mark, _ => .error .markForCode
  | none, some file =>
    if '\x00' ∈ file.toList then .error .nullInName
    else match c.script (.ofString file) with
      | .ok text => .ok (c.runText s text)
      | .error fault =>
        .ok ⟨.error, Transcript.complain s!"ysh: cannot read {file}: {fault.text}", s⟩
  | none, none =>
    let (e, t) := Repl.run c.host c.surroundings.prompts s .ok c.typed
    .ok ⟨e.status, t, e.session⟩

/-- Does what the command line asks for, in a new session. -/
def run (c : Console) (i : Invocation) : Except Breakdown End := do
  let files ← if i.startup then
      match c.surroundings.startupFiles? with
      | some files => .ok files
      | none => .error .homeless
    else .ok []
  let (s, shown) := c.startUp .initial files
  let e ← c.runInvocation s i
  return { e with shown := shown ++ e.shown }

end Console

end Sigil
