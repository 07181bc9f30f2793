import Sigil.Report
import Sigil.Text.Blank

/-!
# The interactive loop

Lines are typed one after the other; each is submitted to the session and the
outcome is shown. An entry may take several lines, and an interrupt gives it
up. The loop ends with the input, or with the word `exit` where an entry could
begin; its exit status is that of the last submission that was complete.
-/

namespace Sigil

/-- The texts that ask for a line: for the first line of an entry, and for one that continues it. -/
structure Prompts where
  fresh : String
  continuation : String
deriving DecidableEq, Repr

/-- What a user does at a prompt. -/
inductive Typed where
  | line (text : String)
  | interrupt
deriving DecidableEq, Repr

/-- How the loop ended. -/
structure ReplEnd where
  status : ExitStatus
  session : Session
  /-- What was typed after the loop had ended. -/
  unread : List Typed

namespace Session

/-- Submits a text as a user does: with an interrupt that came before forgotten. -/
def submitAfresh (host : Option Host) (s : Session) (text : List Char) (openEnded : Bool) :
    Submission × Session :=
  (s.schedule none).submit host text openEnded

/-- Whether an entry was begun and not finished. -/
def isPending (s : Session) : Bool :=
  !s.pending.isEmpty

end Session

namespace Repl

/-- The text that asks for the next line. -/
def prompt (prompts : Prompts) (s : Session) : Piece :=
  .prompt (if s.isPending then prompts.continuation else prompts.fresh)

/-- Takes in what is typed until the input or the loop ends, after a submission with the given exit
status. -/
def run (host : Option Host) (prompts : Prompts) (s : Session) (status : ExitStatus) :
    List Typed → ReplEnd × Transcript
  | [] => (⟨status, s, []⟩, prompt prompts s :: Transcript.line "")
  | .interrupt :: rest =>
    let (e, t) := run host prompts s.resetInput status rest
    (e, prompt prompts s :: (Transcript.line "^C" ++ t))
  | .line text :: rest =>
    let word := Text.trim text
    if !s.isPending && word = "" then
      let (e, t) := run host prompts s status rest
      (e, prompt prompts s :: t)
    else if !s.isPending && word = "exit" then (⟨status, s, rest⟩, [prompt prompts s])
    else
      let (r, s') := s.submitAfresh host text.toList true
      match r.outcome with
      | .incomplete =>
        let (e, t) := run host prompts s' status rest
        (e, prompt prompts s :: t)
      | _ =>
        let (e, t) := run host prompts s' r.exitStatus rest
        (e, prompt prompts s :: (r.report ++ t))

end Repl

end Sigil
