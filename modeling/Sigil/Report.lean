import Sigil.Session
import Sigil.Transcript

/-!
# Reports

How the outcome of a submission is shown, and the exit status that it stands
for.
-/

namespace Sigil

/-- The exit statuses. -/
inductive ExitStatus where
  | ok
  | error
  /-- The command line could not be understood. -/
  | usage
  | interrupted
deriving DecidableEq, Repr

/-- A status as the system knows it. -/
def ExitStatus.code : ExitStatus → Nat
  | ok => 0
  | error => 1
  | usage => 2
  | interrupted => 130

namespace Submission

/-- The exit status that a submission stands for. -/
def exitStatus (r : Submission) : ExitStatus :=
  match r.outcome with
  | .done .. | .incomplete => .ok
  | .interrupted => .interrupted
  | .failed _ | .escaped _ => .error

/-- The warnings of a submission, a line each. -/
def warnings (r : Submission) : Transcript :=
  (r.diagnostics.filter (·.severity = .warning)).flatMap fun d => Transcript.complain d.text

/-- A submission as the user sees it: its warnings, then its failure or the value that it has to
show. -/
def report (r : Submission) : Transcript :=
  r.warnings ++
    match r.exitStatus with
    | .ok => (r.display?.map Transcript.line).getD []
    | .interrupted => Transcript.complain "interrupted"
    | _ => Transcript.complain r.formatError

end Submission

end Sigil
