/-!
# Runs of external commands

The value that a command leaves behind when it has run successfully: what was
run, and what it wrote.
-/

namespace Sigil

/-- A finished run of an external command. Where a text is wanted it stands for what the command
wrote. -/
structure CommandRun where
  name : String
  args : List String
  status : Int
  output : String
deriving DecidableEq, Repr

/-- What the command wrote, without one line feed at its end. -/
def CommandRun.text (r : CommandRun) : String :=
  let cs := r.output.toList
  if cs.getLast? = some '\n' then String.ofList cs.dropLast else r.output

end Sigil
