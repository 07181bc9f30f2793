import Sigil.Names

/-!
# Command hosts

Running a command is asked of a host. A host answers as a function of the
calls made of it before and of the call itself, so that nothing is assumed
about the world beyond what a script can see of it.
-/

namespace Sigil

/-- A command to be run: its name, its arguments, and the variables set for it alone, if any. -/
structure Call where
  name : String
  args : List String
  env : Option (Names String)
deriving DecidableEq, Repr

/-- How a call went. -/
inductive CallOutcome where
  | exited (status : Int) (output : String)
  /-- The command could not be run, for the reason given. -/
  | failed (reason : String)
deriving DecidableEq, Repr

/-- The answer to a call. -/
structure Reply where
  outcome : CallOutcome
  /-- Whether the user interrupted the session while the command ran. -/
  interrupts : Bool
deriving DecidableEq, Repr

/-- A host of commands: its answer to a call that comes after others. -/
structure Host where
  reply : List Call → Call → Reply

/-- The exit status that stands for a command that was not found. -/
def commandNotFound : Int := 127

end Sigil
