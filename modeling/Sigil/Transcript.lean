/-!
# Transcripts

What a user gets to see, piece by piece and in order: prompts, output, and
complaints, which have a channel of their own. Whoever shows a transcript
decides what becomes of the prompts.
-/

namespace Sigil

/-- A piece of what the user sees. -/
inductive Piece where
  | prompt (text : String)
  | output (text : String)
  | complaint (text : String)
deriving DecidableEq, Repr

/-- The pieces that a user sees, in order. -/
abbrev Transcript := List Piece

namespace Transcript

/-- A line of output. -/
def line (s : String) : Transcript := [.output (s ++ "\n")]

/-- A line of complaint. -/
def complain (s : String) : Transcript := [.complaint (s ++ "\n")]

/-- The prompts, in order. -/
def prompts (t : Transcript) : List String :=
  t.filterMap fun
    | .prompt s => some s
    | _ => none

/-- The output without prompts. -/
def output (t : Transcript) : String :=
  String.join (t.filterMap fun
    | .output s => some s
    | _ => none)

/-- The output with the prompts where they were shown. -/
def screen (t : Transcript) : String :=
  String.join (t.filterMap fun
    | .prompt s | .output s => some s
    | .complaint _ => none)

/-- The complaints. -/
def complaints (t : Transcript) : String :=
  String.join (t.filterMap fun
    | .complaint s => some s
    | _ => none)

end Transcript

end Sigil
