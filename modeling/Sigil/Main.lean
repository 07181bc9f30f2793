import Sigil.Console
import Sigil.Host.Standard
import Sigil.Text.Utf8

/-!
# The executable

Reads what the program needs to know of the system, runs it, and shows what it
has to show. Nothing is decided here.
-/

namespace Sigil.Main

/-- The environment variables that the settings are read from. -/
def knownVariables : List String :=
  ["HOME", "YSH_PROMPT", "YSH_CONTINUATION_PROMPT", "YSH_LOG_LEVEL", "YSH_RC"]

/-- The text of a file. -/
def fileContents (p : Path) : IO (Except ReadFault (List Char)) := do
  try
    match Text.decodeUtf8 (← IO.FS.readBinFile p.text).data.toList with
    | .ok text => return .ok text
    | .error e => return .error (.other e.message)
  catch
    | .noFileOrDirectory .. => return .error .missing
    | .inappropriateType .. => return .error .isDirectory
    | e => return .error (.other (toString e))

/-- Reads lines until there are no more of them. -/
partial def typedLines (stdin : IO.FS.Stream) : IO (List Typed) := do
  let line ← stdin.getLine
  if line.isEmpty then return []
  let text := if line.endsWith "\n" then line.dropEnd 1 |>.toString else line
  return .line text :: (← typedLines stdin)

/-- Shows what there is to show, and gives the exit status. -/
def finish (status : ExitStatus) (shown : Transcript) : IO UInt32 := do
  for piece in shown do
    match piece with
    | .prompt s | .output s => (← IO.getStdout).putStr s
    | .complaint s => (← IO.getStderr).putStr s
  return UInt32.ofNat status.code

/-- Runs what the command line asks for. -/
def run (i : Invocation) : IO UInt32 := do
  let env ← knownVariables.filterMapM fun name => do
    return (← IO.getEnv name).map (name, ·)
  let surroundings : Surroundings := ⟨env, fun _ => none⟩
  let paths := (surroundings.startupFiles?.getD []) ++ (i.script.map Path.ofString).toList
  let contents ← paths.mapM fun p => do return (p, ← fileContents p)
  let read (p : Path) := ((contents.find? (·.1 = p)).map (·.2)).getD (.error .missing)
  let interactive := i.code.isNone && i.script.isNone
  let typed ← if interactive then typedLines (← IO.getStdin) else pure []
  match (Console.mk surroundings Standard.host read typed).run i with
  | .ok e => finish e.status e.shown
  | .error b => finish .error (Transcript.complain ("ysh: " ++ b.text))

end Sigil.Main

/-- Runs the program on the words of its command line. -/
def main (args : List String) : IO UInt32 :=
  match Sigil.CommandLine.read args with
  | .error (status, shown) => Sigil.Main.finish status shown
  | .ok i => Sigil.Main.run i
