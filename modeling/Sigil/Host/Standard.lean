import Sigil.Host.Shell
import Sigil.Text.Lines
import Sigil.Text.Utf8

/-!
# A host of its own

A host that knows a few commands without any help from outside: those that
write, those that only succeed or fail, and short scripts. It finds commands
by their names or by the places where systems keep them.
-/

namespace Sigil.Standard

/-- The directories that hold the commands. -/
def directories : List String := ["/bin", "/usr/bin"]

/-- The exit status of a file that cannot be run. -/
def notExecutable : Int := 126

/-- Places that exist and are no commands. -/
def otherPlaces : List String :=
  ["", "/", ".", "./", "..", "/bin", "/dev", "/dev/null", "/etc", "/etc/hostname", "/etc/hosts",
    "/etc/passwd", "/home", "/proc", "/root", "/tmp", "/usr", "/usr/bin", "/var"]

/-- The command that a name stands for: the name itself, or its last part in one of the
directories. -/
def commandName (name : String) : String :=
  match directories.filterMap fun d => (d ++ "/").toList.isPrefixOf? name.toList with
  | rest :: _ => if '/' ∈ rest then name else String.ofList rest
  | [] => name

/-- Whether a command without a directory is found, when the search path may have been changed. -/
def isFound (env : Names String) (name : String) : Bool :=
  '/' ∈ name.toList ||
    match env.get? "PATH" with
    | none => true
    | some path => (Text.split ':' path).any (· ∈ directories)

/-- Runs a command, if there is one of this name. -/
def run? (env : Names String) (name : String) (args : List String) : Option Printing.Run :=
  if !isFound env name then none
  else match commandName name, args with
    | "echo", args => some (Printing.echo true false args)
    | "printf", args => some (Printing.printf args)
    | "printenv", names => some (Printing.values env names)
    | "true", _ => some ⟨0, []⟩
    | "false", _ => some ⟨1, []⟩
    | "sh", "-c" :: script :: [] => some (Shell.runScript env script [name])
    | "sh", "-c" :: script :: arguments => some (Shell.runScript env script arguments)
    | "sh", _ => some ⟨0, []⟩
    | _, _ => none

/-- What a command that ran wrote, as text with plain line ends. -/
def outcome (r : Printing.Run) : CallOutcome :=
  match Text.decodeUtf8 r.written with
  | .ok cs => .exited r.status (String.ofList (Text.unifyLineEnds cs))
  | .error e => .failed e.message

/-- Why a call cannot be made at all: an equals sign would end the name of a variable, and a null
character any of the texts. -/
def obstacle? (c : Call) : Option String :=
  let env := c.env.getD []
  if env.any fun (name, _) => '=' ∈ name.toList then some "illegal environment variable name"
  else if (c.name :: c.args ++ env.flatMap fun (name, value) => [name, value]).any
      fun text => '\x00' ∈ text.toList then some "embedded null byte"
  else none

/-- Runs a command that is called. -/
def call (c : Call) : CallOutcome :=
  match obstacle? c, run? (c.env.getD []) c.name c.args with
  | some reason, _ => .failed reason
  | none, some r => outcome r
  | none, none => .exited (if c.name ∈ otherPlaces then notExecutable else commandNotFound) ""

/-- The host that knows these commands. -/
def host : Host where
  reply _ c := ⟨call c, false⟩

end Sigil.Standard
