import Sigil.Report
import Sigil.Text.Digit
import Sigil.Text.Quoted

/-!
# The command line

What the words after the program's name ask for. A word that begins with a
dash is a switch, if it is not a number and has no space in it; a long switch
may be shortened as far as it stays the only one, and its argument may follow
in the same word. After `--` no word is a switch. The words are sorted first;
then they take effect from left to right, and a word that nothing takes is
complained of at the end.
-/

namespace Sigil

/-- The switches. -/
inductive Switch where
  | help
  | code
  | noStartup
  | logLevel
  | version
deriving DecidableEq, Repr

namespace Switch

/-- All switches. -/
def all : List Switch := [help, code, noStartup, logLevel, version]

/-- How a switch is written. -/
def names : Switch → List String
  | help => ["-h", "--help"]
  | code => ["-c"]
  | noStartup => ["--no-rc"]
  | logLevel => ["--log-level"]
  | version => ["--version"]

/-- Whether a switch has an argument. -/
def hasArgument : Switch → Bool
  | code | logLevel => true
  | help | noStartup | version => false

/-- All ways of writing switches. -/
def spellings : List (String × Switch) :=
  all.flatMap fun s => s.names.map (·, s)

/-- The switch that is written so. -/
def ofName? (name : String) : Option Switch :=
  (spellings.find? (·.1 = name)).map (·.2)

end Switch

/-- The code to run. -/
inductive Code where
  | text (s : String)
  /-- The mark after which there are no switches stands where the text should. -/
  | mark
deriving DecidableEq, Repr

/-- What is to be run, and how. -/
structure Invocation where
  script : Option String
  code : Option Code
  startup : Bool
  logLevel : Option String
deriving DecidableEq, Repr

/-- Why the words cannot be understood. -/
inductive UsageError where
  | ambiguous (word : String) (names : List String)
  | missingArgument (switch : Switch)
  | needlessArgument (switch : Switch) (argument : String)
  | unrecognized (words : List String)
deriving DecidableEq, Repr

/-- A complaint about the argument of a switch. -/
def Switch.complaint (s : Switch) (what : String) : String :=
  "argument " ++ "/".intercalate s.names ++ ": " ++ what

/-- The error in words. -/
def UsageError.message : UsageError → String
  | ambiguous word names =>
    "ambiguous option: " ++ word ++ " could match " ++ ", ".intercalate names
  | missingArgument s => s.complaint "expected one argument"
  | needlessArgument s argument =>
    s.complaint ("ignored explicit argument " ++ Text.quoted argument)
  | unrecognized words => "unrecognized arguments: " ++ " ".intercalate words

/-- What the words ask for. -/
inductive Request where
  | run (i : Invocation)
  | help
  | version
deriving DecidableEq, Repr

namespace CommandLine

/-- What a word is. -/
inductive Word where
  | operand (s : String)
  /-- A switch under a name with one dash or two, and the argument in the same word. -/
  | switch (switch : Switch) (short : Bool) (attached : Option (List Char))
  | unknown (s : String)
  /-- The word after which there are no switches. -/
  | separator
deriving DecidableEq, Repr

/-- Whether characters are those of a number without a sign, in decimals or not. -/
def isNumber (cs : List Char) : Bool :=
  match cs.dropWhile Text.isDecimalDigit with
  | [] | ['\n'] => !(cs.takeWhile Text.isDecimalDigit).isEmpty
  | '.' :: ds =>
    !(ds.takeWhile Text.isDecimalDigit).isEmpty &&
      (ds.dropWhile Text.isDecimalDigit = [] || ds.dropWhile Text.isDecimalDigit = ['\n'])
  | _ => false

/-- The part of a word before an equals sign, and the argument after it. -/
def splitMark (cs : List Char) : List Char × Option (List Char) :=
  match cs.dropWhile (· ≠ '=') with
  | [] => (cs, none)
  | _ :: argument => (cs.takeWhile (· ≠ '='), some argument)

/-- The switches that a word could be short for. -/
def candidates (word : String) : List (String × Word) :=
  match word.toList with
  | '-' :: '-' :: _ =>
    let (start, attached) := splitMark word.toList
    Switch.spellings.filterMap fun (name, s) =>
      if start.isPrefixOf name.toList then some (name, .switch s false attached) else none
  | '-' :: c :: argument =>
    Switch.spellings.filterMap fun (name, s) =>
      if name.toList = ['-', c] then some (name, .switch s true (some argument)) else none
  | _ => []

/-- What a word is, where switches are allowed. -/
def classify (word : String) : Except UsageError Word :=
  let isShort (name : List Char) : Bool := name.length = 2
  let (start, attached) := splitMark word.toList
  match word.toList with
  | '-' :: c :: cs =>
    if let some s := Switch.ofName? word then .ok (.switch s (isShort word.toList) none)
    else match attached, Switch.ofName? (String.ofList start) with
      | some _, some s => .ok (.switch s (isShort start) attached)
      | _, _ =>
        match candidates word with
        | [(_, w)] => .ok w
        | [] =>
          .ok (if isNumber (c :: cs) || ' ' ∈ word.toList then .operand word else .unknown word)
        | several => .error (.ambiguous word (several.map (·.1)))
  | _ => .ok (.operand word)

/-- What the words are. -/
def classifyAll : List String → Except UsageError (List Word)
  | [] => .ok []
  | "--" :: words => .ok (.separator :: words.map .operand)
  | word :: words => return (← classify word) :: (← classifyAll words)

/-- The words understood so far. -/
structure Progress where
  invocation : Invocation
  /-- Whether the place of the script is taken. -/
  placed : Bool
  /-- The words that nothing takes, last first. -/
  extras : List String

/-- Nothing asked for. -/
def Progress.initial : Progress := ⟨⟨none, none, true, none⟩, false, []⟩

/-- One more word that nothing takes. -/
def Progress.extra (p : Progress) (word : String) : Progress :=
  { p with extras := word :: p.extras }

/-- The effect of a switch with its argument, if it only changes what is run. The mark `--` is
never taken for a text, not even in the word of the switch. -/
def Progress.set (p : Progress) (s : Switch) (argument : String) : Progress :=
  match s with
  | .code => { p with invocation.code := some (if argument = "--" then .mark else .text argument) }
  | .logLevel =>
    { p with invocation.logLevel := if argument = "--" then none else some argument }
  | .noStartup => { p with invocation.startup := false }
  | .help | .version => p

/-- Whether the rest of a word, after a short switch, can be taken as its argument or else as
further switches, each a letter. The argument of the last of them may be the next word. -/
def checkLetters (next : Option Word) (s : Switch) (letters : List Char) :
    Except UsageError Unit :=
  if s.hasArgument then .ok ()
  else match letters with
    | [] => .error (.needlessArgument s "")
    | c :: cs =>
      match Switch.ofName? (String.ofList ['-', c]), cs with
      | none, _ => .error (.needlessArgument s (String.ofList (c :: cs)))
      | some t, [] =>
        match t.hasArgument, next with
        | false, _ | true, some (.operand _) => .ok ()
        | true, _ => .error (.missingArgument t)
      | some t, d :: ds => checkLetters next t (d :: ds)

/-- Lets the words take effect. -/
def interpret (p : Progress) : List Word → Except UsageError Request
  | [] =>
    if p.extras.isEmpty then .ok (.run p.invocation)
    else .error (.unrecognized p.extras.reverse)
  | .operand s :: words =>
    if p.placed then interpret (p.extra s) words
    else
      let p := { p with invocation.script := some s, placed := true }
      match words with
      | .separator :: words => interpret p words
      | words => interpret p words
  | .separator :: words => interpret (if p.placed then p.extra "--" else p) words
  | .unknown s :: words => interpret (p.extra s) words
  | .switch s short attached :: words =>
    match s.hasArgument, attached, words with
    | true, some a, words => interpret (p.set s (String.ofList a)) words
    | true, none, .operand argument :: words => interpret (p.set s argument) words
    | true, none, _ => .error (.missingArgument s)
    | false, none, words =>
      match s with
      | .help => .ok .help
      | .version => .ok .version
      | _ => interpret (p.set s "") words
    | false, some a, words =>
      if short then do
        -- the one short switch without an argument asks for help, whatever its word goes on to say
        checkLetters words.head? s a
        return .help
      else .error (.needlessArgument s (String.ofList a))

/-- What the words after the program's name ask for. -/
def parse (words : List String) : Except UsageError Request := do
  interpret .initial (← classifyAll words)

/-! ## Answers -/

/-- The program's version. -/
def version : String := "0.1.0"

/-- The line that says how the program is used. -/
def usage : String :=
  "usage: ysh [-h] [-c CODE] [--no-rc] [--log-level LOG_LEVEL] [--version]\n" ++
  "           [script]\n"

/-- The explanation of all words. -/
def help : String :=
  usage ++
  "\nAn expression-oriented shell.\n\n" ++
  "positional arguments:\n" ++
  "  script                script file to run\n\n" ++
  "options:\n" ++
  "  -h, --help            show this help message and exit\n" ++
  "  -c CODE               run CODE and exit\n" ++
  "  --no-rc               do not run the startup files named by YSH_RC\n" ++
  "  --log-level LOG_LEVEL\n" ++
  "                        logging level (default: $YSH_LOG_LEVEL or WARNING)\n" ++
  "  --version             show program's version number and exit\n"

/-- What is to be run, or else the answer to the words with its exit status. -/
def read (words : List String) : Except (ExitStatus × Transcript) Invocation :=
  match parse words with
  | .ok (.run i) => .ok i
  | .ok .help => .error (.ok, [.output help])
  | .ok .version => .error (.ok, Transcript.line ("ysh " ++ version))
  | .error e =>
    .error (.usage, .complaint usage :: Transcript.complain ("ysh: error: " ++ e.message))

end CommandLine

end Sigil
