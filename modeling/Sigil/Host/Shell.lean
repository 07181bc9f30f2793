import Sigil.Host
import Sigil.Host.Printing

/-!
# Small scripts

A command language that is just large enough for a line of script: words with
quotes and parameters, commands in sequence or depending on each other, and a
few commands. What is written to the channel for complaints is not kept.
-/

namespace Sigil.Shell

/-- A piece of a word. Only an unquoted parameter is split at its blanks. -/
inductive Piece where
  | text (cs : List Char)
  | parameter (name : List Char) (quoted : Bool)
deriving DecidableEq

/-- When a command runs: always, or depending on the one before it. -/
inductive Condition where
  | always
  | success
  | failure
deriving DecidableEq

/-- A piece of a script. -/
inductive Token where
  | word (pieces : List Piece)
  | next (condition : Condition)
deriving DecidableEq

/-! ## Reading -/

/-- Whether a character separates words. -/
def isBlank (c : Char) : Bool := c ∈ [' ', '\t', '\n']

/-- Whether a character may stand in the name of a parameter. -/
def isNameChar (c : Char) : Bool := c.isAlphanum || c = '_'

/-- The name of a parameter after its dollar sign, and the rest. -/
def parameter? (cs : List Char) : Option (List Char × List Char) :=
  match cs with
  | '\x7b' :: cs =>
    match cs.dropWhile (· ≠ '\x7d') with
    | [] => none
    | _ :: rest => some (cs.takeWhile (· ≠ '\x7d'), rest)
  | c :: cs =>
    if c ∈ ['?', '#', '@', '*', '$'] || c.isDigit then some ([c], cs)
    else if isNameChar c then
      some ((c :: cs).takeWhile isNameChar, (c :: cs).dropWhile isNameChar)
    else none
  | [] => none

/-- The pieces of a text in double quotes, and what follows the closing quote. -/
def quotedPieces : Nat → List Char → Option (List Piece × List Char)
  | 0, _ | _, [] => none
  | _, '"' :: cs => some ([], cs)
  | n + 1, '\\' :: c :: cs => do
    let (ps, rest) ← quotedPieces n cs
    return (.text (if c ∈ ['$', '"', '\\', '\x60'] then [c] else ['\\', c]) :: ps, rest)
  | n + 1, '$' :: cs =>
    match parameter? cs with
    | some (name, cs) => do
      let (ps, rest) ← quotedPieces n cs
      return (.parameter name true :: ps, rest)
    | none => do
      let (ps, rest) ← quotedPieces n cs
      return (.text ['$'] :: ps, rest)
  | n + 1, c :: cs => do
    let (ps, rest) ← quotedPieces n cs
    return (.text [c] :: ps, rest)

/-- One more piece in front: of the word that the tokens begin with, or of a new one. -/
def addPiece (p : Piece) (glued : Bool) : List Token → List Token
  | .word ps :: ts => if glued then .word (p :: ps) :: ts else .word [p] :: .word ps :: ts
  | ts => .word [p] :: ts

/-- Whether a word goes on with a text. -/
def goesOn : List Char → Bool
  | [] | '&' :: '&' :: _ => false
  | '&' :: _ => true
  | c :: _ => !isBlank c && c ∉ [';', '|']

/-- A text after a separator, without the comment that it may begin with. -/
def skipComment : List Char → List Char
  | '#' :: cs => cs.dropWhile (· ≠ '\n')
  | cs => cs

/-- The tokens of a script, unless a quote stays open. -/
def tokens : Nat → List Char → Option (List Token)
  | 0, _ => none
  | _, [] => some []
  | n + 1, '&' :: '&' :: cs => do return .next .success :: (← tokens n cs)
  | n + 1, '|' :: '|' :: cs => do return .next .failure :: (← tokens n cs)
  | n + 1, '\'' :: cs =>
    match cs.dropWhile (· ≠ '\'') with
    | [] => none
    | _ :: rest => do
      return addPiece (.text (cs.takeWhile (· ≠ '\''))) (goesOn rest) (← tokens n rest)
  | n + 1, '"' :: cs => do
    let (ps, rest) ← quotedPieces n cs
    let ts ← tokens n rest
    -- an empty text keeps the word of quotes without content
    match (Piece.text [] :: ps).reverse with
    | [] => return ts
    | p :: ps =>
      return ps.foldl (fun ts p => addPiece p true ts) (addPiece p (goesOn rest) ts)
  | n + 1, '\\' :: c :: cs => do return addPiece (.text [c]) (goesOn cs) (← tokens n cs)
  | n + 1, '$' :: cs =>
    match parameter? cs with
    | some (name, rest) => do
      return addPiece (.parameter name false) (goesOn rest) (← tokens n rest)
    | none => do return addPiece (.text ['$']) (goesOn cs) (← tokens n cs)
  | n + 1, c :: cs => do
    let ts ← tokens n (if isBlank c || c = ';' then skipComment cs else cs)
    if c = ';' || c = '\n' then return .next .always :: ts
    else if isBlank c then return ts
    else return addPiece (.text [c]) (goesOn cs) ts

/-- The commands of a script with their conditions. -/
def commands : List Token → List (Condition × List (List Piece))
  | [] => [(.always, [])]
  | .next w :: ts =>
    match commands ts with
    | (_, c) :: cs => (.always, []) :: (w, c) :: cs
    | [] => []
  | .word ps :: ts =>
    match commands ts with
    | (w, c) :: cs => (w, ps :: c) :: cs
    | [] => []

/-! ## Running -/

/-- What a script works with. -/
structure State where
  env : Names String
  /-- The script's own name, and its arguments. -/
  arguments : List String
  status : Int
  written : List UInt8
  /-- Whether the script has come to its end. -/
  ended : Bool

/-- The value of a parameter. -/
def State.value (s : State) (name : List Char) : String :=
  match name with
  | ['?'] => Number.intText s.status
  | ['#'] => toString (s.arguments.length - 1)
  | ['@'] | ['*'] => " ".intercalate s.arguments.tail
  | ['$'] => "$"
  | [c] =>
    if c.isDigit then s.arguments.getD (c.toNat - '0'.toNat) ""
    else (s.env.get? (String.ofList name)).getD ""
  | name => (s.env.get? (String.ofList name)).getD ""

/-- The parts of a value between its blanks. -/
def fields (value : List Char) : List (List Char) :=
  (value.splitBy fun a b => isBlank a = isBlank b).filter fun field => !field.any isBlank

/-- The words that a word stands for. `begun` is the word begun so far, if there is one. -/
def expand (s : State) (begun : Option (List Char)) : List Piece → List String
  | [] => (begun.map String.ofList).toList
  | .text cs :: ps => expand s (some (begun.getD [] ++ cs)) ps
  | .parameter name true :: ps =>
    match name with
    | ['@'] =>
      match s.arguments.tail with
      | [] => expand s begun ps
      | args =>
        args.dropLast ++ expand s (some (begun.getD [] ++ (args.getLast?.getD "").toList)) ps
    | name => expand s (some (begun.getD [] ++ (s.value name).toList)) ps
  | .parameter name false :: ps =>
    let value := (s.value name).toList
    let apart := value.head?.any isBlank
    let before := if apart then (begun.map String.ofList).toList else []
    let begun := if apart then none else begun
    match fields value with
    | [] => before ++ expand s begun ps
    | first :: rest =>
      let words := (begun.getD [] ++ first) :: rest
      if value.getLast?.any isBlank then before ++ words.map String.ofList ++ expand s none ps
      else before ++ words.dropLast.map String.ofList ++ expand s words.getLast? ps

/-- The words of a command that are not about where it writes, and whether it writes to the channel
that is kept. -/
def redirected : List String → List String × Bool
  | [] => ([], true)
  | [">&2"] | ["1>&2"] | [">/dev/null"] | [">", "/dev/null"] => ([], false)
  | "2>/dev/null" :: ws | "2>&1" :: ws => redirected ws
  | w :: ws =>
    if w ∈ [">&2", "1>&2", ">/dev/null"] then ((redirected ws).1, false)
    else
      let (rest, kept) := redirected ws
      (w :: rest, kept)

/-- The name and the value in a word that sets a variable. -/
def assignment? (word : String) : Option (String × String) :=
  let name := word.toList.takeWhile (· ≠ '=')
  match word.toList.drop name.length, name with
  | _ :: value, c :: _ =>
    if name.all isNameChar && !c.isDigit then some (String.ofList name, String.ofList value)
    else none
  | _, _ => none

/-- A signal by its number or name. -/
def signal? (word : String) : Option Nat :=
  match word with
  | "-HUP" | "-1" => some 1
  | "-INT" | "-2" => some 2
  | "-KILL" | "-9" => some 9
  | "-TERM" | "-15" => some 15
  | _ => none

/-- Runs a command of the given words. -/
def step (s : State) (words : List String) : State :=
  let (words, kept) := redirected words
  let ran (r : Printing.Run) : State :=
    { s with status := r.status, written := if kept then s.written ++ r.written else s.written }
  match words with
  | [] => s
  | ["exit"] => { s with ended := true }
  | "exit" :: code :: _ =>
    match Printing.number? code with
    | some (.ofNat n) => { s with status := (n % 256 : Nat), ended := true }
    | _ => { s with status := 2, ended := true }
  | "echo" :: "-n" :: args => ran (Printing.writeLine false true args)
  | "echo" :: args => ran (Printing.writeLine true true args)
  | "printf" :: args => ran (Printing.printf args)
  | ["true"] | [":"] => { s with status := 0 }
  | ["false"] => { s with status := 1 }
  | ["kill", "$"] => { s with status := -15, ended := true }
  | ["kill", signal, "$"] =>
    match signal? signal with
    | some n => { s with status := -(n : Int), ended := true }
    | none => { s with status := 2 }
  | [word] =>
    match assignment? word with
    | some (name, value) => { s with env := s.env.insert name value, status := 0 }
    | none => { s with status := commandNotFound }
  | _ => { s with status := commandNotFound }

/-- Runs commands in order, each if its condition allows. -/
def run (s : State) : List (Condition × List (List Piece)) → State
  | [] => s
  | (w, c) :: cs =>
    let runs : Bool := match w with
      | .always => true
      | .success => s.status = 0
      | .failure => s.status ≠ 0
    if s.ended then s
    else if runs then run (step s (c.flatMap (expand s none))) cs
    else run s cs

/-- Runs a script under a name with arguments. One that cannot be read does not run at all. -/
def runScript (env : Names String) (script : String) (arguments : List String) :
    Printing.Run :=
  match tokens (2 * script.length + 1) (skipComment script.toList) with
  | none => ⟨2, []⟩
  | some ts =>
    let s := run ⟨env, arguments, 0, [], false⟩ (commands ts)
    ⟨s.status, s.written⟩

end Sigil.Shell
