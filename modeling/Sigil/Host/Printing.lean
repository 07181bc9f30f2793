import Sigil.Names
import Sigil.Number

/-!
# Commands that write

What the commands `echo` and `printf` write, as bytes, and the exit status
that they end with.
-/

namespace Sigil.Printing

/-- How a command ended, and what it had written. -/
structure Run where
  status : Int
  written : List UInt8
deriving DecidableEq

/-- The bytes of a text. -/
def bytes (s : String) : List UInt8 := s.toUTF8.data.toList

/-! ## Escapes -/

/-- The value of octal digits at the beginning of a text, at most so many, and the rest. -/
def octal (value : Nat) : Nat → List Char → Nat × List Char
  | n + 1, c :: cs =>
    if '0' ≤ c ∧ c ≤ '7' then octal (8 * value + (c.toNat - '0'.toNat)) n cs else (value, c :: cs)
  | _, cs => (value, cs)

/-- The byte that a letter means after a backslash. -/
def escapeByte? : Char → Option UInt8
  | 'a' => some 0x07
  | 'b' => some 0x08
  | 't' => some 0x09
  | 'n' => some 0x0A
  | 'v' => some 0x0B
  | 'f' => some 0x0C
  | 'r' => some 0x0D
  | '\\' => some 0x5C
  | _ => none

/-- A text with its escapes replaced, where octal numbers begin with a zero; an escaped `c` ends it.
Each step takes at least one character, so that there are at most so many. The flag says whether the
end was reached. -/
def unescaped : Nat → List Char → List UInt8 × Bool
  | 0, _ | _, [] => ([], true)
  | _, '\\' :: 'c' :: _ => ([], false)
  | n + 1, '\\' :: '0' :: cs =>
    let (value, rest) := octal 0 3 cs
    let (bs, finished) := unescaped n rest
    (UInt8.ofNat value :: bs, finished)
  | n + 1, '\\' :: c :: cs =>
    let (bs, finished) := unescaped n cs
    match escapeByte? c with
    | some b => (b :: bs, finished)
    | none => (bytes (String.ofList ['\\', c]) ++ bs, finished)
  | n + 1, c :: cs =>
    let (bs, finished) := unescaped n cs
    (bytes c.toString ++ bs, finished)

/-! ## Lines -/

/-- Writes a line, with its end or without, and with escapes replaced or not. -/
def writeLine (ended escapes : Bool) (args : List String) : Run :=
  let s := " ".intercalate args
  let (bs, finished) := if escapes then unescaped s.length s.toList else (bytes s, true)
  ⟨0, if ended && finished then bs ++ [0x0A] else bs⟩

/-- The command that writes its arguments as a line; switches in front change how. -/
def echo (ended escapes : Bool) : List String → Run
  | "-n" :: args => echo false escapes args
  | "-e" :: args => echo ended true args
  | "-E" :: args => echo ended false args
  | args => writeLine ended escapes args

/-- The command that writes the values of variables, a line each; one that is not set makes it
fail. -/
def values (env : Names String) (names : List String) : Run :=
  ⟨if names.all fun name => (env.get? name).isSome then 0 else 1,
   names.flatMap fun name => ((env.get? name).map fun v => bytes v ++ [0x0A]).getD []⟩

/-! ## Formats -/

/-- A piece of a format: bytes as they are, or a place for an argument. -/
inductive Piece where
  | bytes (bs : List UInt8)
  | place (letter : Char)
deriving DecidableEq

/-- The pieces of a format. Each step takes at least one character, so that there are at most so
many. -/
def pieces : Nat → List Char → List Piece
  | 0, _ | _, [] => []
  | n + 1, '%' :: '%' :: cs => .bytes [0x25] :: pieces n cs
  | n + 1, '%' :: c :: cs => .place c :: pieces n cs
  | n + 1, '\\' :: c :: cs =>
    match escapeByte? c with
    | some b => .bytes [b] :: pieces n cs
    | none =>
      if '0' ≤ c ∧ c ≤ '7' then
        let (value, rest) := octal 0 3 (c :: cs)
        .bytes [UInt8.ofNat value] :: pieces n rest
      else if c = '"' then .bytes [0x22] :: pieces n cs
      else .bytes (bytes (String.ofList ['\\', c])) :: pieces n cs
  | n + 1, c :: cs => .bytes (bytes c.toString) :: pieces n cs

/-- An argument as a number, if it is one. -/
def number? (s : String) : Option Int :=
  let digits (cs : List Char) : Option Nat :=
    if cs.isEmpty || !cs.all Char.isDigit then none
    else some (cs.foldl (fun n c => 10 * n + (c.toNat - '0'.toNat)) 0)
  match s.toList with
  | '-' :: cs => (digits cs).map fun n => -(n : Int)
  | '+' :: cs => (digits cs).map Int.ofNat
  | cs => (digits cs).map Int.ofNat

/-- Writes an argument in its place; a number that is none counts as zero, and an unknown letter
ends the command. -/
def place (letter : Char) (arg : Option String) : Option Run :=
  match letter with
  | 's' | 'b' => some ⟨0, bytes (arg.getD "")⟩
  | 'c' => some ⟨0, bytes (String.ofList ((arg.getD "").toList.take 1))⟩
  | 'd' | 'i' | 'u' =>
    match number? (arg.getD "0") with
    | some n => some ⟨0, bytes (Number.intText n)⟩
    | none => some ⟨1, bytes "0"⟩
  | _ => none

/-- Writes the pieces of a format once: what was written, the arguments that are left, and whether
the end was reached. -/
def writeOnce : List Piece → List String → Run × List String × Bool
  | [], args => (⟨0, []⟩, args, true)
  | .bytes bs :: ps, args =>
    let (r, rest) := writeOnce ps args
    (⟨r.status, bs ++ r.written⟩, rest)
  | .place letter :: ps, args =>
    match place letter args.head? with
    | none => (⟨1, []⟩, args, false)
    | some w =>
      let (r, rest) := writeOnce ps args.tail
      (⟨if w.status = 0 then r.status else w.status, w.written ++ r.written⟩, rest)

/-- Writes the pieces again and again, at most so often, as long as arguments are left and the
pieces take some. -/
def writeAll (ps : List Piece) : Nat → List String → Run
  | 0, _ => ⟨0, []⟩
  | n + 1, args =>
    let (r, rest, finished) := writeOnce ps args
    if finished && !rest.isEmpty && rest.length < args.length then
      let more := writeAll ps n rest
      ⟨if r.status = 0 then more.status else r.status, r.written ++ more.written⟩
    else r

/-- The command that writes its arguments as a format says. -/
def printf (args : List String) : Run :=
  match args with
  | [] => ⟨2, []⟩
  | format :: args =>
    writeAll (pieces (format.length + 1) format.toList) (args.length + 1) args

end Sigil.Printing
