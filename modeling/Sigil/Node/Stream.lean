import Sigil.Token.Lexer

/-!
# Reading a stream of tokens

What the reader of trees works on: the tokens ahead of it, the fault that
lies beyond them if there is one, and what it has read so far. A fault stops
the reader only when it looks that far, so that what comes before it can be
used on its own.
-/

namespace Sigil

/-- What the grammar wants at some place. -/
inductive Expected where
  | lexeme (s : String)
  /-- The end of an entry: a semicolon or, in braces or parentheses, the mark that closes them. -/
  | endOfEntry (closing : Option String)
  | variableToDefine
  | parameter
  | expression
  | branch
  | functionBody
  | type
  | typeName
  | commandAfterBindings
  | betweenComparisons
deriving DecidableEq, Repr

/-- What is wanted, in words. -/
def Expected.text : Expected → String
  | lexeme s => "'" ++ s ++ "'"
  | endOfEntry none => "';'"
  | endOfEntry (some closing) => "';' or '" ++ closing ++ "'"
  | variableToDefine => "a $variable after 'let'"
  | parameter => "a $parameter"
  | expression => "an expression"
  | branch => "'then' or '\x7b'"
  | functionBody => "'\x7b' to start the function body"
  | type => "a type"
  | typeName => "a type name"
  | commandAfterBindings => "a command after environment assignments"
  | betweenComparisons => "'&&', '||' or parentheses between comparisons"

/-- A token that the grammar does not allow where it stands. -/
structure ParseError where
  expected : Expected
  found : Token
deriving DecidableEq

namespace ParseError

/-- The place of the error: where the token starts. -/
def position (e : ParseError) : Position := e.found.span.start

/-- The error in words. -/
def message (e : ParseError) : String :=
  s!"expected {e.expected.text}, found {e.found.describe}"

end ParseError

/-- What more text has to bring: the rest of a construct, or of a token. -/
inductive Missing where
  | construct (expected : Expected)
  | token (fault : LexFault)
deriving DecidableEq, Repr

/-- What is missing, in words. -/
def Missing.text : Missing → String
  | construct expected => expected.text
  | token fault => fault.message

/-- Why reading stopped. -/
inductive Stop where
  | lex (e : LexError)
  | parse (e : ParseError)
  /-- The text ends within a construct, and more text may follow. -/
  | needsMore (missing : Missing)
  /-- The bound on the depth of reading was met, which the length of the text never allows. -/
  | exhausted
deriving DecidableEq

/-- A stream of tokens while it is read. -/
structure Stream where
  ahead : List Token
  /-- The fault after the tokens ahead. -/
  error : Option LexError
  /-- Whether more text may follow. -/
  openEnded : Bool
  previous : Option Token
  /-- How many tokens were read. -/
  consumed : Nat
deriving DecidableEq

namespace Stream

/-- The tokens of a text, from a token on. -/
def ofLexed (l : Lexed) (openEnded : Bool) (start : Nat) : Stream :=
  ⟨l.tokens.drop start, l.error, openEnded, none, 0⟩

/-- The token `k` places ahead. Beyond the end of the text there are only ends of text. -/
def peek (s : Stream) (k : Nat) : Except Stop Token :=
  match s.ahead[k]? with
  | some t => .ok t
  | none =>
    match s.error with
    | some e =>
      if e.fault.isIncomplete && s.openEnded then .error (.needsMore (.token e.fault))
      else .error (.lex e)
    | none =>
      .ok (s.ahead.getLast?.getD (.atEnd ((s.previous.map (·.span.stop)).getD .start)))

/-- The stream after its first token, which stays if it is the end. -/
def pop (s : Stream) (t : Token) : Stream :=
  if t.content = .endOfInput then { s with previous := some t }
  else { s with ahead := s.ahead.drop 1, previous := some t, consumed := s.consumed + 1 }

end Stream

/-- A reader of tokens. -/
abbrev Parser := StateT Stream (Except Stop)

namespace Parser

/-- The token `k` places ahead. -/
def peek (k : Nat) : Parser Token := do
  (← get).peek k

/-- Reads a token. -/
def advance : Parser Token := do
  let t ← peek 0
  modify (·.pop t)
  return t

/-- Stops, since something else is wanted here. -/
def unexpected {α : Type} (expected : Expected) : Parser α := do
  let t ← peek 0
  if t.content = .endOfInput && (← get).openEnded then
    throw (.needsMore (.construct expected))
  else throw (.parse ⟨expected, t⟩)

/-- Whether an operator is next. -/
def atOperator (s : String) : Parser Bool := return (← peek 0).isOperator s

/-- Whether a delimiter is next. -/
def atDelimiter (s : String) : Parser Bool := return (← peek 0).isDelimiter s

/-- Whether a keyword is next. -/
def atKeyword (s : String) : Parser Bool := return (← peek 0).isKeyword s

/-- Reads an operator that has to be there. -/
def operator (s : String) : Parser Token := do
  if ← atOperator s then advance else unexpected (.lexeme s)

/-- Reads a delimiter that has to be there. -/
def delimiter (s : String) : Parser Token := do
  if ← atDelimiter s then advance else unexpected (.lexeme s)

/-- Reads a keyword that has to be there. -/
def keyword (s : String) : Parser Token := do
  if ← atKeyword s then advance else unexpected (.lexeme s)

/-- The span from a token to the last one read. -/
def spanFrom (start : Token) : Parser (Option Span) := do
  let last := (← get).previous.getD start
  return some ⟨start.span.start, last.span.stop⟩

/-- Runs a step on its own results until it gives none, at most so many times. -/
def iterateUpTo {α : Type} (step : α → Parser (Option α)) : Nat → α → Parser α
  | 0, _ => throw .exhausted
  | bound + 1, a => do
    match ← step a with
    | none => return a
    | some a => iterateUpTo step bound a

/-- Runs a step on its own results until it gives none. A step that gives a result reads a token,
so that the tokens ahead bound their number. -/
def iterate {α : Type} (step : α → Parser (Option α)) (a : α) : Parser α := do
  iterateUpTo step ((← get).ahead.length + 1) a

/-- The results of a step that is run until it gives none. -/
def many {α : Type} (step : Parser (Option α)) : Parser (List α) :=
  iterate (fun as => do return (← step).map fun a => as ++ [a]) []

/-- One or more items with commas between them. -/
def commaSeparated {α : Type} (item : Parser α) : Parser (List α) := do
  let first ← item
  let rest ← many do
    if ← atDelimiter "," then
      let _ ← advance
      return some (← item)
    else return none
  return first :: rest

end Parser

end Sigil
