import Sigil.Node.Parser

/-!
# Readers in stages

A reader of the grammar as what it reads first and what it reads from there on.
What holds of the rest of a construct is shown once and used wherever the reader
arrives there: behind either branch of a conditional, with a function's name or
without, with a function's type or without, and behind the name of a command.
-/

namespace Sigil.Parser

/-- Reads a conditional from behind its first branch on. -/
def elseBranch (expression : Parser Node) (start : Token) (condition thenBranch : Node) :
    Parser Node := do
  let elseBranch ←
    if ← atKeyword "else" then
      let _ ← advance
      pure (some (← expression))
    else pure none
  return .conditional (← spanFrom start) condition thenBranch elseBranch

/-- Reads the body of a function. -/
def functionBody (expression : Parser Node) (start : Token) (name : Option String)
    (params : List Param) (returns : Option Ty) : Parser Node := do
  if ← atDelimiter "\x7b" then
    let (bodySpan, body) ← block expression
    return .function (← spanFrom start) name params returns bodySpan body
  else unexpected .functionBody

/-- Reads a function from its parameters on. -/
def functionFrom (expression : Parser Node) (start : Token) (name : Option String) :
    Parser Node := do
  let _ ← delimiter "("
  let params ← if ← atDelimiter ")" then pure [] else commaSeparated parameter
  let _ ← delimiter ")"
  let returns ←
    if ← atOperator "->" then
      let _ ← advance
      pure (some (← type))
    else pure none
  functionBody expression start name params returns

theorem function_eq (expression : Parser Node) : function expression = (do
    let start ← keyword "fn"
    let name ← if (← peek 0).isPlainWord then pure (some (← advance).lexeme) else pure none
    functionFrom expression start name) := rfl

/-- Reads what is bound before the name of a command. -/
def prefixes (expression : Parser Node) : Parser (List EnvBinding) :=
  many do if ← atBinding then return some (← binding expression) else return none

/-- Reads the arguments of a command. -/
def arguments (expression : Parser Node) : Parser (List Node) :=
  many do if startsArgument (← peek 0) then return some (← argument expression) else return none

/-- Reads a command from behind its name on. -/
def named (expression : Parser Node) (start name : Token) (env : List EnvBinding) :
    Parser Node := do
  let next ← peek 0
  let args ←
    if next.isDelimiter "(" && adjacent name next then callArguments expression
    else arguments expression
  return .command (← spanFrom start) env name.lexeme args

/-- Reads a command. -/
def command (expression : Parser Node) (start : Token) : Parser Node := do
  let env ← prefixes expression
  let t ← peek 0
  if env.isEmpty || t.isPlainWord then named expression start (← advance) env
  else throw (.parse ⟨.commandAfterBindings, t⟩)

/-- What is read before calls is a command, or no word is its first token. -/
theorem application_eq (expression : Parser Node) : application expression = (do
    let start ← peek 0
    if start.isPlainWord then command expression start else primary expression) := rfl

end Sigil.Parser
