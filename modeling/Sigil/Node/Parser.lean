import Sigil.Node
import Sigil.Node.Stream

/-!
# Reading trees

The grammar of scripts, as a reader of tokens. Line breaks mean nothing:
entries end with a semicolon, which may be left out after a closing brace.
From tightest to loosest bind the arguments of a command, calls, signs,
`* / %`, `+ -`, comparisons (one at a time), `&&`, `||`, and assignment.

The pieces of the grammar are written for a given reader of expressions;
`expression` ties the knot, with a bound on how deep expressions nest. The
length of the text is such a bound.
-/

namespace Sigil.Parser

/-! ## Types -/

/-- Reads a type, given how to read the types within it. -/
def typeWith (type : Parser Ty) : Parser Ty := do
  let t ← peek 0
  if t.content ≠ .word then unexpected .type
  else
    let _ ← advance
    if t.lexeme = "Fn" then
      let _ ← delimiter "("
      let params ← if ← atDelimiter ")" then pure [] else commaSeparated type
      let _ ← delimiter ")"
      let _ ← operator "->"
      return .fn params (← type)
    else
      match Ty.ofName? t.lexeme with
      | some ty => return ty
      | none => throw (.parse ⟨.typeName, t⟩)

/-- Reads a type that nests at most so deep. -/
def typeUpTo : Nat → Parser Ty
  | 0 => throw .exhausted
  | depth + 1 => typeWith (typeUpTo depth)

/-- Reads a type. -/
def type : Parser Ty := do
  typeUpTo ((← get).ahead.length + 1)

/-- Reads the type declared after a colon, if one is. -/
def declaredType : Parser (Option Ty) := do
  if ← atOperator ":" then
    let _ ← advance
    return some (← type)
  else return none

/-! ## What a token can start -/

/-- Whether a token stands for a value by itself. -/
def isAtom (t : Token) : Bool :=
  match t.content with
  | .integer _ | .float _ | .string _ | .variable _ | .defaulted .. => true
  | _ => false

/-- Whether an expression can start with a token. -/
def startsExpression (t : Token) : Bool :=
  isAtom t || t.isPlainWord ||
    ["let", "fn", "if", "return", "true", "false"].any t.isKeyword ||
    ["(", "\x7b", "$("].any t.isDelimiter || ["-", "!"].any t.isOperator

/-- Whether an argument can start with a token. -/
def startsArgument (t : Token) : Bool :=
  isAtom t || t.isPlainWord || ["true", "false"].any t.isKeyword || ["(", "$("].any t.isDelimiter

/-- Whether one token follows another without anything between them. -/
def adjacent (t u : Token) : Bool :=
  u.span.start.offset = t.span.stop.offset

/-- Whether a word is a name. -/
def isName (s : String) : Bool :=
  s.toList.head?.any Lexer.isNameStart && s.toList.all Lexer.isNameChar

/-! ## Entries -/

/-- Whether the entries end here: at the closing mark, or at the end of the text. -/
def atClosing : Option String → Parser Bool
  | none => return (← peek 0).content = .endOfInput
  | some closing => atDelimiter closing

/-- Reads the semicolons that come next. -/
def skipSemicolons : Parser Unit := do
  let _ ← many do
    if ← atDelimiter ";" then return some (← advance) else return none

/-- Reads what separates an entry from the next. -/
def endEntry (closing : Option String) : Parser Unit := do
  if ← atDelimiter ";" then
    let _ ← advance
  else if ← atClosing closing then return ()
  else if (← get).previous.any (·.isDelimiter "\x7d") then return ()
  else unexpected (.endOfEntry closing)

/-- Reads one entry with what separates it from the next, if there is one. -/
def entry (expression : Parser Node) (closing : Option String) : Parser (Option Node) := do
  skipSemicolons
  if ← atClosing closing then return none
  else
    let n ← expression
    endEntry closing
    return some n

/-- Reads entries up to a closing mark. -/
def entries (expression : Parser Node) (closing : Option String) : Parser (List Node) :=
  many (entry expression closing)

/-- Reads all entries of a text, as their span and the entries. -/
def program (expression : Parser Node) : Parser (Option Span × List Node) := do
  let start ← peek 0
  let body ← entries expression none
  return (← spanFrom start, body)

/-! ## Primary expressions -/

section

variable (expression : Parser Node)

/-- The node of a part of a string. The text in a substitution is complete, whatever may follow the
string. -/
def stringPart : StringPart → Parser Part
  | .text s => return .text s
  | .variable name default span => return .node (.reference (some span) name default)
  | .substitution inside span => do
    let ((_, body), _) ← (program expression).run (.ofLexed inside.tokens false 0)
    return .node (.substitution (some span) body)

/-- The node of a string; without references it is a value. -/
def string (span : Span) (parts : List StringPart) : Parser Node := do
  let texts := parts.map fun
    | .text s => some s
    | _ => none
  if texts.all Option.isSome then
    return .literal (some span) (.text (String.join (texts.filterMap id)))
  else return .interpolation (some span) (← parts.mapM (stringPart expression))

/-- Reads `$(...)`. -/
def substitution : Parser Node := do
  let start ← delimiter "$("
  let body ← entries expression (some ")")
  let _ ← delimiter ")"
  return .substitution (← spanFrom start) body

/-- Reads an expression in parentheses; nothing in parentheses is the unit value. -/
def parenthesized : Parser Node := do
  let start ← delimiter "("
  if ← atDelimiter ")" then
    let _ ← advance
    return .literal (← spanFrom start) .unit
  else
    let n ← expression
    let _ ← delimiter ")"
    return n

/-- Reads a block, as its span and its entries. -/
def block : Parser (Option Span × List Node) := do
  let start ← delimiter "\x7b"
  let body ← entries expression (some "\x7d")
  let _ ← delimiter "\x7d"
  return (← spanFrom start, body)

/-- Reads a block as a node. -/
def blockNode : Parser Node := do
  let (span, body) ← block expression
  return .block span body

/-- Reads a conditional. -/
def conditional : Parser Node := do
  let start ← keyword "if"
  let condition ← expression
  let thenBranch ←
    if ← atKeyword "then" then
      let _ ← advance
      expression
    else if ← atDelimiter "\x7b" then blockNode expression
    else unexpected .branch
  let elseBranch ←
    if ← atKeyword "else" then
      let _ ← advance
      pure (some (← expression))
    else pure none
  return .conditional (← spanFrom start) condition thenBranch elseBranch

/-- Reads a parameter. -/
def parameter : Parser Param := do
  let t ← peek 0
  match t.content with
  | .variable name =>
    let start ← advance
    let declared ← declaredType
    return ⟨← spanFrom start, name, declared⟩
  | _ => unexpected .parameter

/-- Reads a function. -/
def function : Parser Node := do
  let start ← keyword "fn"
  let name ←
    if (← peek 0).isPlainWord then pure (some (← advance).lexeme) else pure none
  let _ ← delimiter "("
  let params ← if ← atDelimiter ")" then pure [] else commaSeparated parameter
  let _ ← delimiter ")"
  let returns ←
    if ← atOperator "->" then
      let _ ← advance
      pure (some (← type))
    else pure none
  if ← atDelimiter "\x7b" then
    let (bodySpan, body) ← block expression
    return .function (← spanFrom start) name params returns bodySpan body
  else unexpected .functionBody

/-- Reads a return, with a value if one can follow. -/
def return_ : Parser Node := do
  let start ← keyword "return"
  let value ← if startsExpression (← peek 0) then pure (some (← expression)) else pure none
  return .ret (← spanFrom start) value

/-- Reads a definition. -/
def define : Parser Node := do
  let start ← keyword "let"
  let t ← peek 0
  match t.content with
  | .variable name =>
    let _ ← advance
    let declared ← declaredType
    let _ ← operator "="
    let value ← expression
    return .define (← spanFrom start) name declared value
  | _ => unexpected .variableToDefine

/-- Reads an expression that is no command and has no operator outside of parentheses. -/
def primary : Parser Node := do
  let t ← peek 0
  let span := some t.span
  match t.content with
  | .integer n =>
    let _ ← advance
    return .literal span (.int n)
  | .float x =>
    let _ ← advance
    return .literal span (.float x)
  | .string parts =>
    let _ ← advance
    string expression t.span parts
  | .variable name =>
    let _ ← advance
    return .reference span name none
  | .defaulted name default =>
    let _ ← advance
    return .reference span name (some default)
  | .delimiter =>
    if t.lexeme = "(" then parenthesized expression
    else if t.lexeme = "$(" then substitution expression
    else if t.lexeme = "\x7b" then blockNode expression
    else unexpected .expression
  | .word =>
    if t.lexeme = "true" ∨ t.lexeme = "false" then
      let _ ← advance
      return .literal span (.bool (t.lexeme = "true"))
    else if t.lexeme = "if" then conditional expression
    else if t.lexeme = "fn" then function expression
    else if t.lexeme = "return" then return_ expression
    else if t.lexeme = "let" then define expression
    else unexpected .expression
  | _ => unexpected .expression

/-! ## Commands and calls -/

/-- Reads an argument; a word stands for itself. -/
def argument : Parser Node := do
  let t ← peek 0
  if t.isPlainWord then
    let _ ← advance
    return .literal (some t.span) (.text t.lexeme)
  else if t.isDelimiter "(" then parenthesized expression
  else primary expression

/-- Whether `NAME=value` is next, without blanks in it. -/
def atBinding : Parser Bool := do
  let key ← peek 0
  if key.isPlainWord && isName key.lexeme then
    let eq ← peek 1
    if eq.isOperator "=" && adjacent key eq then
      let value ← peek 2
      return adjacent eq value && startsArgument value
    else return false
  else return false

/-- Reads `NAME=value`. -/
def binding : Parser EnvBinding := do
  let key ← advance
  let _ ← advance
  let value ← argument expression
  return .mk (← spanFrom key) key.lexeme value

/-- Reads arguments in parentheses. -/
def callArguments : Parser (List Node) := do
  let _ ← delimiter "("
  let args ← if ← atDelimiter ")" then pure [] else commaSeparated expression
  let _ ← delimiter ")"
  return args

/-- Reads a command with its arguments, which are in parentheses if a parenthesis follows the name
at once, or else an expression that is no command. -/
def application : Parser Node := do
  let start ← peek 0
  if start.isPlainWord then
    let env ← many do
      if ← atBinding then return some (← binding expression) else return none
    let t ← peek 0
    if env.isEmpty || t.isPlainWord then
      let name ← advance
      let next ← peek 0
      let args ←
        if next.isDelimiter "(" && adjacent name next then callArguments expression
        else many do
          if startsArgument (← peek 0) then return some (← argument expression) else return none
      return .command (← spanFrom start) env name.lexeme args
    else throw (.parse ⟨.commandAfterBindings, t⟩)
  else primary expression

/-- Reads an expression that may be called, several times in a row. -/
def postfixCalls : Parser Node := do
  let start ← peek 0
  let callee ← application expression
  iterate (fun callee => do
    if ← atDelimiter "(" then
      let args ← callArguments expression
      return some (.call (← spanFrom start) callee args)
    else return none) callee

/-! ## Operators -/

/-- Reads an expression with signs before it. -/
def signed : Parser Node := do
  let signs ← many do
    if (← atOperator "-") || (← atOperator "!") then return some (← advance) else return none
  let operand ← postfixCalls expression
  signs.foldrM (fun sign operand => do
    return .unary (← spanFrom sign) (.ofSymbol sign.lexeme) operand) operand

end

/-- Whether one of several operators is next. -/
def atOneOf (ops : List BinaryOperator) : Parser Bool := do
  let t ← peek 0
  return ops.any fun op => t.isOperator op.symbol

/-- Reads operands with operators of one level between them, from left to right. -/
def chain (ops : List BinaryOperator) (operand : Parser Node) : Parser Node := do
  let start ← peek 0
  let first ← operand
  iterate (fun left => do
    if ← atOneOf ops then
      let op ← advance
      let right ← operand
      return some (.binary (← spanFrom start) (.ofSymbol op.lexeme) left right)
    else return none) first

/-- The operators that compare. -/
def comparisons : List BinaryOperator :=
  [.equal, .unequal, .less, .lessEqual, .greater, .greaterEqual]

/-- Reads an operand, or two with a comparison between them; there must not be a second one. -/
def comparison (operand : Parser Node) : Parser Node := do
  let start ← peek 0
  let left ← operand
  if ← atOneOf comparisons then
    let op ← advance
    let right ← operand
    let n := .binary (← spanFrom start) (.ofSymbol op.lexeme) left right
    if ← atOneOf comparisons then throw (.parse ⟨.betweenComparisons, ← peek 0⟩)
    else return n
  else return left

/-- Reads operands with operators of all levels between them. -/
def operation (operand : Parser Node) : Parser Node :=
  chain [.or] <| chain [.and] <| comparison <|
    chain [.add, .sub] <| chain [.mul, .div, .mod] operand

/-! ## Expressions -/

/-- Reads an expression, given how to read the expressions within it. -/
def expressionWith (expression : Parser Node) : Parser Node := do
  let t ← peek 0
  if t.isKeyword "let" then define expression
  else
    match t.content with
    | .variable name =>
      if (← peek 1).isOperator "=" then
        let start ← advance
        let _ ← advance
        let value ← expression
        return .assign (← spanFrom start) name value
      else operation (signed expression)
    | _ => operation (signed expression)

/-- Reads an expression that nests at most so deep. -/
def expressionUpTo : Nat → Parser Node
  | 0 => throw .exhausted
  | depth + 1 => expressionWith (expressionUpTo depth)

end Sigil.Parser

namespace Sigil

/-- Reads a whole script. -/
def parseProgram (source : List Char) : Except Stop Node := do
  let ((span, body), _) ← (Parser.program (Parser.expressionUpTo (source.length + 1))).run
    (.ofLexed (tokenize source) false 0)
  return .program span body

/-- Reads one entry of a script, from a token on: the entry, unless the script ends before it, and
how many tokens it takes up with what separates it from the next. -/
def parseEntry (source : List Char) (openEnded : Bool) (start : Nat) :
    Except Stop (Option Node × Nat) := do
  let (n, rest) ← (Parser.entry (Parser.expressionUpTo (source.length + 1)) none).run
    (.ofLexed (tokenize source) openEnded start)
  return (n, rest.consumed)

/-- Reads the entries of a script one after the other. -/
def parseEntries (source : List Char) (openEnded : Bool) : Except Stop (List Node) :=
  (·.1) <$> (Parser.entries (Parser.expressionUpTo (source.length + 1)) none).run
    (.ofLexed (tokenize source) openEnded 0)

end Sigil
