import Sigil.Node
import Sigil.Text.Quoted

/-!
# Writing trees as scripts

The text of a tree, which reads back as the same tree when scripts can say
the tree at all. Operands that are themselves compound stand in parentheses,
so that no reader has to know which operator binds tighter.
-/

namespace Sigil

/-- Why a tree has no text. -/
inductive RenderFault where
  /-- The finished run of a command stands for a value that no script can say. -/
  | notALiteral (run : CommandRun)
  | integerTooLong
  /-- A string holds a node that is neither a reference nor a substitution. -/
  | notAPart (kind : String)
  | noContent
deriving DecidableEq, Repr

/-- The run of a command with everything that is known of it, as messages show it. -/
def CommandRun.describe (r : CommandRun) : String :=
  let args := match r.args.map Text.quoted with
    | [a] => a ++ ","
    | as => ", ".intercalate as
  s!"CommandHandle(name={Text.quoted r.name}, args=({args}), status={Number.intText r.status}, " ++
    s!"output={Text.quoted r.output})"

/-- The fault in words. -/
def RenderFault.message : RenderFault → String
  | notALiteral run => "not a literal value: " ++ run.describe
  | integerTooLong =>
    s!"Exceeds the limit ({Number.maxDigits} digits) for integer string conversion; " ++
      "use sys.set_int_max_str_digits() to increase the limit"
  | notAPart kind => s!"'{kind}' object is not iterable"
  | noContent => "cannot render Node"

/-- A character within double quotes. -/
def escapeChar : Char → List Char
  | '\\' => ['\\', '\\']
  | '"' => ['\\', '"']
  | '$' => ['\\', '$']
  | '\n' => ['\\', 'n']
  | '\t' => ['\\', 't']
  | '\r' => ['\\', 'r']
  | '\x00' => ['\\', '0']
  | c => [c]

/-- A text within double quotes. -/
def escapeText (s : String) : List Char :=
  s.toList.flatMap escapeChar

/-- A text as a string of the language. -/
def quoteText (s : String) : List Char :=
  '"' :: (escapeText s ++ ['"'])

/-- A value as scripts write it. An infinite float is written as a number that is too large, since
its name would read back as a command. -/
def Datum.source : Datum → Except RenderFault (List Char)
  | unit => .ok ['(', ')']
  | bool b => .ok (if b then "true".toList else "false".toList)
  | int n => if Number.isWritable n then .ok (Number.intText n).toList else .error .integerTooLong
  | float x =>
    .ok (if Binary.ofFloat x = .infinite false then "1e999".toList
      else (Number.floatText x).toList)
  | text s => .ok (quoteText s)
  | run r => .error (.notALiteral r)

/-- A default within braces. The reader takes one pair of equal quotes off a default, so one that
has such a pair of its own gets another. -/
def defaultSource (s : String) : List Char :=
  match s.toList, s.toList.getLast? with
  | c :: d :: cs, some last =>
    if c = last ∧ (c = '"' ∨ c = '\'') then
      let quote := if c = '"' then '\'' else '"'
      quote :: c :: d :: (cs ++ [quote])
    else c :: d :: cs
  | cs, _ => cs

/-- A reference; it has braces if it has a default, or where more text may follow it. -/
def referenceSource (braced : Bool) (name : String) : Option String → List Char
  | some default =>
    "$\x7b".toList ++ name.toList ++ ":-".toList ++ defaultSource default ++ ['\x7d']
  | none => if braced then "$\x7b".toList ++ name.toList ++ ['\x7d'] else '$' :: name.toList

/-- A name with the type declared for it. -/
def declaredSource (name : String) : Option Ty → List Char
  | none => '$' :: name.toList
  | some t => '$' :: (name.toList ++ ": ".toList ++ t.text.toList)

/-- A parameter. -/
def Param.source (p : Param) : List Char :=
  declaredSource p.name p.declared

/-- A text, in parentheses unless it can stand alone. -/
def grouped (alone : Bool) (cs : List Char) : List Char :=
  if alone then cs else '(' :: (cs ++ [')'])

/-- Items with a comma between them. -/
def commaSource (items : List (List Char)) : List Char :=
  [',', ' '].intercalate items

/-- What stands before the body of a function. -/
def headSource (name : Option String) (params : List Param) (returns : Option Ty) : List Char :=
  "fn".toList ++ (match name with
    | none => []
    | some n => ' ' :: n.toList) ++
  '(' :: (commaSource (params.map Param.source) ++ [')']) ++ (match returns with
    | none => []
    | some t => " -> ".toList ++ t.text.toList) ++ [' ']

/-- A block with these entries. -/
def blockSource (entries : List Char) (isEmpty : Bool) : List Char :=
  if isEmpty then "\x7b \x7d".toList else "\x7b ".toList ++ entries ++ " \x7d".toList

namespace Node

/-- Whether a node can be an operand without parentheses. -/
def standsAsOperand : Node → Bool
  | literal .. | reference .. | interpolation .. | substitution .. | block .. | call .. => true
  | _ => false

/-- Whether a node can be an argument without parentheses. -/
def standsAsArgument : Node → Bool
  | literal .. | reference .. | interpolation .. | substitution .. => true
  | _ => false

/-- Whether a node can be called without parentheses. -/
def standsAsCallee : Node → Bool
  | reference .. | call .. => true
  | _ => false

/-- Whether a sign can be put right before a node; before the name of a value it would read as a
word. -/
def standsAfterSign : Node → Bool
  | reference .. | interpolation .. | substitution .. => true
  | literal _ (.number _) | literal _ (.text _) => true
  | _ => false

mutual

/-- The text of a tree. -/
def source : Node → Except RenderFault (List Char)
  | literal _ value => value.source
  | reference _ name default => .ok (referenceSource false name default)
  | substitution _ body => do
    return "$(".toList ++ (← sourceEntries body) ++ [')']
  | interpolation _ parts => do
    return '"' :: ((← sourceParts parts) ++ ['"'])
  | binding (.mk _ name value) => do
    return name.toList ++ '=' :: grouped value.standsAsArgument (← source value)
  | command _ env name args => do
    return [' '].intercalate ((← sourceBindings env) ++ name.toList :: (← sourceArguments args))
  | call _ callee args => do
    let callee := grouped callee.standsAsCallee (← source callee)
    return callee ++ '(' :: (commaSource (← sourceAll args) ++ [')'])
  | conditional _ condition thenBranch none => do
    let condition := grouped condition.standsAsOperand (← source condition)
    let thenBranch := grouped thenBranch.standsAsOperand (← source thenBranch)
    return "if ".toList ++ condition ++ " then ".toList ++ thenBranch
  | conditional _ condition thenBranch (some elseBranch) => do
    let condition := grouped condition.standsAsOperand (← source condition)
    let thenBranch := grouped thenBranch.standsAsOperand (← source thenBranch)
    return "if ".toList ++ condition ++ " then ".toList ++ thenBranch ++ " else ".toList ++
      (← source elseBranch)
  | block _ body => do
    return blockSource (← sourceEntries body) body.isEmpty
  | parameter p => .ok p.source
  | function _ name params returns _ body => do
    return headSource name params returns ++ blockSource (← sourceEntries body) body.isEmpty
  | binary _ op left right => do
    let left := grouped left.standsAsOperand (← source left)
    let right := grouped right.standsAsOperand (← source right)
    return left ++ ' ' :: (op.symbol.toList ++ ' ' :: right)
  | unary _ op operand => do
    return op.symbol.toList ++ grouped operand.standsAfterSign (← source operand)
  | ret _ none => .ok "return".toList
  | ret _ (some value) => do
    return "return ".toList ++ (← source value)
  | define _ name declared value => do
    return "let ".toList ++ declaredSource name declared ++ " = ".toList ++ (← source value)
  | assign _ name value => do
    return '$' :: (name.toList ++ " = ".toList ++ (← source value))
  | program _ body => sourceEntries body
  | blank _ => .error .noContent

/-- Entries with a semicolon between them. -/
def sourceEntries (body : List Node) : Except RenderFault (List Char) :=
  match body with
  | [] => .ok []
  | [n] => source n
  | n :: ns => do
    return (← source n) ++ ';' :: ' ' :: (← sourceEntries ns)

/-- The texts of several trees. -/
def sourceAll : List Node → Except RenderFault (List (List Char))
  | [] => .ok []
  | n :: ns => do
    return (← source n) :: (← sourceAll ns)

/-- The texts of the arguments of a command. -/
def sourceArguments : List Node → Except RenderFault (List (List Char))
  | [] => .ok []
  | n :: ns => do
    return grouped n.standsAsArgument (← source n) :: (← sourceArguments ns)

/-- The texts of the prefixes of a command. -/
def sourceBindings : List EnvBinding → Except RenderFault (List (List Char))
  | [] => .ok []
  | .mk _ name value :: bs => do
    return (name.toList ++ '=' :: grouped value.standsAsArgument (← source value)) ::
      (← sourceBindings bs)

/-- The parts of a string, without the quotes. -/
def sourceParts : List Part → Except RenderFault (List Char)
  | [] => .ok []
  | .text s :: ps => do
    return escapeText s ++ (← sourceParts ps)
  | .node (reference _ name default) :: ps => do
    return referenceSource true name default ++ (← sourceParts ps)
  | .node (substitution _ body) :: ps => do
    return "$(".toList ++ (← sourceEntries body) ++ ')' :: (← sourceParts ps)
  | .node n :: _ => .error (.notAPart n.kind)

end

end Node

end Sigil
