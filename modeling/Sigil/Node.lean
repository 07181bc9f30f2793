import Sigil.CommandRun
import Sigil.Number
import Sigil.Span
import Sigil.Ty

/-!
# Syntax trees

A script as a tree. Every construct is an expression with a value, so there
is one type of node; prefixes of commands and parts of strings have types of
their own, since nothing else may stand there. A node carries the span that
it was read from, if it was read from a text.

`Node.walk` lists a node and everything below it, parents first; the place of
a node in this list is how the checker refers to it.
-/

namespace Sigil

/-- A value that stands in a script as itself. -/
inductive Datum where
  | unit
  | bool (b : Bool)
  | number (n : Number)
  | text (s : String)
  | run (r : CommandRun)
deriving DecidableEq

namespace Datum

@[match_pattern] abbrev int (n : Int) : Datum := .number (.int n)
@[match_pattern] abbrev float (x : Float) : Datum := .number (.float x)

/-- Whether two data are of one kind and equal. Floats are compared as numbers, so that one that is
no number differs from itself. -/
def same : Datum → Datum → Bool
  | int m, int n => m = n
  | float x, float y => Number.equal (.float x) (.float y)
  | int _, float _ | float _, int _ => false
  | a, b => a = b

end Datum

/-- The operators between two operands; `other` is one that has no meaning. -/
inductive BinaryOperator where
  | or
  | and
  | equal
  | unequal
  | less
  | lessEqual
  | greater
  | greaterEqual
  | add
  | sub
  | mul
  | div
  | mod
  | other (symbol : String)
deriving DecidableEq, Repr

namespace BinaryOperator

/-- The operators with a meaning. -/
def all : List BinaryOperator :=
  [or, and, equal, unequal, less, lessEqual, greater, greaterEqual, add, sub, mul, div, mod]

/-- How an operator is written. -/
def symbol : BinaryOperator → String
  | or => "||"
  | and => "&&"
  | equal => "=="
  | unequal => "!="
  | less => "<"
  | lessEqual => "<="
  | greater => ">"
  | greaterEqual => ">="
  | add => "+"
  | sub => "-"
  | mul => "*"
  | div => "/"
  | mod => "%"
  | other s => s

/-- The operator that is written so. -/
def ofSymbol (s : String) : BinaryOperator :=
  (all.find? (·.symbol = s)).getD (other s)

end BinaryOperator

/-- The operators before an operand; `other` is one that has no symbol in scripts. -/
inductive UnaryOperator where
  | not
  | neg
  | other (symbol : String)
deriving DecidableEq, Repr

namespace UnaryOperator

/-- How an operator is written. -/
def symbol : UnaryOperator → String
  | not => "!"
  | neg => "-"
  | other s => s

/-- The operator that is written so. -/
def ofSymbol (s : String) : UnaryOperator :=
  if s = "!" then not else if s = "-" then neg else other s

end UnaryOperator

/-- A parameter of a function. -/
structure Param where
  span : Option Span
  name : String
  declared : Option Ty
deriving DecidableEq

mutual

/-- A node of a syntax tree. -/
inductive Node where
  | literal (span : Option Span) (value : Datum)
  /-- A reference; the default stands in for a missing or empty value. -/
  | reference (span : Option Span) (name : String) (default : Option String)
  /-- `$(...)`: its entries are run and the last value is taken as text. -/
  | substitution (span : Option Span) (body : List Node)
  /-- A string with references and substitutions in it. -/
  | interpolation (span : Option Span) (parts : List Part)
  /-- A prefix of a command that stands alone, which no script can say. -/
  | binding (prefixed : EnvBinding)
  | command (span : Option Span) (env : List EnvBinding) (name : String) (args : List Node)
  | call (span : Option Span) (callee : Node) (args : List Node)
  | conditional (span : Option Span) (condition thenBranch : Node) (elseBranch : Option Node)
  | block (span : Option Span) (body : List Node)
  /-- A parameter that stands alone, which no script can say. -/
  | parameter (param : Param)
  /-- A function; its body is a block. -/
  | function (span : Option Span) (name : Option String) (params : List Param)
      (returns : Option Ty) (bodySpan : Option Span) (body : List Node)
  | binary (span : Option Span) (op : BinaryOperator) (left right : Node)
  | unary (span : Option Span) (op : UnaryOperator) (operand : Node)
  | ret (span : Option Span) (value : Option Node)
  | define (span : Option Span) (name : String) (declared : Option Ty) (value : Node)
  | assign (span : Option Span) (name : String) (value : Node)
  | program (span : Option Span) (body : List Node)
  /-- A node without content. -/
  | blank (span : Option Span)

/-- `NAME=value` in front of a command: a variable in the environment of that command alone. -/
inductive EnvBinding where
  | mk (span : Option Span) (name : String) (value : Node)

/-- A part of a string. -/
inductive Part where
  | text (s : String)
  | node (n : Node)

end

instance : Inhabited Node := ⟨.blank none⟩
instance : Inhabited EnvBinding := ⟨.mk none "" default⟩

namespace EnvBinding

/-- Where the prefix stands. -/
def span : EnvBinding → Option Span
  | mk span _ _ => span

/-- The name of the variable. -/
def name : EnvBinding → String
  | mk _ name _ => name

/-- What the variable is set to. -/
def value : EnvBinding → Node
  | mk _ _ value => value

end EnvBinding

namespace Node

/-- Where a node stands. -/
def span : Node → Option Span
  | literal span .. | reference span .. | substitution span .. | interpolation span ..
  | command span .. | call span .. | conditional span .. | block span .. | function span ..
  | binary span .. | unary span .. | ret span .. | define span .. | assign span ..
  | program span .. | blank span => span
  | binding b => b.span
  | parameter p => p.span

/-- What a node is called. -/
def kind : Node → String
  | literal .. => "Literal"
  | reference .. => "VariableRef"
  | substitution .. => "Substitution"
  | interpolation .. => "Interpolation"
  | binding _ => "EnvBinding"
  | command .. => "Command"
  | call .. => "FunctionCall"
  | conditional .. => "If"
  | block .. => "Block"
  | parameter _ => "Param"
  | function .. => "FunctionDef"
  | binary .. => "BinaryOp"
  | unary .. => "UnaryOp"
  | ret .. => "Return"
  | define .. => "Let"
  | assign .. => "Assign"
  | program .. => "Program"
  | blank _ => "Node"

/-- The nodes right below a node, in the order of the text. -/
def children : Node → List Node
  | literal .. | reference .. | parameter _ | blank _ | ret _ none => []
  | substitution _ body | block _ body | program _ body => body
  | interpolation _ parts => parts.filterMap fun
    | .text _ => none
    | .node n => some n
  | binding b => [b.value]
  | command _ env _ args => env.map binding ++ args
  | call _ callee args => callee :: args
  | conditional _ condition thenBranch elseBranch => condition :: thenBranch :: elseBranch.toList
  | function _ _ params _ bodySpan body => params.map parameter ++ [block bodySpan body]
  | binary _ _ left right => [left, right]
  | unary _ _ operand => [operand]
  | ret _ (some value) | define _ _ _ value | assign _ _ value => [value]

mutual

/-- A node and all nodes below it, parents first. -/
def walk : Node → List Node
  | n@(literal ..) | n@(reference ..) | n@(parameter _) | n@(blank _) | n@(ret _ none) => [n]
  | n@(substitution _ body) | n@(block _ body) | n@(program _ body) => n :: walkAll body
  | n@(interpolation _ parts) => n :: walkParts parts
  | n@(binding (.mk _ _ value)) => n :: walk value
  | n@(command _ env _ args) => n :: (walkBindings env ++ walkAll args)
  | n@(call _ callee args) => n :: (walk callee ++ walkAll args)
  | n@(conditional _ condition thenBranch none) => n :: (walk condition ++ walk thenBranch)
  | n@(conditional _ condition thenBranch (some elseBranch)) =>
    n :: (walk condition ++ walk thenBranch ++ walk elseBranch)
  | n@(function _ _ params _ bodySpan body) =>
    n :: (params.map parameter ++ block bodySpan body :: walkAll body)
  | n@(binary _ _ left right) => n :: (walk left ++ walk right)
  | n@(unary _ _ operand) => n :: walk operand
  | n@(ret _ (some value)) | n@(define _ _ _ value) | n@(assign _ _ value) => n :: walk value

@[inherit_doc walk]
def walkAll : List Node → List Node
  | [] => []
  | n :: ns => walk n ++ walkAll ns

@[inherit_doc walk]
def walkBindings : List EnvBinding → List Node
  | [] => []
  | .mk span name value :: bs => binding (.mk span name value) :: walk value ++ walkBindings bs

@[inherit_doc walk]
def walkParts : List Part → List Node
  | [] => []
  | .text _ :: ps => walkParts ps
  | .node n :: ps => walk n ++ walkParts ps

end

theorem walkAll_eq_flatMap (ns : List Node) : walkAll ns = ns.flatMap walk := by
  induction ns with
  | nil => rfl
  | cons n ns ih => rw [walkAll, ih, List.flatMap_cons]

mutual

/-- Whether two trees are the same but for their spans. -/
def same : Node → Node → Bool
  | literal _ a, literal _ b => a.same b
  | reference _ n d, reference _ m e => n = m && d = e
  | substitution _ a, substitution _ b | block _ a, block _ b | program _ a, program _ b =>
    sameAll a b
  | interpolation _ a, interpolation _ b => sameParts a b
  | binding a, binding b => sameBinding a b
  | command _ e n a, command _ f m b => n = m && sameAll a b && sameBindings e f
  | call _ f a, call _ g b => same f g && sameAll a b
  | conditional _ a b none, conditional _ c d none => same a c && same b d
  | conditional _ a b (some e), conditional _ c d (some f) => same a c && same b d && same e f
  | parameter p, parameter q => p.name = q.name && p.declared = q.declared
  | function _ n ps r _ a, function _ m qs s _ b =>
    n = m && ps.map (fun p => (p.name, p.declared)) = qs.map (fun q => (q.name, q.declared)) &&
      r = s && sameAll a b
  | binary _ o a b, binary _ p c d => o = p && same a c && same b d
  | unary _ o a, unary _ p b => o = p && same a b
  | ret _ none, ret _ none => true
  | ret _ (some a), ret _ (some b) => same a b
  | define _ n t a, define _ m u b => n = m && t = u && same a b
  | assign _ n a, assign _ m b => n = m && same a b
  | blank _, blank _ => true
  | _, _ => false

@[inherit_doc same]
def sameBinding : EnvBinding → EnvBinding → Bool
  | .mk _ n a, .mk _ m b => n = m && same a b

@[inherit_doc same]
def sameAll : List Node → List Node → Bool
  | [], [] => true
  | a :: as, b :: bs => same a b && sameAll as bs
  | _, _ => false

@[inherit_doc same]
def sameBindings : List EnvBinding → List EnvBinding → Bool
  | [], [] => true
  | a :: as, b :: bs => sameBinding a b && sameBindings as bs
  | _, _ => false

@[inherit_doc same]
def sameParts : List Part → List Part → Bool
  | [], [] => true
  | .text s :: as, .text t :: bs => s = t && sameParts as bs
  | .node a :: as, .node b :: bs => same a b && sameParts as bs
  | _, _ => false

end

end Node

end Sigil
