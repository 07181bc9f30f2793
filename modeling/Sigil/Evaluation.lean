import Sigil.Host
import Sigil.Operator
import Sigil.Store

/-!
# Running scripts

A tree is evaluated in a frame of the store. One step of evaluation is
written for a given way of evaluating the nodes below (`evaluateWith`);
`evaluate` ties the knot with a bound on how deep evaluations nest, which
only recursion without an end meets.

A `return` leaves evaluation on the same way as an error does, until the call
that it belongs to takes its value.
-/

namespace Sigil

/-- Why a script stopped running. -/
inductive RuntimeFault where
  | unbound (name : String)
  | condition (found : Ty)
  | notBool (symbol : String) (found : Ty)
  | negation (found : Ty)
  | operator (fault : OperatorFault)
  | initializer (name : String) (declared found : Ty)
  | assignment (name : String) (declared found : Ty)
  | argument (param function : String) (declared found : Ty)
  | result (function : String) (declared found : Ty)
  | notAFunction (found : Ty)
  | arity (function : String) (expected found : Nat)
  | integerTooLong
  | notEvaluable (kind : String)
  | tooDeep
  | noHost (command : String)
  | hostFailure (command reason : String)
  | notFound (command output : String)
  | exited (command : String) (status : Int) (output : String)
deriving DecidableEq

namespace RuntimeFault

/-- The kinds of faults. -/
inductive Kind where
  | runtime
  | typeMismatch
  | unboundName
  | divisionByZero
  | arityMismatch
  | commandFailure
deriving DecidableEq, Repr

/-- The kind in words. -/
def Kind.text : Kind → String
  | runtime => "RuntimeError"
  | typeMismatch => "TypeMismatch"
  | unboundName => "UnboundName"
  | divisionByZero => "DivisionByZero"
  | arityMismatch => "ArityMismatch"
  | commandFailure => "ExternalCommandFailure"

/-- The kind of a fault. -/
def kind : RuntimeFault → Kind
  | unbound _ => .unboundName
  | operator .divisionByZero | operator .remainderByZero => .divisionByZero
  | operator (.outOfRange _) | integerTooLong | notEvaluable _ | tooDeep => .runtime
  | arity .. => .arityMismatch
  | noHost _ | hostFailure .. | notFound .. | exited .. => .commandFailure
  | _ => .typeMismatch

/-- What went wrong, in words. -/
def reason : RuntimeFault → String
  | unbound name => s!"${name} is not bound"
  | condition found => s!"if condition must be Bool, found {found.text}"
  | notBool symbol found => s!"'{symbol}' needs Bool operands, found {found.text}"
  | negation found => s!"cannot negate {found.text}"
  | operator (.mismatch symbol left right) =>
    s!"cannot apply '{symbol}' to {left.text} and {right.text}"
  | operator .divisionByZero => "division by zero"
  | operator .remainderByZero => "remainder by zero"
  | operator (.outOfRange symbol) => s!"result of '{symbol}' is out of range"
  | initializer name declared found => s!"${name} is declared {declared.text}, found {found.text}"
  | assignment name declared found =>
    s!"${name} is declared {declared.text}, cannot assign {found.text}"
  | argument param function declared found =>
    s!"${param} of {function} must be {declared.text}, found {found.text}"
  | result function declared found =>
    s!"{function} must return {declared.text}, found {found.text}"
  | notAFunction found => s!"{found.text} is not a function"
  | arity function expected found =>
    s!"{function} takes {expected} argument(s) but {found} were given"
  | integerTooLong => "integer is too large to render as text"
  | notEvaluable kind => s!"cannot evaluate {kind}"
  | tooDeep => "maximum call depth exceeded"
  | noHost command => s!"no command host is available to run {command}"
  | hostFailure command reason => s!"{command}: {reason}"
  | notFound command _ => s!"command not found: {command}"
  | exited command status _ => s!"{command} exited with status {status}"

/-- The fault in words, with its kind. -/
def message (f : RuntimeFault) : String :=
  f.kind.text ++ ": " ++ f.reason

end RuntimeFault

/-- A fault and the piece of the script that it is about. -/
structure RuntimeError where
  fault : RuntimeFault
  span : Option Span
deriving DecidableEq

/-- How evaluation can end other than with a value. -/
inductive Exit where
  | error (e : RuntimeError)
  | returned (v : Value)
  /-- Evaluations nest deeper than the bound allows. -/
  | tooDeep

/-- What running scripts work on. -/
structure World where
  store : Store
  /-- The calls made of the host so far. -/
  calls : List Call
  /-- How many closures were made. -/
  closures : Nat
  /-- After how many more looks the session finds itself interrupted, if it does. -/
  interrupt : Option Nat

/-- A store with one frame, the root of all others, and nothing done yet. -/
def World.initial : World := ⟨(Store.empty.push none).2, [], 0, none⟩

/-- The root frame. -/
def rootFrame : FrameId := 0

/-- A computation on the world, one change after the other: `step change next` in a world goes on
with `next` of that world, in the world that `change` makes of it. Unlike a function of the world it
passes through worlds that can be spoken of (`Steps.worlds`). -/
inductive Steps (α : Type) where
  | done (a : α)
  | step (change : World → World) (next : World → Steps α)

namespace Steps

/-- One computation after another. -/
def bind {α β : Type} : Steps α → (α → Steps β) → Steps β
  | done a, f => f a
  | step change next, f => step change fun w => bind (next w) f

/-- What a computation comes to, and the world that it leaves. -/
def run {α : Type} : Steps α → World → α × World
  | done a, w => (a, w)
  | step change next, w => run (next w) (change w)

/-- The worlds that a computation passes through, from the one that it starts in to the one that it
leaves. -/
def worlds {α : Type} : Steps α → World → List World
  | done _, w => [w]
  | step change next, w => w :: worlds (next w) (change w)

instance : Monad Steps where
  pure := done
  bind := bind

instance : MonadStateOf World Steps where
  get := step id done
  set w := step (fun _ => w) fun _ => done ()
  modifyGet f := step (fun w => (f w).2) fun w => done (f w).1

end Steps

/-- A step of evaluation. What it did before it ended stays done. -/
abbrev Eval := ExceptT Exit Steps

namespace Eval

/-- How evaluation in a world ends, and the world that it leaves. -/
def run {α : Type} (m : Eval α) (w : World) : Except Exit α × World :=
  Steps.run (ExceptT.run m) w

/-- The worlds that evaluation in a world passes through. -/
def worlds {α : Type} (m : Eval α) (w : World) : List World :=
  Steps.worlds (ExceptT.run m) w

/-- Ends with an error. -/
def fail {α : Type} (fault : RuntimeFault) (span : Option Span) : Eval α :=
  throw (.error ⟨fault, span⟩)

/-- The store. -/
def store : Eval Store := return (← get).store

/-- Changes the store. -/
def modifyStore (f : Store → Store) : Eval Unit :=
  modify fun w => { w with store := f w.store }

/-- Makes a frame within another one. -/
def newFrame (outer : FrameId) : Eval FrameId :=
  modifyGet fun w =>
    let (f, store) := w.store.push (some outer)
    (f, { w with store })

/-- A value as text for a command or a string. -/
def argumentText (v : Value) : Eval String :=
  match v.argument? with
  | some s => return s
  | none => fail .integerTooLong none

/-- A truth value where one has to be. -/
def requireBool (symbol : String) (v : Value) (span : Option Span) : Eval Bool :=
  match v with
  | .bool b => return b
  | v => fail (.notBool symbol v.type) span

/-- The result of an operation. -/
def operated {α : Type} (r : Except OperatorFault α) (span : Option Span) : Eval α :=
  match r with
  | .ok a => return a
  | .error fault => fail (.operator fault) span

/-- Asks the host to run a command. A run that fails in any way is an error. -/
def runCommand (host : Option Host) (call : Call) (span : Option Span) : Eval Value := do
  match host with
  | none => fail (.noHost call.name) span
  | some host =>
    let w ← get
    let reply := host.reply w.calls call
    set { w with
      calls := w.calls ++ [call]
      interrupt := if reply.interrupts then some 0 else w.interrupt }
    match reply.outcome with
    | .failed reason => fail (.hostFailure call.name reason) span
    | .exited status output =>
      if status = commandNotFound then fail (.notFound call.name output) span
      else if status ≠ 0 then fail (.exited call.name status output) span
      else return .run ⟨call.name, call.args, status, output⟩

/-- The value of a reference; a default stands in for a missing value and for an empty text. -/
def reference (name : String) (default : Option String) (span : Option Span) (f : FrameId) :
    Eval Value := do
  match (← store).lookup? f name, default with
  | some v, none => return v
  | none, none => fail (.unbound name) span
  | none, some d => return .string d
  | some v, some d => return if v.asText = some "" then .string d else v

section

variable (host : Option Host) (eval : Node → FrameId → Eval Value)

/-- Evaluates entries one after the other; the value is that of the last. -/
def entries (body : List Node) (f : FrameId) : Eval Value :=
  body.foldlM (fun _ n => eval n f) .unit

/-- Calls a closure: in a new frame within that of its definition, with its parameters there. The
types declared for parameters and result are checked. -/
def applyClosure (c : Closure) (args : List Value) (span : Option Span) : Eval Value := do
  if args.length ≠ c.params.length then
    fail (.arity c.describe c.params.length args.length) span
  for (p, v) in c.params.zip args do
    if let some t := p.declared then
      if !v.fits p.declared then fail (.argument p.name c.describe t v.type) span
  let f ← newFrame c.scope
  for (p, v) in c.params.zip args do
    modifyStore (·.define f p.name ⟨v, p.declared⟩)
  let v ← tryCatch (eval (.block c.bodySpan c.body) f) fun
    | .returned v => return v
    | e => throw e
  match c.returns with
  | none => return v
  | some t => if v.fits (some t) then return v else fail (.result c.describe t v.type) span

/-- Calls a value, which has to be a closure. -/
def apply (callee : Value) (args : List Value) (span : Option Span) : Eval Value :=
  match callee with
  | .closure c => applyClosure eval c args span
  | v => fail (.notAFunction v.type) span

/-- Evaluates a command. The name of a closure makes it a call, unless the environment is changed
for it; everything else is run by the host. -/
def command (span : Option Span) (env : List EnvBinding) (name : String) (args : List Node)
    (f : FrameId) : Eval Value := do
  let s ← store
  let named := if env.isEmpty then s.lookup? f name else none
  match named with
  | some (.closure c) =>
    let args ← args.mapM (eval · f)
    applyClosure eval c args span
  | _ =>
    let overrides ← env.foldlM (fun (t : Names String) b => do
      return t.insert b.name (← argumentText (← eval b.value f))) []
    let args ← args.mapM fun n => do argumentText (← eval n f)
    runCommand host ⟨name, args, if overrides.isEmpty then none else some overrides⟩ span

/-- Evaluates an operation on two operands. The right operand of `&&` and `||` is evaluated only if
the left one does not decide. -/
def binary (span : Option Span) (op : BinaryOperator) (left right : Node) (f : FrameId) :
    Eval Value := do
  match op with
  | .and | .or =>
    let b ← requireBool op.symbol (← eval left f) left.span
    if b = decide (op = .or) then return .bool b
    else return .bool (← requireBool op.symbol (← eval right f) right.span)
  | .equal | .unequal | .less | .lessEqual | .greater | .greaterEqual =>
    let a ← eval left f
    let b ← eval right f
    return .bool (← operated (a.compare op b) span)
  | _ =>
    let a ← eval left f
    let b ← eval right f
    operated (a.arithmetic op b) span

/-- Evaluates an operation on one operand. -/
def unary (span : Option Span) (op : UnaryOperator) (operand : Node) (f : FrameId) :
    Eval Value := do
  let v ← eval operand f
  match op, v with
  | .not, v => return .bool (!(← requireBool op.symbol v span))
  | _, .number n => return .number n.neg
  | _, v => fail (.negation v.type) span

/-- Evaluates a node, given how to evaluate the nodes below it. -/
def evaluateWith (n : Node) (f : FrameId) : Eval Value := do
  match n with
  | .literal _ value => return .datum value
  | .reference span name default => reference name default span f
  | .interpolation _ parts =>
    let texts ← parts.mapM fun
      | .text s => return s
      | .node n => do argumentText (← eval n f)
    return .string (String.join texts)
  | .substitution _ body =>
    match ← entries eval body (← newFrame f) with
    | .unit => return .string ""
    | v => return .string (← argumentText v)
  | .command span env name args => command host eval span env name args f
  | .call span callee args =>
    let callee ← eval callee f
    let args ← args.mapM (eval · f)
    apply eval callee args span
  | .conditional _ condition thenBranch elseBranch =>
    match ← eval condition f with
    | .bool true => eval thenBranch f
    | .bool false =>
      match elseBranch with
      | none => return .unit
      | some n => eval n f
    | v => fail (.condition v.type) condition.span
  | .block _ body => entries eval body (← newFrame f)
  | .program _ body => entries eval body f
  | .function _ name params returns bodySpan body =>
    let id := (← get).closures
    modify fun w => { w with closures := w.closures + 1 }
    let v := Value.closure ⟨id, name, params, returns, bodySpan, body, f⟩
    if let some name := name then modifyStore (·.define f name ⟨v, none⟩)
    return v
  | .binary span op left right => binary eval span op left right f
  | .unary span op operand => unary eval span op operand f
  | .ret _ value =>
    let v ← match value with
      | none => pure .unit
      | some n => eval n f
    throw (.returned v)
  | .define span name declared value =>
    let v ← eval value f
    if let some t := declared then
      if !v.fits declared then fail (.initializer name t v.type) span
    modifyStore (·.define f name ⟨v, declared⟩)
    return v
  | .assign span name value =>
    let v ← eval value f
    match (← store).slot? f name with
    | none => fail (.unbound name) span
    | some slot =>
      if let some t := slot.declared then
        if !v.fits slot.declared then fail (.assignment name t v.type) span
      modifyStore (·.assign f name v)
      return v
  | .binding _ | .parameter _ | .blank _ => fail (.notEvaluable n.kind) n.span

end

/-- Evaluates a node, at most so deep. -/
def evaluate (host : Option Host) : Nat → Node → FrameId → Eval Value
  | 0, _, _ => throw .tooDeep
  | depth + 1, n, f => evaluateWith host (evaluate host depth) n f

/-- How deep evaluations nest at most. -/
def maxDepth : Nat := 500

end Eval

end Sigil
