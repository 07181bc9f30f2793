import Sigil.Diagnostic
import Sigil.Node
import Sigil.Typing.Scope

/-!
# Checking scripts

One pass over a tree that finds out what its names mean, gives every node a
static type, and reports what looks wrong. Only a `return` outside of every
function stops it; anything else is a warning, and what the script then does
is decided when it runs.

A node's type is kept in a list of notes, in the place that the node has
among all nodes of the tree, parents first. A node is given a type once.
-/

namespace Sigil

/-- Something about a script that the checker reports. -/
inductive Finding where
  | unbound (name : String)
  | unused (name : String)
  | condition (found : Ty)
  | initializer (name : String) (declared found : Ty)
  | assignment (name : String) (declared found : Ty)
  | notAFunction (found : Ty)
  | arity (expected found : Nat)
  | argument (position : Nat) (expected found : Ty)
  | result (found declared : Ty)
  | logicalOperand (op : BinaryOperator) (found : Ty)
  | comparison (op : BinaryOperator) (left right : Ty)
  | arithmetic (op : BinaryOperator) (left right : Ty)
  | notOperand (found : Ty)
  | negation (found : Ty)
  | returnOutside
deriving DecidableEq

namespace Finding

/-- What kind of report it is. -/
def code : Finding → DiagnosticCode
  | unbound _ => .unboundName
  | unused _ => .unusedName
  | arity .. => .arityMismatch
  | returnOutside => .returnOutsideFunction
  | _ => .typeMismatch

/-- How grave it is. -/
def severity : Finding → Severity
  | returnOutside => .error
  | _ => .warning

/-- The report in words. -/
def message : Finding → String
  | unbound name => s!"${name} is not bound"
  | unused name => s!"${name} is never used"
  | condition found => s!"condition must be Bool, found {found.text}"
  | initializer name declared found =>
    s!"${name} is declared {declared.text} but initialized with {found.text}"
  | assignment name declared found =>
    s!"${name} is declared {declared.text}, cannot assign {found.text}"
  | notAFunction found => s!"{found.text} is not a function"
  | arity expected found => s!"expected {expected} argument(s), found {found}"
  | argument position expected found =>
    s!"argument {position} must be {expected.text}, found {found.text}"
  | result found declared => s!"function returns {found.text}, declared {declared.text}"
  | logicalOperand op found => s!"'{op.symbol}' needs Bool operands, found {found.text}"
  | comparison op left right => s!"cannot compare {left.text} {op.symbol} {right.text}"
  | arithmetic op left right => s!"cannot apply '{op.symbol}' to {left.text} and {right.text}"
  | notOperand found => s!"'!' needs a Bool operand, found {found.text}"
  | negation found => s!"cannot negate {found.text}"
  | returnOutside => "return outside of a function"

/-- The report about a piece of a script. -/
def diagnostic (f : Finding) (span : Option Span) : Diagnostic :=
  ⟨f.severity, f.code, f.message, span⟩

end Finding

/-- Why checking stopped. -/
inductive BindFault where
  | returnOutside (span : Option Span)
  /-- A node was given a type a second time. -/
  | alreadyTyped (kind : String) (span : Option Span) (type : Ty)
deriving DecidableEq

/-- The fault in words. -/
def BindFault.message : BindFault → String
  | returnOutside _ => Finding.returnOutside.message
  | alreadyTyped kind span type =>
    let place := (span.map Span.text).getD "None"
    s!"{kind} at {place} is already typed {type.text}"

/-- What the checker noted about a node: its type, and for a command whether it is the call of a
function. -/
structure Note where
  type : Option Ty
  isCall : Bool
deriving DecidableEq, Inhabited

/-- Notes without content for all nodes of a tree. -/
def Node.blankNotes (n : Node) : Array Note :=
  Array.replicate n.walk.length ⟨none, false⟩

/-- What the checker works on. -/
structure Checker where
  scopes : Scopes
  /-- The types returned so far by each function around the present node, innermost first. -/
  returns : List (List Ty)
  diagnostics : List Diagnostic
  notes : Array Note
  /-- The place of the next node. -/
  next : Nat

/-- A step of the checker. What it did before it stopped stays done. -/
abbrev Check := ExceptT BindFault (StateM Checker)

namespace Check

/-- Reports something. -/
def report (f : Finding) (span : Option Span) : Check Unit :=
  modify fun c => { c with diagnostics := c.diagnostics ++ [f.diagnostic span] }

/-- Reports something that leaves an expression without a known type. -/
def mismatch (f : Finding) (span : Option Span) : Check Ty := do
  report f span
  return .unknown

/-- The binding that a name means, with its place. -/
def resolve (name : String) : Check (Option (Nat × Binding)) := do
  let s := (← get).scopes
  return (s.resolve name).bind fun i => (s.binding? i).map (i, ·)

/-- Changes a binding. -/
def modifyBinding (i : Nat) (f : Binding → Binding) : Check Unit :=
  modify fun c => { c with scopes := c.scopes.modify i f }

/-- Marks a binding as used. -/
def use (i : Nat) : Check Unit :=
  modifyBinding i ({ · with used := true })

/-- Defines a name in the innermost scope. -/
def define (name : String) (b : Binding) : Check Nat :=
  modifyGet fun c =>
    let (i, scopes) := c.scopes.define name b
    (i, { c with scopes })

/-- Reports the names of the innermost scope that were defined and never used, but for those that
start with an underscore, and closes the scope. -/
def leaveScope : Check Unit := do
  for (name, b) in (← get).scopes.bindings do
    if b.kind = .define ∧ ¬ b.used ∧ name.toList.head? ≠ some '_' then report (.unused name) b.span
  modify fun c => { c with scopes := c.scopes.leave }

/-- Runs a step in a scope of its own. -/
def inScope {α : Type} (step : Check α) : Check α := do
  modify fun c => { c with scopes := c.scopes.enter }
  let a ← step
  leaveScope
  return a

/-- Takes the next place for a node, and gives the node the type that is found for it. -/
def noted (kind : String) (span : Option Span) (infer : Nat → Check Ty) : Check Ty := do
  let place := (← get).next
  modify fun c => { c with next := c.next + 1 }
  let t ← infer place
  match (← get).notes[place]?.bind (·.type) with
  | some old => throw (.alreadyTyped kind span old)
  | none =>
    modify fun c => { c with notes := c.notes.modify place ({ · with type := some t }) }
    return t

/-! ## Rules -/

/-- The type of a call. -/
def callType (callee : Ty) (args : List Ty) (span : Option Span) : Check Ty :=
  match callee with
  | .fn params returns => do
    if params.length ≠ args.length then report (.arity params.length args.length) span
    else
      for ((param, arg), i) in (params.zip args).zipIdx 1 do
        if !param.accepts arg then report (.argument i param arg) span
    return returns
  | .dynamic | .unknown => return .dynamic
  | _ => mismatch (.notAFunction callee) span

/-- The type of an operation on two operands. -/
def binaryType (op : BinaryOperator) (left right : Ty) (span : Option Span) : Check Ty :=
  match op with
  | .equal | .unequal => return .bool
  | .and | .or => do
    for side in [left, right] do
      if !Ty.bool.accepts side then report (.logicalOperand op side) span
    return .bool
  | .less | .lessEqual | .greater | .greaterEqual => do
    if !(left.isDynamic || right.isDynamic || (left.isNumeric && right.isNumeric) ||
        (left = .string && right = .string)) then
      report (.comparison op left right) span
    return .bool
  | _ =>
    if left.isDynamic || right.isDynamic then return .dynamic
    else if left.isNumeric && right.isNumeric then
      return if left = .int ∧ right = .int then .int else .float
    else if op = .add ∧ left = .string ∧ right = .string then return .string
    else mismatch (.arithmetic op left right) span

/-- The type of an operation on one operand. -/
def unaryType (op : UnaryOperator) (operand : Ty) (span : Option Span) : Check Ty :=
  match op with
  | .not => do
    if !Ty.bool.accepts operand then report (.notOperand operand) span
    return .bool
  | _ =>
    if operand.isDynamic || operand.isNumeric then return operand
    else mismatch (.negation operand) span

/-- The type of a value; that of a finished command is not known. -/
def datumType : Datum → Ty
  | .unit => .unit
  | .bool _ => .bool
  | .int _ => .int
  | .float _ => .float
  | .text _ => .string
  | .run _ => .dynamic

/-- The type of a reference. One with a default may mean nothing at all. -/
def referenceType (name : String) (default : Option String) (span : Option Span) : Check Ty := do
  match ← resolve name, default with
  | some (i, b), none =>
    use i
    return b.type
  | some (i, b), some _ =>
    use i
    return Ty.join [b.type, .string]
  | none, none =>
    report (.unbound name) span
    return .dynamic
  | none, some _ => return .string

/-- The type of a definition, which makes a binding. -/
def defineType (name : String) (declared : Option Ty) (found : Ty) (span valueSpan : Option Span) :
    Check Ty := do
  if let some t := declared then
    if !t.accepts found then report (.initializer name t found) valueSpan
  let t := declared.getD found
  let _ ← define name ⟨t, declared, .define, span, false⟩
  return t

/-- The type of an assignment. A name without a declared type takes on the type that it has in
common with what is assigned. -/
def assignType (name : String) (found : Ty) (span valueSpan : Option Span) : Check Ty := do
  match ← resolve name with
  | none => report (.unbound name) span
  | some (i, b) =>
    match b.declared with
    | some t => if !t.accepts found then report (.assignment name t found) valueSpan
    | none => modifyBinding i fun b => { b with type := Ty.join [b.type, found] }
  return found

/-- The type of a command whose name meant the binding at `target` before its arguments were
checked. The name of a function makes it a call, unless the environment is changed for it. -/
def commandType (place : Nat) (target : Option Nat) (hasEnv : Bool) (args : List Ty)
    (span : Option Span) : Check Ty := do
  let scopes := (← get).scopes
  let binding : Option (Nat × Binding) :=
    if hasEnv then none else target.bind fun i => (scopes.binding? i).map (i, ·)
  match binding with
  | none => return .dynamic
  | some (i, b) =>
    let isFunction : Bool := match b.type with
      | .fn .. => true
      | _ => b.kind = .function
    if isFunction then
      use i
      modify fun c => { c with notes := c.notes.modify place ({ · with isCall := true }) }
      callType b.type args span
    else
      if b.type.isDynamic then use i
      return .dynamic

/-- Whether the last of the entries is a return. -/
def endsWithReturn (body : List Node) : Bool :=
  match body.getLast? with
  | some (.ret ..) => true
  | _ => false

/-- The type of the value of entries. -/
def lastType (types : List Ty) : Ty :=
  types.getLast?.getD .unit

mutual

/-- Finds the type of a node and of all nodes below it. -/
def node (n : Node) : Check Ty :=
  noted n.kind n.span fun place =>
    match n with
    | .literal _ value => return datumType value
    | .reference span name default => referenceType name default span
    | .interpolation _ parts => do
      checkParts parts
      return .string
    | .substitution _ body => do
      let _ ← inScope (checkAll body)
      return .string
    | .binding (.mk _ _ value) => do
      let _ ← node value
      return .string
    | .command span env name args => do
      checkBindings env
      let target ← resolve name
      let types ← checkAll args
      commandType place (target.map (·.1)) (!env.isEmpty) types span
    | .call span callee args => do
      let calleeType ← node callee
      let types ← checkAll args
      callType calleeType types span
    | .conditional _ condition thenBranch elseBranch => do
      let found ← node condition
      if !Ty.bool.accepts found then report (.condition found) condition.span
      let thenType ← node thenBranch
      let elseType ← match elseBranch with
        | none => pure .unit
        | some n => node n
      return Ty.join [thenType, elseType]
    | .block _ body => do
      return lastType (← inScope (checkAll body))
    | .parameter p => return p.declared.getD .dynamic
    | .function span name params returns bodySpan body => do
      let declared := Ty.ofSignature (params.map (·.declared)) returns
      let self ← match name with
        | none => pure none
        | some name => some <$> define name ⟨declared, none, .function, span, false⟩
      let (bodyType, returned) ← inScope do
        for p in params do
          let t ← noted "Param" p.span fun _ => return p.declared.getD .dynamic
          let _ ← define p.name ⟨t, p.declared, .param, p.span, false⟩
        modify fun c => { c with returns := [] :: c.returns }
        let bodyType ← noted "Block" bodySpan fun _ => do
          return lastType (← inScope (checkAll body))
        let returned := (← get).returns.head?.getD []
        modify fun c => { c with returns := c.returns.drop 1 }
        return (bodyType, returned)
      let results := if endsWithReturn body then returned else returned ++ [bodyType]
      match returns with
      | some t =>
        for result in results do
          if !t.accepts result then report (.result result t) span
        return declared
      | none =>
        let inferred := Ty.fn (params.map (·.declared.getD .dynamic)) (Ty.join results)
        if let some i := self then modifyBinding i ({ · with type := inferred })
        return inferred
    | .binary span op left right => do
      let leftType ← node left
      let rightType ← node right
      binaryType op leftType rightType span
    | .unary span op operand => do
      let operandType ← node operand
      unaryType op operandType span
    | .ret span value => do
      if (← get).returns.isEmpty then
        report .returnOutside span
        throw (.returnOutside span)
      let found ← match value with
        | none => pure .unit
        | some n => node n
      modify fun c =>
        { c with returns := (c.returns.head?.getD [] ++ [found]) :: c.returns.drop 1 }
      return found
    | .define span name declared value => do
      let found ← node value
      defineType name declared found span value.span
    | .assign span name value => do
      let found ← node value
      assignType name found span value.span
    | .program _ body => do
      return lastType (← checkAll body)
    | .blank _ => return .dynamic

/-- Finds the types of several nodes. -/
def checkAll : List Node → Check (List Ty)
  | [] => return []
  | n :: ns => do
    let t ← node n
    return t :: (← checkAll ns)

/-- Finds the types of the prefixes of a command. -/
def checkBindings : List EnvBinding → Check Unit
  | [] => return ()
  | .mk span _ value :: bs => do
    let _ ← noted "EnvBinding" span fun _ => do
      let _ ← node value
      return .string
    checkBindings bs

/-- Finds the types of the nodes in a string. -/
def checkParts : List Part → Check Unit
  | [] => return ()
  | .text _ :: ps => checkParts ps
  | .node n :: ps => do
    let _ ← node n
    checkParts ps

end

end Check

/-- What checking a tree gave. -/
structure Checked where
  /-- The type of the tree, or why checking stopped. -/
  outcome : Except BindFault Ty
  diagnostics : List Diagnostic
  notes : Array Note
  scopes : Scopes

/-- Checks a tree in given scopes, of which the root stays open. -/
def check (n : Node) (scopes : Scopes) (notes : Array Note) : Checked :=
  let (outcome, c) := (Check.node n).run ⟨scopes, [], [], notes, 0⟩
  ⟨outcome, c.diagnostics, c.notes, c.scopes.leaveAll⟩

end Sigil
