import Sigil.Names
import Sigil.Span
import Sigil.Ty

/-!
# Static scopes

What the checker knows of names. Every definition makes a binding of its own,
kept in a table; a scope says which binding a name means in it, and a name
that a scope does not have is looked for in the scopes around it. A later
definition of a name in the same scope gives it another binding; the earlier
one stays in the table.
-/

namespace Sigil

/-- What made a binding. -/
inductive BindingKind where
  | define
  | param
  | function
deriving DecidableEq, Repr

/-- The kind as it is shown. -/
def BindingKind.text : BindingKind → String
  | define => "let"
  | param => "param"
  | function => "fn"

/-- What is known of one definition of a name. -/
structure Binding where
  type : Ty
  declared : Option Ty
  kind : BindingKind
  span : Option Span
  used : Bool
deriving DecidableEq

/-- The bindings that the names of one scope mean, by their places in the table. -/
abbrev Scope := Names Nat

/-- All bindings made so far, the scopes that are open, innermost first, and the root scope around
them. -/
structure Scopes where
  table : Array Binding
  inner : List Scope
  root : Scope

namespace Scopes

/-- No names. -/
def empty : Scopes := ⟨#[], [], []⟩

/-- The binding that a name means, if it means one. -/
def resolve (s : Scopes) (name : String) : Option Nat :=
  (s.inner ++ [s.root]).findSome? (·.get? name)

/-- The binding at a place of the table. -/
def binding? (s : Scopes) (i : Nat) : Option Binding :=
  s.table[i]?

/-- Changes the binding at a place of the table. -/
def modify (s : Scopes) (i : Nat) (f : Binding → Binding) : Scopes :=
  { s with table := s.table.modify i f }

/-- Makes a binding and gives it a name in the innermost scope; also its place in the table. -/
def define (s : Scopes) (name : String) (b : Binding) : Nat × Scopes :=
  let i := s.table.size
  let s := { s with table := s.table.push b }
  match s.inner with
  | [] => (i, { s with root := s.root.insert name i })
  | top :: outer => (i, { s with inner := top.insert name i :: outer })

/-- Opens a scope. -/
def enter (s : Scopes) : Scopes :=
  { s with inner := [] :: s.inner }

/-- Closes the innermost scope. -/
def leave (s : Scopes) : Scopes :=
  { s with inner := s.inner.drop 1 }

/-- The names of the innermost scope with their bindings, in order. -/
def bindings (s : Scopes) : List (String × Binding) :=
  (s.inner.head?.getD s.root).filterMap fun (name, i) => (s.binding? i).map (name, ·)

/-- Closes all scopes but the root. -/
def leaveAll (s : Scopes) : Scopes :=
  { s with inner := [] }

end Scopes

end Sigil
