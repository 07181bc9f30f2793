import Sigil.Node.Parser
import Sigil.Session

/-!
# Documents

What an editor knows of a text: it is read and checked as a script, but never
run. A text that cannot be read has one diagnostic and no symbols; otherwise
the definitions in it are its symbols, each name standing for the first of its
definitions.
-/

namespace Sigil

/-- What a symbol names. -/
inductive SymbolKind where
  | value
  | function
deriving DecidableEq, Repr

/-- The kind as it is shown. -/
def SymbolKind.text : SymbolKind → String
  | value => "var"
  | function => "function"

/-- A name that a text defines, where it does so, counted from zero, and the type found for it. -/
structure Symbol where
  name : String
  kind : SymbolKind
  line : Nat
  column : Nat
  detail : String
deriving DecidableEq, Repr

/-- The name of a symbol as scripts refer to it. -/
def Symbol.label (s : Symbol) : String :=
  match s.kind with
  | .value => "$" ++ s.name
  | .function => s.name

/-- A text with what is known of it. -/
structure Document where
  text : List Char
  /-- The text as a tree, if it can be read. -/
  tree : Option Node
  diagnostics : List Diagnostic
  /-- The symbols by their names, in the order of the text. -/
  symbols : Names Symbol

namespace Document

/-- The symbol that a node of a given type defines. -/
def symbol? (n : Node) (type : Option Ty) : Option Symbol :=
  let of (name : String) (kind : SymbolKind) (span : Span) : Symbol :=
    ⟨name, kind, span.start.line - 1, span.start.column - 1, (type.map Ty.text).getD ""⟩
  match n with
  | .function (some span) (some name) .. => some (of name .function span)
  | .define (some span) name .. => some (of name .value span)
  | _ => none

/-- The first symbol of each name among the nodes of a tree. -/
def symbolsOf (n : Node) (notes : Array Note) : Names Symbol :=
  (n.walk.zip notes.toList).foldl (fun t (n, note) =>
    match symbol? n note.type with
    | none => t
    | some s => if (t.get? s.name).isSome then t else t.insert s.name s) []

/-- The document of a text that cannot be read. -/
def unreadable (text : List Char) (f : Failure) : Document :=
  ⟨text, none, [f.diagnostic], []⟩

/-- The document of a text. -/
def ofText (text : List Char) : Document :=
  match parseProgram text with
  | .error (.lex e) => unreadable text (.lex e)
  | .error (.parse e) => unreadable text (.parse e)
  | .error _ => ⟨text, none, [], []⟩
  | .ok n =>
    let c := check n Scopes.empty n.blankNotes
    ⟨text, some n, c.diagnostics, symbolsOf n c.notes⟩

/-- The keywords as an editor offers them. -/
def keywords : List String := Token.keywords.mergeSort

/-- The names of types as an editor offers them. -/
def typeNames : List String :=
  ["Int", "Float", "Bool", "String", "Unit", "Command", "Any", "Fn"]

/-- The words that an editor offers. -/
def words (d : Document) : List String :=
  keywords ++ typeNames ++ d.symbols.map (·.2.label)

end Document

end Sigil
