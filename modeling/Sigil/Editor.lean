import Sigil.Document

/-!
# Editors

What an editor asks about the documents that are open in it, and the
diagnostics that it is told of whenever one of them changes. Places in an
editor are counted from zero.
-/

namespace Sigil

/-- A piece of a document as editors mark it, by line and character. -/
structure EditorRange where
  startLine : Nat
  startCharacter : Nat
  endLine : Nat
  endCharacter : Nat
deriving DecidableEq, Repr

namespace EditorRange

/-- The range of a span; one without characters is marked by the character after it, and what has no
place by the first of all. -/
def ofSpan? : Option Span → EditorRange
  | none => ⟨0, 0, 0, 1⟩
  | some s =>
    ⟨s.start.line - 1, s.start.column - 1, s.stop.line - 1, max (s.stop.column - 1) s.start.column⟩

/-- The range of a name in one line. -/
def ofSymbol (s : Symbol) : EditorRange :=
  ⟨s.line, s.column, s.line, s.column + s.name.length⟩

end EditorRange

/-- The number by which editors know a severity. -/
def Severity.editorCode : Severity → Nat
  | error => 1
  | warning => 2

/-- The name under which diagnostics are shown. -/
def diagnosticSource : String := "ysh-ls"

/-- What an offered word is. -/
inductive WordKind where
  | keyword
  | typeName
  | symbol (kind : SymbolKind)
deriving DecidableEq, Repr

/-- The number by which editors know what a word is. -/
def WordKind.editorCode : WordKind → Nat
  | keyword => 14
  | typeName => 25
  | symbol .function => 3
  | symbol .value => 6

/-- The number by which editors know a symbol in an outline. -/
def SymbolKind.editorCode : SymbolKind → Nat
  | function => 12
  | value => 13

/-- A word that an editor offers. -/
structure Offer where
  label : String
  kind : WordKind
  detail : Option String
deriving DecidableEq, Repr

/-- A place in a line that lies beyond its end. -/
inductive PastEnd where
  | pastEnd
deriving DecidableEq, Repr

/-- Whether a character separates words in an editor. -/
def isWordStop (c : Char) : Bool :=
  c ∈ [' ', '\t', '(', ')', '\n', '\r', '\x7b', '\x7d', ';', ',', ':', '"', '\'']

/-- The word at a character of a line of a text, or just before it. -/
def wordAt (text : List Char) (line character : Nat) : Except PastEnd (Option String) :=
  match (Text.linesWithEnds text)[line]? with
  | none => .ok none
  | some cs =>
    if cs.length < character then .error .pastEnd
    else
      let before := ((cs.take character).reverse.takeWhile (! isWordStop ·)).reverse
      let after := (cs.drop character).takeWhile (! isWordStop ·)
      .ok (if before ++ after = [] then none else some (String.ofList (before ++ after)))

/-- The open documents, by their addresses. -/
structure Editor where
  documents : Names Document

/-- The diagnostics that an editor is told of, with the address of their document. -/
structure Publication where
  address : String
  diagnostics : List Diagnostic

namespace Editor

/-- Nothing open. -/
def empty : Editor := ⟨[]⟩

/-- A document that is open. -/
def document? (e : Editor) (address : String) : Option Document :=
  e.documents.get? address

/-- Takes in a text as that of a document. -/
def update (e : Editor) (address : String) (text : List Char) : Publication × Editor :=
  let d := Document.ofText text
  (⟨address, d.diagnostics⟩, ⟨e.documents.insert address d⟩)

/-- Takes in the changes of a document, of which each is the whole text; without one the text
stays. -/
def change (e : Editor) (address : String) (texts : List (List Char)) : Publication × Editor :=
  e.update address (texts.getLast?.getD (((e.document? address).map (·.text)).getD []))

/-- Closes a document. -/
def close (e : Editor) (address : String) : Publication × Editor :=
  (⟨address, []⟩, ⟨e.documents.erase address⟩)

/-- A symbol as it is shown. -/
def describe (s : Symbol) : String :=
  s!"{s.label}: {s.detail} ({s.kind.text}, defined at {s.line + 1}:{s.column + 1})"

/-- What is shown about the word at a place of a document. -/
def hover (e : Editor) (address : String) (line character : Nat) :
    Except PastEnd (Option String) := do
  match e.document? address with
  | none => return none
  | some d =>
    match ← wordAt d.text line character with
    | none => return none
    | some word =>
      let name := String.ofList (word.toList.dropWhile (· = '$'))
      return (d.symbols.get? name).map describe

/-- The words offered in a document. -/
def completion (e : Editor) (address : String) : List Offer :=
  Document.keywords.map (⟨·, .keyword, none⟩) ++
    Document.typeNames.map (⟨·, .typeName, none⟩) ++
    (((e.document? address).map (·.symbols)).getD []).map fun (_, s) =>
      ⟨s.label, .symbol s.kind, some s.detail⟩

/-- The symbols of a document, if it is open. -/
def outline? (e : Editor) (address : String) : Option (List Symbol) :=
  (e.document? address).map fun d => d.symbols.map (·.2)

end Editor

end Sigil
