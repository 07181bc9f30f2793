import Sigil.Node.Parser

/-!
# Trees that scripts can say

Whether source text can spell a tree (`Node.isWritten`): names and words have
the characters that they must have, operators and types are those that the
grammar knows, numbers have no sign, every node stands where the grammar allows
it, and a string holds its parts as the reader would cut them. `Node.floats`
lists the floats of a tree.
-/

namespace Sigil

/-- Whether a text is read as one word. -/
def Lexer.isWord (s : String) : Bool :=
  startsWord s.toList && (s.toList.drop 1).all isWordChar

/-- Whether a text is read as one word without a meaning of its own. -/
def Lexer.isPlainWord (s : String) : Bool :=
  isWord s && s ∉ Token.keywords

mutual

/-- Whether scripts can say a type. -/
def Ty.isWritten : Ty → Bool
  | .unknown => false
  | .dynamic | .primitive _ => true
  | .fn params returns => areWritten params && isWritten returns

@[inherit_doc Ty.isWritten]
def Ty.areWritten : List Ty → Bool
  | [] => true
  | t :: ts => isWritten t && areWritten ts

end

/-- Whether scripts can say a float: it is a number, or infinite, and has no sign. -/
def Number.isSpoken (x : Float) : Bool :=
  match Binary.ofFloat x with
  | .finite false _ _ | .infinite false => true
  | _ => false

/-- Whether scripts can say a value. -/
def Datum.isWritten : Datum → Bool
  | .unit | .bool _ | .text _ => true
  | .int n => 0 ≤ n && Number.isWritable n
  | .float x => Number.isSpoken x
  | .run _ => false

/-- Whether scripts can say a name with a default. -/
def Lexer.isReference (name : String) (default : Option String) : Bool :=
  Parser.isName name && default.all ('\x7d' ∉ ·.toList)

/-- Whether scripts can say a name with a declared type. -/
def Ty.isDeclaration (name : String) (declared : Option Ty) : Bool :=
  Parser.isName name && declared.all isWritten

/-- Whether a part of a string is a node. -/
def Part.isNode : Part → Bool
  | text _ => false
  | node _ => true

namespace Node

/-- Whether a node can be a part of a string. -/
def isPart : Node → Bool
  | reference .. | substitution .. => true
  | _ => false

mutual

/-- Whether scripts can say a tree. -/
def isWritten : Node → Bool
  | literal _ value => value.isWritten
  | reference _ name default => Lexer.isReference name default
  | substitution _ body | block _ body => areWritten body
  | interpolation _ parts => parts.any (·.isNode) && arePartsWritten false parts
  | command _ env name args =>
    Lexer.isPlainWord name && areBindingsWritten env && areWritten args
  | call _ callee args => isWritten callee && areWritten args
  | conditional _ condition thenBranch none => isWritten condition && isWritten thenBranch
  | conditional _ condition thenBranch (some elseBranch) =>
    isWritten condition && isWritten thenBranch && isWritten elseBranch
  | function _ name params returns _ body =>
    name.all Lexer.isPlainWord && params.all (fun p => Ty.isDeclaration p.name p.declared) &&
      returns.all Ty.isWritten && areWritten body
  | binary _ op left right => op ∈ BinaryOperator.all && isWritten left && isWritten right
  | unary _ op operand => op ∈ [.not, .neg] && isWritten operand
  | ret _ none => true
  | ret _ (some value) => isWritten value
  | define _ name declared value => Ty.isDeclaration name declared && isWritten value
  | assign _ name value => Parser.isName name && isWritten value
  | binding _ | parameter _ | program .. | blank _ => false

@[inherit_doc isWritten]
def areWritten : List Node → Bool
  | [] => true
  | n :: ns => isWritten n && areWritten ns

@[inherit_doc isWritten]
def areBindingsWritten : List EnvBinding → Bool
  | [] => true
  | .mk _ name value :: bs =>
    Parser.isName name && Lexer.isPlainWord name && isWritten value && areBindingsWritten bs

/-- Whether the parts of a string are as the reader would cut them: texts are not empty, and there
is something between two of them. -/
def arePartsWritten (afterText : Bool) : List Part → Bool
  | [] => true
  | .text s :: ps => !afterText && s ≠ "" && arePartsWritten true ps
  | .node n :: ps => isPart n && isWritten n && arePartsWritten false ps

end

mutual

/-- The floats in a tree. -/
def floats : Node → List Float
  | literal _ (.float x) => [x]
  | literal .. | reference .. | parameter _ | blank _ | ret _ none => []
  | substitution _ body | block _ body | function _ _ _ _ _ body | program _ body => floatsAll body
  | interpolation _ parts => floatsParts parts
  | binding (.mk _ _ value) => floats value
  | command _ env _ args => floatsBindings env ++ floatsAll args
  | call _ callee args => floats callee ++ floatsAll args
  | conditional _ condition thenBranch none => floats condition ++ floats thenBranch
  | conditional _ condition thenBranch (some elseBranch) =>
    floats condition ++ floats thenBranch ++ floats elseBranch
  | binary _ _ left right => floats left ++ floats right
  | unary _ _ operand => floats operand
  | ret _ (some value) | define _ _ _ value | assign _ _ value => floats value

@[inherit_doc floats]
def floatsAll : List Node → List Float
  | [] => []
  | n :: ns => floats n ++ floatsAll ns

@[inherit_doc floats]
def floatsBindings : List EnvBinding → List Float
  | [] => []
  | .mk _ _ value :: bs => floats value ++ floatsBindings bs

@[inherit_doc floats]
def floatsParts : List Part → List Float
  | [] => []
  | .text _ :: ps => floatsParts ps
  | .node n :: ps => floats n ++ floatsParts ps

end

/-- Whether a tree is that of a whole script that can be written. -/
def isScript : Node → Bool
  | program _ body => areWritten body
  | _ => false

theorem areWritten_iff {ns : List Node} : areWritten ns ↔ ∀ n ∈ ns, n.isWritten := by
  induction ns with
  | nil => simp [areWritten]
  | cons n ns ih => simp [areWritten, ih]

theorem areBindingsWritten_iff {bs : List EnvBinding} :
    areBindingsWritten bs ↔
      ∀ b ∈ bs, Parser.isName b.name ∧ Lexer.isPlainWord b.name ∧ b.value.isWritten := by
  induction bs with
  | nil => simp [areBindingsWritten]
  | cons b bs ih =>
    obtain ⟨span, name, value⟩ := b
    simp [areBindingsWritten, ih, EnvBinding.name, EnvBinding.value, and_assoc]

end Node

theorem Ty.areWritten_iff {ts : List Ty} : areWritten ts ↔ ∀ t ∈ ts, t.isWritten := by
  induction ts with
  | nil => simp [areWritten]
  | cons t ts ih => simp [areWritten, ih]

theorem BinaryOperator.ofSymbol_symbol {op : BinaryOperator} (h : op ∈ all) :
    ofSymbol op.symbol = op := by
  revert op
  decide

end Sigil
