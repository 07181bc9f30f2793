import Sigil.Proofs.Number.Text
import Sigil.Proofs.Token.Mark

/-!
# Trees whose text reads back

What a text needs so that it reads back as the tree that it was written from
(`Node.Spelled`): scripts can say the tree, its floats are read back from their
texts, and the raw scan finds the end of every substitution in a string
(`Node.isClosed`). `spelled_of_isWritten` puts these together, node by node.
-/

namespace Sigil

namespace Node

/-- Whether the end of a substitution is found where it is written in a string. -/
def isClosedInString : Node → Bool
  | substitution _ body =>
    match sourceEntries body with
    | .ok cs => Lexer.isClosed cs
    | .error _ => false
  | _ => true

/-- Whether the ends of the substitutions right in a string are found. -/
def closesParts : Node → Bool
  | interpolation _ parts => parts.all fun
    | .text _ => true
    | .node n => n.isClosedInString
  | _ => true

/-- Whether the end of every substitution in a string of a tree is found where it is written. -/
def isClosed (n : Node) : Bool :=
  n.walk.all closesParts

end Node

/-- A value that is read back from its text. -/
def Datum.Spelled : Datum → Prop
  | .unit | .bool _ | .text _ => True
  | .int n => 0 ≤ n ∧ Number.isWritable n
  | .float x => Number.isSpoken x ∧ Number.ReadsBack x
  | .run _ => False

namespace Node

mutual

/-- A tree that is read back from its text. -/
def Spelled : Node → Prop
  | literal _ value => value.Spelled
  | reference _ name default => Lexer.isReference name default
  | substitution _ body | block _ body => SpelledAll body
  | interpolation _ parts => parts.any (·.isNode) ∧ SpelledParts false parts
  | command _ env name args => Lexer.isPlainWord name ∧ SpelledBindings env ∧ SpelledAll args
  | call _ callee args => Spelled callee ∧ SpelledAll args
  | conditional _ condition thenBranch none => Spelled condition ∧ Spelled thenBranch
  | conditional _ condition thenBranch (some elseBranch) =>
    Spelled condition ∧ Spelled thenBranch ∧ Spelled elseBranch
  | function _ name params returns _ body =>
    (name.all Lexer.isPlainWord ∧ params.all (fun p => Ty.isDeclaration p.name p.declared) ∧
      returns.all Ty.isWritten) ∧ SpelledAll body
  | binary _ op left right => op ∈ BinaryOperator.all ∧ Spelled left ∧ Spelled right
  | unary _ op operand => op ∈ [.not, .neg] ∧ Spelled operand
  | ret _ none => True
  | ret _ (some value) => Spelled value
  | define _ name declared value => Ty.isDeclaration name declared ∧ Spelled value
  | assign _ name value => Parser.isName name ∧ Spelled value
  | binding _ | parameter _ | program .. | blank _ => False

@[inherit_doc Spelled]
def SpelledAll : List Node → Prop
  | [] => True
  | n :: ns => Spelled n ∧ SpelledAll ns

@[inherit_doc Spelled]
def SpelledBindings : List EnvBinding → Prop
  | [] => True
  | .mk _ name value :: bs =>
    (Parser.isName name ∧ Lexer.isPlainWord name) ∧ Spelled value ∧ SpelledBindings bs

@[inherit_doc Spelled]
def SpelledParts (afterText : Bool) : List Part → Prop
  | [] => True
  | .text s :: ps => (afterText = false ∧ s ≠ "") ∧ SpelledParts true ps
  | .node n :: ps => (isPart n ∧ isClosedInString n) ∧ Spelled n ∧ SpelledParts false ps

end

theorem spelledAll_iff {ns : List Node} : SpelledAll ns ↔ ∀ n ∈ ns, n.Spelled := by
  induction ns with
  | nil => simp [SpelledAll]
  | cons n ns ih => simp [SpelledAll, ih]

end Node

/-- Floats that are read back from their texts. -/
def AllReadBack (xs : List Float) : Prop :=
  ∀ x ∈ xs, Number.ReadsBack x

theorem allReadBack_append {xs ys : List Float} :
    AllReadBack (xs ++ ys) ↔ AllReadBack xs ∧ AllReadBack ys := by
  simp [AllReadBack, or_imp, forall_and]

theorem Datum.spelled_of_isWritten {span : Option Span} {value : Datum} (h : value.isWritten)
    (hr : AllReadBack (Node.literal span value).floats) : value.Spelled := by
  cases value with
  | number n =>
    cases n with
    | int n => simpa [isWritten, Spelled] using h
    | float x => exact ⟨h, hr x List.mem_cons_self⟩
  | unit | bool | text => trivial
  | run => cases h

namespace Node

mutual

theorem spelled_of_isWritten (n : Node) (hw : n.isWritten) (hc : n.walk.all closesParts)
    (hr : AllReadBack n.floats) : n.Spelled := by
  cases n with
  | literal span value => exact Datum.spelled_of_isWritten hw hr
  | reference => exact hw
  | substitution span body | block span body =>
    simp only [walk, List.all_cons, Bool.and_eq_true] at hc
    exact spelledAll_of_areWritten body hw hc.2 hr
  | interpolation span parts =>
    simp only [isWritten, Bool.and_eq_true] at hw
    simp only [walk, List.all_cons, Bool.and_eq_true] at hc
    exact ⟨hw.1, spelledParts_of_arePartsWritten parts hw.2 hc.1 hc.2 hr⟩
  | command span env name args =>
    simp only [isWritten, Bool.and_eq_true] at hw
    simp only [walk, List.all_cons, List.all_append, Bool.and_eq_true] at hc
    obtain ⟨hre, hra⟩ := allReadBack_append.mp hr
    exact ⟨hw.1.1, spelledBindings_of_areBindingsWritten env hw.1.2 hc.2.1 hre,
      spelledAll_of_areWritten args hw.2 hc.2.2 hra⟩
  | call span callee args =>
    simp only [isWritten, Bool.and_eq_true] at hw
    simp only [walk, List.all_cons, List.all_append, Bool.and_eq_true] at hc
    obtain ⟨hrc, hra⟩ := allReadBack_append.mp hr
    exact ⟨spelled_of_isWritten callee hw.1 hc.2.1 hrc,
      spelledAll_of_areWritten args hw.2 hc.2.2 hra⟩
  | conditional span condition thenBranch elseBranch =>
    cases elseBranch with
    | none =>
      simp only [isWritten, Bool.and_eq_true] at hw
      simp only [walk, List.all_cons, List.all_append, Bool.and_eq_true] at hc
      obtain ⟨hrc, hrt⟩ := allReadBack_append.mp hr
      exact ⟨spelled_of_isWritten condition hw.1 hc.2.1 hrc,
        spelled_of_isWritten thenBranch hw.2 hc.2.2 hrt⟩
    | some n =>
      simp only [isWritten, Bool.and_eq_true] at hw
      simp only [walk, List.all_cons, List.all_append, Bool.and_eq_true] at hc
      obtain ⟨hrct, hre⟩ := allReadBack_append.mp hr
      obtain ⟨hrc, hrt⟩ := allReadBack_append.mp hrct
      exact ⟨spelled_of_isWritten condition hw.1.1 hc.2.1.1 hrc,
        spelled_of_isWritten thenBranch hw.1.2 hc.2.1.2 hrt,
        spelled_of_isWritten n hw.2 hc.2.2 hre⟩
  | function span name params returns bodySpan body =>
    simp only [isWritten, Bool.and_eq_true] at hw
    simp only [walk, List.all_cons, List.all_append, Bool.and_eq_true] at hc
    exact ⟨⟨hw.1.1.1, hw.1.1.2, hw.1.2⟩, spelledAll_of_areWritten body hw.2 hc.2.2.2 hr⟩
  | binary span op left right =>
    simp only [isWritten, Bool.and_eq_true, decide_eq_true_eq] at hw
    simp only [walk, List.all_cons, List.all_append, Bool.and_eq_true] at hc
    obtain ⟨hrl, hrr⟩ := allReadBack_append.mp hr
    exact ⟨hw.1.1, spelled_of_isWritten left hw.1.2 hc.2.1 hrl,
      spelled_of_isWritten right hw.2 hc.2.2 hrr⟩
  | unary span op operand =>
    simp only [isWritten, Bool.and_eq_true, decide_eq_true_eq] at hw
    simp only [walk, List.all_cons, Bool.and_eq_true] at hc
    exact ⟨hw.1, spelled_of_isWritten operand hw.2 hc.2 hr⟩
  | ret span value =>
    cases value with
    | none => trivial
    | some n =>
      simp only [walk, List.all_cons, Bool.and_eq_true] at hc
      exact spelled_of_isWritten n hw hc.2 hr
  | define span name declared value =>
    simp only [isWritten, Bool.and_eq_true] at hw
    simp only [walk, List.all_cons, Bool.and_eq_true] at hc
    exact ⟨hw.1, spelled_of_isWritten value hw.2 hc.2 hr⟩
  | assign span name value =>
    simp only [isWritten, Bool.and_eq_true] at hw
    simp only [walk, List.all_cons, Bool.and_eq_true] at hc
    exact ⟨hw.1, spelled_of_isWritten value hw.2 hc.2 hr⟩
  | binding | parameter | program | blank => cases hw

theorem spelledAll_of_areWritten : ∀ (ns : List Node), areWritten ns →
    (walkAll ns).all closesParts → AllReadBack (floatsAll ns) → SpelledAll ns
  | [], _, _, _ => trivial
  | n :: ns, hw, hc, hr => by
    simp only [areWritten, Bool.and_eq_true] at hw
    simp only [walkAll, List.all_append, Bool.and_eq_true] at hc
    obtain ⟨hrn, hrs⟩ := allReadBack_append.mp hr
    exact ⟨spelled_of_isWritten n hw.1 hc.1 hrn, spelledAll_of_areWritten ns hw.2 hc.2 hrs⟩

theorem spelledBindings_of_areBindingsWritten : ∀ (bs : List EnvBinding), areBindingsWritten bs →
    (walkBindings bs).all closesParts → AllReadBack (floatsBindings bs) → SpelledBindings bs
  | [], _, _, _ => trivial
  | .mk span name value :: bs, hw, hc, hr => by
    simp only [areBindingsWritten, Bool.and_eq_true] at hw
    simp only [walkBindings, List.cons_append, List.all_cons, List.all_append,
      Bool.and_eq_true] at hc
    obtain ⟨hrv, hrs⟩ := allReadBack_append.mp hr
    exact ⟨hw.1.1, spelled_of_isWritten value hw.1.2 hc.2.1 hrv,
      spelledBindings_of_areBindingsWritten bs hw.2 hc.2.2 hrs⟩

theorem spelledParts_of_arePartsWritten {afterText : Bool} : ∀ (ps : List Part),
    arePartsWritten afterText ps → closesParts (.interpolation none ps) →
    (walkParts ps).all closesParts → AllReadBack (floatsParts ps) → SpelledParts afterText ps
  | [], _, _, _, _ => trivial
  | .text s :: ps, hw, hp, hc, hr => by
    simp only [arePartsWritten, Bool.and_eq_true, Bool.not_eq_true', decide_eq_true_eq] at hw
    simp only [closesParts, List.all_cons, Bool.true_and] at hp
    exact ⟨hw.1, spelledParts_of_arePartsWritten ps hw.2 hp hc hr⟩
  | .node n :: ps, hw, hp, hc, hr => by
    simp only [arePartsWritten, Bool.and_eq_true] at hw
    simp only [closesParts, List.all_cons, Bool.and_eq_true] at hp
    simp only [walkParts, List.all_append, Bool.and_eq_true] at hc
    obtain ⟨hrn, hrs⟩ := allReadBack_append.mp hr
    exact ⟨⟨hw.1.1, hp.1⟩, spelled_of_isWritten n hw.1.2 hc.1 hrn,
      spelledParts_of_arePartsWritten ps hw.2 hp.2 hc.2 hrs⟩

end

end Node

end Sigil
