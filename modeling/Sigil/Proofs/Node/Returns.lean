import Sigil.Node

/-!
# Returns outside of functions

Whether a tree has a `return` that lies in the body of none of its functions
(`Node.outerReturn`). Such a `return` belongs to a call around the tree.
-/

namespace Sigil.Node

mutual

/-- Whether a `return` lies in no function of the tree. -/
def outerReturn : Node → Bool
  | literal .. | reference .. | parameter _ | function .. | blank _ => false
  | substitution _ body | block _ body | program _ body => outerReturnAny body
  | interpolation _ parts => outerReturnParts parts
  | binding (.mk _ _ value) => outerReturn value
  | command _ env _ args => outerReturnBindings env || outerReturnAny args
  | call _ callee args => outerReturn callee || outerReturnAny args
  | conditional _ condition thenBranch none => outerReturn condition || outerReturn thenBranch
  | conditional _ condition thenBranch (some elseBranch) =>
    outerReturn condition || outerReturn thenBranch || outerReturn elseBranch
  | binary _ _ left right => outerReturn left || outerReturn right
  | unary _ _ operand => outerReturn operand
  | ret .. => true
  | define _ _ _ value | assign _ _ value => outerReturn value

@[inherit_doc outerReturn]
def outerReturnAny : List Node → Bool
  | [] => false
  | n :: ns => outerReturn n || outerReturnAny ns

@[inherit_doc outerReturn]
def outerReturnBindings : List EnvBinding → Bool
  | [] => false
  | .mk _ _ value :: bs => outerReturn value || outerReturnBindings bs

@[inherit_doc outerReturn]
def outerReturnParts : List Part → Bool
  | [] => false
  | .text _ :: ps => outerReturnParts ps
  | .node n :: ps => outerReturn n || outerReturnParts ps

end

theorem outerReturnAny_of_mem {ns : List Node} {n : Node} (hn : n ∈ ns) (h : n.outerReturn) :
    outerReturnAny ns := by
  induction ns with
  | nil => cases hn
  | cons m ns ih =>
    rw [outerReturnAny, Bool.or_eq_true]
    rcases List.mem_cons.mp hn with rfl | hn
    · exact .inl h
    · exact .inr (ih hn)

theorem outerReturnBindings_of_mem {bs : List EnvBinding} {b : EnvBinding} (hb : b ∈ bs)
    (h : b.value.outerReturn) : outerReturnBindings bs := by
  induction bs with
  | nil => cases hb
  | cons c bs ih =>
    obtain ⟨span, name, value⟩ := c
    rw [outerReturnBindings, Bool.or_eq_true]
    rcases List.mem_cons.mp hb with rfl | hb
    · exact .inl h
    · exact .inr (ih hb)

theorem outerReturnParts_of_mem {ps : List Part} {n : Node} (hn : .node n ∈ ps)
    (h : n.outerReturn) : outerReturnParts ps := by
  induction ps with
  | nil => cases hn
  | cons p ps ih =>
    cases p with
    | text s => exact ih (by simpa using hn)
    | node m =>
      rw [outerReturnParts, Bool.or_eq_true]
      rcases List.mem_cons.mp hn with e | hn
      · cases e; exact .inl h
      · exact .inr (ih hn)

end Sigil.Node
