import Sigil.Proofs.Node.Events
import Sigil.Proofs.Node.Visible

/-!
# Spans throughout a tree

What holds of the spans of a node and of all nodes below it (`Node.Spanned`). It
holds of a node if it holds of the node's own span and throughout the nodes right
below (`spanned_iff`), so that it goes along with everything that is made from
nodes or taken from them.
-/

namespace Sigil.Node

/-- The spans of a node and of all nodes below it are as `P` says. -/
def Spanned (P : Option Span → Prop) (n : Node) : Prop :=
  ∀ m ∈ n.walk, P m.span

theorem walkBindings_eq (bs : List EnvBinding) : walkBindings bs = (bs.map binding).flatMap walk := by
  induction bs with
  | nil => rfl
  | cons b bs ih => cases b; rw [walkBindings, ih]; rfl

theorem walkParts_eq (ps : List Part) :
    walkParts ps = (ps.filterMap fun
      | .text _ => none
      | .node n => some n).flatMap walk := by
  induction ps with
  | nil => rfl
  | cons p ps ih =>
    cases p with
    | text s => exact ih
    | node n => rw [walkParts, ih]; rfl

/-- Below a node are the nodes right below it with what is below them. -/
theorem walk_eq (n : Node) : n.walk = n :: n.children.flatMap walk := by
  have one (m : Node) : [m].flatMap walk = m.walk := List.flatMap_singleton ..
  cases n with
  | literal | reference | parameter | blank => rfl
  | substitution | block | program => rw [walk, walkAll_eq_flatMap]; rfl
  | interpolation span parts => rw [walk, walkParts_eq]; rfl
  | binding b =>
    obtain ⟨span, name, value⟩ := b
    rw [children, one]
    rfl
  | command span env name args =>
    rw [walk, walkBindings_eq, walkAll_eq_flatMap, ← List.flatMap_append]
    rfl
  | call span callee args => rw [walk, walkAll_eq_flatMap]; rfl
  | conditional span condition thenBranch elseBranch =>
    cases elseBranch <;> simp [walk, children]
  | function span name params returns bodySpan body =>
    have parameters : (params.map parameter).flatMap walk = params.map parameter := by
      induction params with
      | nil => rfl
      | cons p ps ih => exact congrArg (parameter p :: ·) ih
    rw [children, List.flatMap_append, parameters, one, walk, walk]
  | binary => simp [walk, children]
  | unary span op operand => rw [children, one]; rfl
  | ret span value =>
    cases value with
    | none => rfl
    | some n => rw [children, one]; rfl
  | define span name declared value => rw [children, one]; rfl
  | assign span name value => rw [children, one]; rfl

variable {P : Option Span → Prop} {n m : Node}

theorem spanned_iff : n.Spanned P ↔ P n.span ∧ ∀ m ∈ n.children, m.Spanned P := by
  unfold Spanned
  rw [walk_eq, List.forall_mem_cons]
  refine and_congr_right fun _ => ⟨fun h m hm k hk => ?_, fun h k hk => ?_⟩
  · exact h k (List.mem_flatMap.mpr ⟨m, hm, hk⟩)
  · obtain ⟨m, hm, hk⟩ := List.mem_flatMap.mp hk
    exact h m hm k hk

theorem Spanned.span (h : n.Spanned P) : P n.span :=
  (spanned_iff.mp h).1

theorem Spanned.children (h : n.Spanned P) (hm : m ∈ n.children) : m.Spanned P :=
  (spanned_iff.mp h).2 m hm

theorem Spanned.mono {Q : Option Span → Prop} (h : n.Spanned P) (hQ : ∀ span, P span → Q span) :
    n.Spanned Q :=
  fun m hm => hQ m.span (h m hm)

/-- What is evaluated in the frame of a node. -/
theorem Spanned.direct (h : n.Spanned P) (hm : m ∈ n.direct) : m.Spanned P := by
  cases n with
  | substitution | block | function => cases hm
  | command span env name args =>
    rcases List.mem_append.mp hm with hm | hm
    · obtain ⟨⟨span, name, value⟩, hb, rfl⟩ := List.mem_map.mp hm
      have prefixed : (binding ⟨span, name, value⟩).Spanned P :=
        h.children (List.mem_append_left _ (List.mem_map_of_mem hb))
      exact prefixed.children (List.mem_singleton_self _)
    · exact h.children (List.mem_append_right _ hm)
  | _ => exact h.children hm

/-- What is evaluated in a frame that a node makes. -/
theorem Spanned.enclosed (h : n.Spanned P) (hm : m ∈ n.enclosed) : m.Spanned P := by
  cases n with
  | substitution | block => exact h.children hm
  | _ => cases hm

/-- The body of a function. -/
theorem Spanned.body {span bodySpan : Option Span} {name : Option String} {params : List Param}
    {returns : Option Ty} {body : List Node}
    (h : (function span name params returns bodySpan body).Spanned P) :
    (block bodySpan body).Spanned P :=
  h.children (List.mem_append_right _ (List.mem_singleton_self _))

/-! ## Returns -/

section

variable {span : Option Span}

theorem mem_enclose {es : List ScopeEvent} (h : .returns span ∈ ScopeEvent.enclose es) :
    .returns span ∈ es := by
  simpa [ScopeEvent.enclose] using h

theorem shown_below {n : Node} {ns : List Node} (h : ∃ m ∈ ns, m.span = span) :
    ∃ m ∈ n :: ns, m.span = span :=
  h.imp fun _ => And.imp_left (List.mem_cons_of_mem _)

theorem shown_either {es fs : List ScopeEvent} {ms ns : List Node} (h : .returns span ∈ es ++ fs)
    (left : .returns span ∈ es → ∃ m ∈ ms, m.span = span)
    (right : .returns span ∈ fs → ∃ m ∈ ns, m.span = span) : ∃ m ∈ ms ++ ns, m.span = span := by
  rcases List.mem_append.mp h with h | h
  · exact (left h).imp fun _ => And.imp_left (List.mem_append_left _)
  · exact (right h).imp fun _ => And.imp_left (List.mem_append_right _)

mutual

/-- A return outside of functions is a node of the tree. -/
theorem exists_of_returns (n : Node) (h : .returns span ∈ n.events) :
    ∃ m ∈ n.walk, m.span = span := by
  cases n with
  | literal | reference | parameter | blank => cases h
  | substitution _ body | block _ body =>
    exact shown_below (exists_of_returnsAll body (mem_enclose h))
  | program _ body => exact shown_below (exists_of_returnsAll body h)
  | interpolation _ parts => exact shown_below (exists_of_returnsParts parts h)
  | binding b =>
    obtain ⟨_, _, value⟩ := b
    exact shown_below (exists_of_returns value h)
  | command _ env _ args =>
    exact shown_below (shown_either h (exists_of_returnsBindings env) (exists_of_returnsAll args))
  | call _ callee args =>
    exact shown_below (shown_either h (exists_of_returns callee) (exists_of_returnsAll args))
  | conditional _ condition thenBranch elseBranch =>
    cases elseBranch with
    | none =>
      exact shown_below (shown_either h (exists_of_returns condition) (exists_of_returns thenBranch))
    | some n =>
      exact shown_below (shown_either h
        (shown_either · (exists_of_returns condition) (exists_of_returns thenBranch))
        (exists_of_returns n))
  | function _ name params _ _ body =>
    -- what a function does with its scopes holds no return
    simp [events, ScopeEvent.enclose, ScopeEvent.isPassed] at h
  | binary _ _ left right =>
    exact shown_below (shown_either h (exists_of_returns left) (exists_of_returns right))
  | unary _ _ operand => exact shown_below (exists_of_returns operand h)
  | ret _ value =>
    cases value with
    | none =>
      cases List.mem_singleton.mp h
      exact ⟨_, mem_walk_self _, rfl⟩
    | some n =>
      rcases List.mem_cons.mp h with e | h
      · cases e
        exact ⟨_, mem_walk_self _, rfl⟩
      · exact shown_below (exists_of_returns n h)
  | define _ _ _ value | assign _ _ value =>
    exact shown_below (exists_of_returns value (by simpa [events] using h))

@[inherit_doc exists_of_returns]
theorem exists_of_returnsAll :
    ∀ ns : List Node, .returns span ∈ eventsAll ns → ∃ m ∈ walkAll ns, m.span = span
  | [], h => nomatch h
  | n :: ns, h => shown_either h (exists_of_returns n) (exists_of_returnsAll ns)

@[inherit_doc exists_of_returns]
theorem exists_of_returnsBindings : ∀ bs : List EnvBinding,
    .returns span ∈ eventsBindings bs → ∃ m ∈ walkBindings bs, m.span = span
  | [], h => nomatch h
  | .mk _ _ value :: bs, h =>
    shown_below (shown_either h (exists_of_returns value) (exists_of_returnsBindings bs))

@[inherit_doc exists_of_returns]
theorem exists_of_returnsParts : ∀ ps : List Part,
    .returns span ∈ eventsParts ps → ∃ m ∈ walkParts ps, m.span = span
  | [], h => nomatch h
  | .text _ :: ps, h => exists_of_returnsParts ps h
  | .node n :: ps, h => shown_either h (exists_of_returns n) (exists_of_returnsParts ps)

end

end

end Sigil.Node
