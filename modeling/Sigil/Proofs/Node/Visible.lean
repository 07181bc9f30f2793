import Mathlib.Tactic.SplitIfs
import Sigil.Node

/-!
# Visible names

Which names are visible where, as far as a tree alone can say
(`Node.resolve?`): a definition makes its name visible from there on, to the
end of the block, the substitution or the function that it stands in. What a
node defines in the frame that it is evaluated in is decided by
`Node.defines`; a node that defines nothing there leaves the visible names as
they are (`Node.resolve?_eq`).
-/

namespace Sigil.Node

mutual

/-- The names that are visible after a node was evaluated where given ones are; none if it refers to
a name that is not visible there. -/
def resolve? (visible : List String) : Node → Option (List String)
  | literal .. | parameter _ | blank _ | reference _ _ (some _) | ret _ none => some visible
  | reference _ name none => if name ∈ visible then some visible else none
  | substitution _ body | block _ body => (resolveAll? visible body).map fun _ => visible
  | interpolation _ parts => resolveParts? visible parts
  | binding (.mk _ _ value) => resolve? visible value
  | command _ env _ args => do resolveAll? (← resolveBindings? visible env) args
  | call _ callee args => do resolveAll? (← resolve? visible callee) args
  | conditional _ condition thenBranch none => do
    resolve? (← resolve? visible condition) thenBranch
  | conditional _ condition thenBranch (some elseBranch) => do
    resolve? (← resolve? (← resolve? visible condition) thenBranch) elseBranch
  | function _ name params _ _ body =>
    let outside := name.toList ++ visible
    (resolveAll? ((params.map (·.name)).reverse ++ outside) body).map fun _ => outside
  | binary _ _ left right => do resolve? (← resolve? visible left) right
  | unary _ _ operand => resolve? visible operand
  | ret _ (some value) => resolve? visible value
  | define _ name _ value => do some (name :: (← resolve? visible value))
  | assign _ name value => do
    let visible ← resolve? visible value
    if name ∈ visible then some visible else none
  | program _ body => resolveAll? visible body

@[inherit_doc resolve?]
def resolveAll? (visible : List String) : List Node → Option (List String)
  | [] => some visible
  | n :: ns => do resolveAll? (← resolve? visible n) ns

@[inherit_doc resolve?]
def resolveBindings? (visible : List String) : List EnvBinding → Option (List String)
  | [] => some visible
  | .mk _ _ value :: bs => do resolveBindings? (← resolve? visible value) bs

@[inherit_doc resolve?]
def resolveParts? (visible : List String) : List Part → Option (List String)
  | [] => some visible
  | .text _ :: ps => resolveParts? visible ps
  | .node n :: ps => do resolveParts? (← resolve? visible n) ps

end

theorem resolveAll?_eq_foldlM (visible : List String) (ns : List Node) :
    resolveAll? visible ns = ns.foldlM resolve? visible := by
  induction ns generalizing visible with
  | nil => rfl
  | cons n ns ih =>
    rw [resolveAll?, List.foldlM_cons]
    exact congrArg _ (funext ih)

/-- The names that are visible after a part of a string. -/
def resolvePart? (visible : List String) : Part → Option (List String)
  | .text _ => some visible
  | .node n => resolve? visible n

theorem resolveParts?_eq_foldlM (visible : List String) (ps : List Part) :
    resolveParts? visible ps = ps.foldlM resolvePart? visible := by
  induction ps generalizing visible with
  | nil => rfl
  | cons p ps ih =>
    cases p with
    | text s => exact ih visible
    | node n =>
      rw [resolveParts?, List.foldlM_cons]
      exact congrArg _ (funext ih)

mutual

/-- Whether a definition stands in a node that is evaluated in the same frame as the node: in no
block, substitution or body of a function within it. -/
def defines : Node → Bool
  | literal .. | reference .. | parameter _ | blank _ | ret _ none => false
  | substitution .. | block .. => false
  | interpolation _ parts => definesParts parts
  | binding (.mk _ _ value) => defines value
  | command _ env _ args => definesBindings env || definesAny args
  | call _ callee args => defines callee || definesAny args
  | conditional _ condition thenBranch none => defines condition || defines thenBranch
  | conditional _ condition thenBranch (some elseBranch) =>
    defines condition || defines thenBranch || defines elseBranch
  | function _ name .. => name.isSome
  | binary _ _ left right => defines left || defines right
  | unary _ _ operand => defines operand
  | ret _ (some value) | assign _ _ value => defines value
  | define .. => true
  | program _ body => definesAny body

@[inherit_doc defines]
def definesAny : List Node → Bool
  | [] => false
  | n :: ns => defines n || definesAny ns

@[inherit_doc defines]
def definesBindings : List EnvBinding → Bool
  | [] => false
  | .mk _ _ value :: bs => defines value || definesBindings bs

@[inherit_doc defines]
def definesParts : List Part → Bool
  | [] => false
  | .text _ :: ps => definesParts ps
  | .node n :: ps => defines n || definesParts ps

end

/-- Whether what may be skipped when a node is evaluated, the branches of a conditional and the
right operand of `&&` and `||`, defines nothing. -/
def skipsNoDefinition : Node → Bool
  | conditional _ _ thenBranch elseBranch => !thenBranch.defines && elseBranch.all (!·.defines)
  | binary _ op _ right => !(op = .and || op = .or) || !right.defines
  | _ => true

/-- Whether no definition in a tree is ever skipped when what is around it is evaluated. -/
def definesPlainly (n : Node) : Bool :=
  n.walk.all skipsNoDefinition

theorem definesPlainly_iff {n : Node} : n.definesPlainly ↔ ∀ m ∈ n.walk, m.skipsNoDefinition :=
  List.all_eq_true

theorem walk_subset_walkAll {n : Node} {ns : List Node} (h : n ∈ ns) : n.walk ⊆ walkAll ns := by
  rw [walkAll_eq_flatMap]
  exact fun _ hm => List.mem_flatMap.mpr ⟨n, h, hm⟩

theorem walk_subset_walkBindings {b : EnvBinding} {bs : List EnvBinding} (h : b ∈ bs) :
    (binding b).walk ⊆ walkBindings bs := by
  induction bs with
  | nil => cases h
  | cons c bs ih =>
    obtain ⟨span, name, value⟩ := c
    intro m hm
    rw [walkBindings, List.mem_append]
    rcases List.mem_cons.mp h with rfl | h
    · exact .inl hm
    · exact .inr (ih h hm)

theorem walk_subset_walkParts {n : Node} {ps : List Part} (h : .node n ∈ ps) :
    n.walk ⊆ walkParts ps := by
  induction ps with
  | nil => cases h
  | cons p ps ih =>
    cases p with
    | text s => exact ih (by simpa using h)
    | node k =>
      intro m hm
      rw [walkParts, List.mem_append]
      rcases List.mem_cons.mp h with e | h
      · cases e
        exact .inl hm
      · exact .inr (ih h hm)

theorem mem_walk_self (n : Node) : n ∈ n.walk := by
  cases n with
  | conditional span condition thenBranch elseBranch =>
    cases elseBranch <;> exact List.mem_cons_self
  | ret span value => cases value <;> exact List.mem_cons_self
  | binding b =>
    obtain ⟨span, name, value⟩ := b
    exact List.mem_cons_self
  | _ => exact List.mem_cons_self

/-- What is below a part of a tree is below the tree. -/
theorem walk_subset_of_mem_children {n m : Node} (h : m ∈ n.children) : m.walk ⊆ n.walk := by
  cases n with
  | literal | reference | parameter | blank => cases h
  | substitution | block | program => exact List.subset_cons_of_subset _ (walk_subset_walkAll h)
  | interpolation span parts =>
    refine List.subset_cons_of_subset _ (walk_subset_walkParts ?_)
    obtain ⟨p, hp, e⟩ := List.mem_filterMap.mp h
    cases p with
    | text s => cases e
    | node n =>
      cases e
      exact hp
  | binding b =>
    obtain ⟨span, name, value⟩ := b
    rw [List.mem_singleton.mp h]
    exact List.subset_cons_self _ _
  | command span env name args =>
    refine List.subset_cons_of_subset _ ?_
    rcases List.mem_append.mp h with h | h
    · obtain ⟨b, hb, rfl⟩ := List.mem_map.mp h
      exact List.subset_append_of_subset_left _ (walk_subset_walkBindings hb)
    · exact List.subset_append_of_subset_right _ (walk_subset_walkAll h)
  | call span callee args =>
    refine List.subset_cons_of_subset _ ?_
    rcases List.mem_cons.mp h with rfl | h
    · exact List.subset_append_left _ _
    · exact List.subset_append_of_subset_right _ (walk_subset_walkAll h)
  | conditional span condition thenBranch elseBranch =>
    cases elseBranch <;> intro k hk <;> simp only [children, Option.toList, List.mem_cons,
      List.not_mem_nil, or_false] at h <;> simp only [walk, List.mem_cons, List.mem_append] <;>
      grind
  | function span name params returns bodySpan body =>
    refine List.subset_cons_of_subset _ ?_
    rcases List.mem_append.mp h with h | h
    · obtain ⟨p, hp, rfl⟩ := List.mem_map.mp h
      exact List.cons_subset.mpr
        ⟨List.mem_append_left _ (List.mem_map_of_mem hp), List.nil_subset _⟩
    · rw [List.mem_singleton.mp h]
      exact List.subset_append_right _ _
  | binary span op left right =>
    refine List.subset_cons_of_subset _ ?_
    rcases List.mem_cons.mp h with rfl | h
    · exact List.subset_append_left _ _
    · rw [List.mem_singleton.mp h]
      exact List.subset_append_right _ _
  | unary | define | assign =>
    rw [List.mem_singleton.mp h]
    exact List.subset_cons_self _ _
  | ret span value =>
    cases value with
    | none => cases h
    | some value =>
      rw [List.mem_singleton.mp h]
      exact List.subset_cons_self _ _

/-- A tree that defines plainly does so in its parts. -/
theorem definesPlainly_child {n m : Node} (h : n.definesPlainly) (hm : m ∈ n.children) :
    m.definesPlainly :=
  definesPlainly_iff.mpr fun k hk =>
    definesPlainly_iff.mp h k (walk_subset_of_mem_children hm hk)

theorem definesPlainly_block {span : Option Span} {body : List Node}
    (h : ∀ n ∈ body, n.definesPlainly) : (block span body).definesPlainly := by
  rw [definesPlainly, walk, walkAll_eq_flatMap, List.all_cons, List.all_flatMap]
  exact Bool.and_eq_true_iff.mpr ⟨rfl, List.all_eq_true.mpr h⟩

mutual

theorem resolve?_eq (n : Node) {visible after : List String} (hd : n.defines = false)
    (h : n.resolve? visible = some after) : after = visible := by
  cases n with
  | literal | parameter | blank => exact (Option.some.inj h).symm
  | reference span name default =>
    cases default with
    | none =>
      simp only [resolve?] at h
      split at h
      · exact (Option.some.inj h).symm
      · cases h
    | some d => exact (Option.some.inj h).symm
  | substitution | block =>
    simp only [resolve?, Option.map_eq_some_iff] at h
    exact h.choose_spec.2.symm
  | interpolation span parts => exact resolveParts?_eq parts hd h
  | binding b =>
    obtain ⟨span, name, value⟩ := b
    exact resolve?_eq value hd h
  | command span env name args =>
    simp only [defines, Bool.or_eq_false_iff] at hd
    obtain ⟨v, hv, h⟩ := Option.bind_eq_some_iff.mp h
    rw [resolveAll?_eq args hd.2 h, resolveBindings?_eq env hd.1 hv]
  | call span callee args =>
    simp only [defines, Bool.or_eq_false_iff] at hd
    obtain ⟨v, hv, h⟩ := Option.bind_eq_some_iff.mp h
    rw [resolveAll?_eq args hd.2 h, resolve?_eq callee hd.1 hv]
  | conditional span condition thenBranch elseBranch =>
    cases elseBranch with
    | none =>
      simp only [defines, Bool.or_eq_false_iff] at hd
      obtain ⟨v, hv, h⟩ := Option.bind_eq_some_iff.mp h
      rw [resolve?_eq thenBranch hd.2 h, resolve?_eq condition hd.1 hv]
    | some e =>
      simp only [defines, Bool.or_eq_false_iff] at hd
      obtain ⟨v, hv, h⟩ := Option.bind_eq_some_iff.mp h
      obtain ⟨u, hu, h⟩ := Option.bind_eq_some_iff.mp h
      rw [resolve?_eq e hd.2 h, resolve?_eq thenBranch hd.1.2 hu, resolve?_eq condition hd.1.1 hv]
  | function span name params returns bodySpan body =>
    cases name with
    | none =>
      simp only [resolve?, Option.map_eq_some_iff] at h
      exact h.choose_spec.2.symm
    | some name => cases hd
  | binary span op left right =>
    simp only [defines, Bool.or_eq_false_iff] at hd
    obtain ⟨v, hv, h⟩ := Option.bind_eq_some_iff.mp h
    rw [resolve?_eq right hd.2 h, resolve?_eq left hd.1 hv]
  | unary span op operand => exact resolve?_eq operand hd h
  | ret span value =>
    cases value with
    | none => exact (Option.some.inj h).symm
    | some n => exact resolve?_eq n hd h
  | define => cases hd
  | assign span name value =>
    obtain ⟨v, hv, h⟩ := Option.bind_eq_some_iff.mp h
    split_ifs at h
    cases h
    exact resolve?_eq value hd hv
  | program span body => exact resolveAll?_eq body hd h

theorem resolveAll?_eq : ∀ (ns : List Node) {visible after : List String},
    definesAny ns = false → resolveAll? visible ns = some after → after = visible
  | [], _, _, _, h => (Option.some.inj h).symm
  | n :: ns, _, _, hd, h => by
    simp only [definesAny, Bool.or_eq_false_iff] at hd
    obtain ⟨v, hv, h⟩ := Option.bind_eq_some_iff.mp h
    rw [resolveAll?_eq ns hd.2 h, resolve?_eq n hd.1 hv]

theorem resolveBindings?_eq : ∀ (bs : List EnvBinding) {visible after : List String},
    definesBindings bs = false → resolveBindings? visible bs = some after → after = visible
  | [], _, _, _, h => (Option.some.inj h).symm
  | .mk _ _ value :: bs, _, _, hd, h => by
    simp only [definesBindings, Bool.or_eq_false_iff] at hd
    obtain ⟨v, hv, h⟩ := Option.bind_eq_some_iff.mp h
    rw [resolveBindings?_eq bs hd.2 h, resolve?_eq value hd.1 hv]

theorem resolveParts?_eq : ∀ (ps : List Part) {visible after : List String},
    definesParts ps = false → resolveParts? visible ps = some after → after = visible
  | [], _, _, _, h => (Option.some.inj h).symm
  | .text _ :: ps, _, _, hd, h => resolveParts?_eq ps hd h
  | .node n :: ps, _, _, hd, h => by
    simp only [definesParts, Bool.or_eq_false_iff] at hd
    obtain ⟨v, hv, h⟩ := Option.bind_eq_some_iff.mp h
    rw [resolveParts?_eq ps hd.2 h, resolve?_eq n hd.1 hv]

end

end Sigil.Node
