import Sigil.Node

/-!
# What a tree does to names

A tree gives names to things and changes what they stand for, in the scope
where it stands or in one that it opens. The same goes for frames when it runs:
`Node.direct` and `Node.enclosed` are the nodes that are evaluated in the frame
of a node and in one of their own.

`Node.events` lists what is done to the scopes, in the order in which the tree
is gone through from end to end, with the places of the returns that lie outside
of every function. Of these events `atRoot` picks those that mean the scope
around all others. What a node opens it closes again (`balanced_events`), so
that what a node below it does to the root scope is done by the node itself
(`atRoot_direct`).
-/

namespace Sigil

/-- Something that is done to scopes. -/
inductive ScopeEvent where
  | opens
  | closes
  | defines (name : String)
  | assigns (name : String)
  /-- A return that lies outside of every function. -/
  | returns (span : Option Span)
deriving DecidableEq

namespace ScopeEvent

/-- Whether it is no return. -/
def isPassed : ScopeEvent → Bool
  | returns _ => false
  | _ => true

/-- Events in a scope of their own. -/
def enclose (es : List ScopeEvent) : List ScopeEvent :=
  opens :: (es ++ [closes])

/-- The scopes within the root after an event, each as the names that it has. -/
def next (inner : List (List String)) : ScopeEvent → List (List String)
  | opens => [] :: inner
  | closes => inner.tail
  | defines name =>
    match inner with
    | [] => []
    | top :: outer => (name :: top) :: outer
  | assigns _ | returns _ => inner

/-- Whether an event means the root scope: a definition outside of all others, or an assignment to
a name that none of the others has. -/
def isAtRoot (inner : List (List String)) : ScopeEvent → Bool
  | defines _ => inner.isEmpty
  | assigns name => inner.all (name ∉ ·)
  | _ => false

/-- The scopes within the root after several events. -/
def after (inner : List (List String)) (es : List ScopeEvent) : List (List String) :=
  es.foldl next inner

/-- The events that mean the root scope. -/
def atRoot (inner : List (List String)) : List ScopeEvent → List ScopeEvent
  | [] => []
  | e :: es => (if e.isAtRoot inner then [e] else []) ++ atRoot (e.next inner) es

theorem after_append (inner : List (List String)) (es fs : List ScopeEvent) :
    after inner (es ++ fs) = after (after inner es) fs :=
  List.foldl_append

theorem atRoot_append (inner : List (List String)) (es fs : List ScopeEvent) :
    atRoot inner (es ++ fs) = atRoot inner es ++ atRoot (after inner es) fs := by
  induction es generalizing inner with
  | nil => rfl
  | cons e es ih => rw [List.cons_append, atRoot, ih, atRoot, List.append_assoc]; rfl

/-! ## Balanced events -/

/-- What is opened is closed again, and nothing else is. -/
def Balanced (es : List ScopeEvent) : Prop :=
  ∀ inner, (after inner es).length = inner.length ∧ (after inner es).tail = inner.tail

theorem Balanced.after_nil {es : List ScopeEvent} (h : Balanced es) : after [] es = [] :=
  List.length_eq_zero_iff.mp (h []).1

theorem balanced_nil : Balanced [] := fun _ => ⟨rfl, rfl⟩

theorem Balanced.append {es fs : List ScopeEvent} (h : Balanced es) (k : Balanced fs) :
    Balanced (es ++ fs) := fun inner => by
  rw [after_append]
  exact ⟨(k _).1.trans (h inner).1, (k _).2.trans (h inner).2⟩

theorem Balanced.enclose {es : List ScopeEvent} (h : Balanced es) : Balanced (enclose es) :=
  fun inner => by
    have within : after inner (ScopeEvent.enclose es) = (after ([] :: inner) es).tail := by
      rw [ScopeEvent.enclose, ← List.cons_append, after_append]
      rfl
    rw [within, (h _).2]
    exact ⟨rfl, rfl⟩

theorem balanced_defines (name : String) : Balanced [defines name] := fun inner => by
  cases inner <;> exact ⟨rfl, rfl⟩

theorem balanced_assigns (name : String) : Balanced [assigns name] := fun _ => ⟨rfl, rfl⟩

theorem balanced_returns (span : Option Span) : Balanced [returns span] := fun _ => ⟨rfl, rfl⟩

theorem balanced_map_defines (names : List String) : Balanced (names.map defines) := by
  induction names with
  | nil => exact balanced_nil
  | cons name names ih => exact (balanced_defines name).append ih

/-- Returns do nothing to scopes. -/
theorem after_filter (inner : List (List String)) (es : List ScopeEvent) :
    after inner (es.filter isPassed) = after inner es := by
  induction es generalizing inner with
  | nil => rfl
  | cons e es ih => cases e <;> exact ih _

theorem Balanced.filter {es : List ScopeEvent} (h : Balanced es) :
    Balanced (es.filter isPassed) := fun inner => by
  rw [after_filter]
  exact h inner

end ScopeEvent

namespace Node

open ScopeEvent

/-! ## Frames -/

/-- The nodes below a node that are evaluated in the frame that it is evaluated in. -/
def direct : Node → List Node
  | substitution .. | block .. | function .. => []
  | command _ env _ args => env.map (·.value) ++ args
  | n => n.children

/-- The nodes below a node that are evaluated in a frame of their own. -/
def enclosed : Node → List Node
  | substitution _ body | block _ body => body
  | _ => []

/-- The name that evaluating a node gives a slot, by itself and not by what is below it. -/
def definedName? : Node → Option String
  | define _ name _ _ => some name
  | function _ name _ _ _ _ => name
  | _ => none

/-! ## Scopes -/

mutual

/-- What is done to the scopes when a node is gone through from end to end. -/
def events : Node → List ScopeEvent
  | literal .. | reference .. | parameter _ | blank _ => []
  | substitution _ body | block _ body => enclose (eventsAll body)
  | interpolation _ parts => eventsParts parts
  | binding (.mk _ _ value) => events value
  | command _ env _ args => eventsBindings env ++ eventsAll args
  | call _ callee args => events callee ++ eventsAll args
  | conditional _ condition thenBranch none => events condition ++ events thenBranch
  | conditional _ condition thenBranch (some elseBranch) =>
    events condition ++ events thenBranch ++ events elseBranch
  | function _ name params _ _ body =>
    name.toList.map defines ++
      enclose ((params.map (·.name)).map defines ++ (enclose (eventsAll body)).filter isPassed)
  | binary _ _ left right => events left ++ events right
  | unary _ _ operand => events operand
  | ret span none => [returns span]
  | ret span (some value) => returns span :: events value
  | define _ name _ value => events value ++ [defines name]
  | assign _ name value => events value ++ [assigns name]
  | program _ body => eventsAll body

@[inherit_doc events]
def eventsAll : List Node → List ScopeEvent
  | [] => []
  | n :: ns => events n ++ eventsAll ns

@[inherit_doc events]
def eventsBindings : List EnvBinding → List ScopeEvent
  | [] => []
  | .mk _ _ value :: bs => events value ++ eventsBindings bs

@[inherit_doc events]
def eventsParts : List Part → List ScopeEvent
  | [] => []
  | .text _ :: ps => eventsParts ps
  | .node n :: ps => events n ++ eventsParts ps

end

/-- What is done before the first return that lies outside of every function. -/
def visited (n : Node) : List ScopeEvent :=
  n.events.takeWhile isPassed

theorem eventsBindings_eq (bs : List EnvBinding) :
    eventsBindings bs = eventsAll (bs.map (·.value)) := by
  induction bs with
  | nil => rfl
  | cons b bs ih => cases b; rw [eventsBindings, ih]; rfl

theorem eventsParts_eq (ps : List Part) :
    eventsParts ps = eventsAll (ps.filterMap fun
      | .text _ => none
      | .node n => some n) := by
  induction ps with
  | nil => rfl
  | cons p ps ih =>
    cases p with
    | text s => exact ih
    | node n => rw [eventsParts, ih]; rfl

theorem eventsAll_append (ms ns : List Node) :
    eventsAll (ms ++ ns) = eventsAll ms ++ eventsAll ns := by
  induction ms with
  | nil => rfl
  | cons m ms ih => rw [List.cons_append, eventsAll, ih, eventsAll, List.append_assoc]

/-! ## Nodes are balanced -/

mutual

theorem balanced_events (n : Node) : Balanced n.events := by
  cases n with
  | literal | reference | parameter | blank => exact balanced_nil
  | substitution span body | block span body => exact (balanced_eventsAll body).enclose
  | interpolation span parts => exact balanced_eventsParts parts
  | binding b =>
    obtain ⟨span, name, value⟩ := b
    exact balanced_events value
  | command span env name args =>
    exact (balanced_eventsBindings env).append (balanced_eventsAll args)
  | call span callee args => exact (balanced_events callee).append (balanced_eventsAll args)
  | conditional span condition thenBranch elseBranch =>
    have first := (balanced_events condition).append (balanced_events thenBranch)
    cases elseBranch with
    | none => exact first
    | some n => exact first.append (balanced_events n)
  | function span name params returns bodySpan body =>
    refine (balanced_map_defines _).append (Balanced.enclose ?_)
    exact (balanced_map_defines _).append (balanced_eventsAll body).enclose.filter
  | binary span op left right => exact (balanced_events left).append (balanced_events right)
  | unary span op operand => exact balanced_events operand
  | ret span value =>
    cases value with
    | none => exact balanced_returns span
    | some n => exact (balanced_returns span).append (balanced_events n)
  | define span name declared value =>
    exact (balanced_events value).append (balanced_defines name)
  | assign span name value => exact (balanced_events value).append (balanced_assigns name)
  | program span body => exact balanced_eventsAll body

theorem balanced_eventsAll : ∀ ns : List Node, Balanced (eventsAll ns)
  | [] => balanced_nil
  | n :: ns => (balanced_events n).append (balanced_eventsAll ns)

theorem balanced_eventsBindings : ∀ bs : List EnvBinding, Balanced (eventsBindings bs)
  | [] => balanced_nil
  | .mk _ _ value :: bs => (balanced_events value).append (balanced_eventsBindings bs)

theorem balanced_eventsParts : ∀ ps : List Part, Balanced (eventsParts ps)
  | [] => balanced_nil
  | .text _ :: ps => balanced_eventsParts ps
  | .node n :: ps => (balanced_events n).append (balanced_eventsParts ps)

end

/-! ## What a node does itself -/

theorem atRoot_eventsAll {n : Node} {ns : List Node} (hn : n ∈ ns) {e : ScopeEvent}
    (he : e ∈ atRoot [] n.events) : e ∈ atRoot [] (eventsAll ns) := by
  induction ns with
  | nil => cases hn
  | cons m ns ih =>
    rw [eventsAll, atRoot_append, (balanced_events m).after_nil]
    rcases List.mem_cons.mp hn with rfl | hn
    · exact List.mem_append_left _ he
    · exact List.mem_append_right _ (ih hn)

/-- The events of a node are those of the nodes that share its scope, one after the other, with at
most one of its own before them and one after. -/
theorem events_eq_direct (n : Node) (h : n.direct ≠ []) :
    ∃ before after, Balanced before ∧ n.events = before ++ eventsAll n.direct ++ after := by
  have same {es : List ScopeEvent} {ns : List Node} (e : es = eventsAll ns) :
      ∃ before after, Balanced before ∧ es = before ++ eventsAll ns ++ after :=
    ⟨[], [], balanced_nil, by rw [e, List.nil_append, List.append_nil]⟩
  have one (m : Node) : eventsAll [m] = m.events := List.append_nil _
  cases n with
  | literal | reference | parameter | blank => exact absurd rfl h
  | substitution | block | function => exact absurd rfl h
  | interpolation span parts => exact same (eventsParts_eq parts)
  | binding b =>
    obtain ⟨span, name, value⟩ := b
    exact same (one value).symm
  | command span env name args =>
    refine same ?_
    rw [direct, eventsAll_append, ← eventsBindings_eq]
    rfl
  | call span callee args => exact same rfl
  | conditional span condition thenBranch elseBranch =>
    refine same ?_
    cases elseBranch with
    | none => simp [events, direct, children, eventsAll]
    | some n => simp [events, direct, children, eventsAll]
  | binary span op left right => exact same (by simp [events, direct, children, eventsAll])
  | unary span op operand => exact same (one operand).symm
  | ret span value =>
    cases value with
    | none => exact absurd rfl h
    | some n =>
      exact ⟨[.returns span], [], balanced_returns span,
        by simp [events, direct, children, eventsAll]⟩
  | define span name declared value =>
    exact ⟨[], [.defines name], balanced_nil, by simp [events, direct, children, eventsAll]⟩
  | assign span name value =>
    exact ⟨[], [.assigns name], balanced_nil, by simp [events, direct, children, eventsAll]⟩
  | program span body => exact same rfl

/-- What a node that shares the scope of another does to the root scope, the other one does. -/
theorem atRoot_direct {n m : Node} (hm : m ∈ n.direct) {e : ScopeEvent}
    (he : e ∈ atRoot [] m.events) : e ∈ atRoot [] n.events := by
  obtain ⟨before, after, balanced, h⟩ := n.events_eq_direct (List.ne_nil_of_mem hm)
  rw [h, atRoot_append, atRoot_append, balanced.after_nil]
  exact List.mem_append_left _ (List.mem_append_right _ (atRoot_eventsAll hm he))

/-- A node that gives a name a slot defines the name. -/
theorem atRoot_definedName? {n : Node} {name : String} (h : n.definedName? = some name) :
    .defines name ∈ atRoot [] n.events := by
  cases n with
  | define span name' declared value =>
    cases h
    rw [events, atRoot_append, (balanced_events value).after_nil]
    exact List.mem_append_right _ (List.mem_singleton_self _)
  | function span name' params returns bodySpan body =>
    obtain rfl : name' = some name := h
    exact List.mem_cons_self
  | _ => cases h

end Node

end Sigil
