import Sigil.Node

/-!
# Relabelled trees

A tree with other labels (`Node.relabel`): its spans are changed in one way
everywhere, and the types that are declared in it stay or are all left out
(`Relabel`). Relabelling goes along with the structure of a tree, so that two
relabellings in turn are one (`relabel_relabel`).
-/

namespace Sigil

/-- What becomes of the labels of a tree: of a span that it has, and whether declared types stay. -/
structure Relabel where
  place : Span → Option Span
  typed : Bool

namespace Relabel

/-- What becomes of a span, if there is one. -/
def span (r : Relabel) (s : Option Span) : Option Span :=
  s.bind r.place

/-- What becomes of a type that may be declared. -/
def type (r : Relabel) (t : Option Ty) : Option Ty :=
  if r.typed then t else none

theorem type_none (r : Relabel) : r.type none = none := by
  unfold type
  cases r.typed <;> rfl

theorem type_of_typed {r : Relabel} (h : r.typed) (t : Option Ty) : r.type t = t :=
  if_pos h

/-- Everything stays. -/
def same : Relabel := ⟨some, true⟩

theorem span_same (s : Option Span) : same.span s = s := by
  cases s <;> rfl

/-- All spans are left out. -/
def unplaced : Relabel := ⟨fun _ => none, true⟩

/-- All declared types are left out. -/
def untyped : Relabel := ⟨some, false⟩

/-- One relabelling after another. -/
def after (r q : Relabel) : Relabel := ⟨fun s => r.span (q.place s), r.typed && q.typed⟩

theorem span_after (r q : Relabel) (s : Option Span) : (r.after q).span s = r.span (q.span s) := by
  cases s <;> rfl

theorem type_after (r q : Relabel) (t : Option Ty) : (r.after q).type t = r.type (q.type t) := by
  unfold type after
  cases r.typed <;> cases q.typed <;> rfl

end Relabel

/-- A parameter with other labels. -/
def Param.relabel (r : Relabel) (p : Param) : Param :=
  ⟨r.span p.span, p.name, r.type p.declared⟩

theorem Param.relabel_relabel (r q : Relabel) (p : Param) :
    (p.relabel q).relabel r = p.relabel (r.after q) := by
  simp only [relabel, Relabel.span_after, Relabel.type_after]

theorem Param.relabel_same (p : Param) : p.relabel .same = p := by
  rw [relabel, Relabel.span_same]
  rfl

namespace Node

variable (r q : Relabel)

mutual

/-- A tree with other labels. -/
def relabel : Node → Node
  | literal span value => literal (r.span span) value
  | reference span name default => reference (r.span span) name default
  | substitution span body => substitution (r.span span) (relabelAll body)
  | interpolation span parts => interpolation (r.span span) (relabelParts parts)
  | binding (.mk span name value) => binding (.mk (r.span span) name (relabel value))
  | command span env name args =>
    command (r.span span) (relabelBindings env) name (relabelAll args)
  | call span callee args => call (r.span span) (relabel callee) (relabelAll args)
  | conditional span condition thenBranch none =>
    conditional (r.span span) (relabel condition) (relabel thenBranch) none
  | conditional span condition thenBranch (some elseBranch) =>
    conditional (r.span span) (relabel condition) (relabel thenBranch) (some (relabel elseBranch))
  | block span body => block (r.span span) (relabelAll body)
  | parameter p => parameter (p.relabel r)
  | function span name params returns bodySpan body =>
    function (r.span span) name (params.map (·.relabel r)) (r.type returns) (r.span bodySpan)
      (relabelAll body)
  | binary span op left right => binary (r.span span) op (relabel left) (relabel right)
  | unary span op operand => unary (r.span span) op (relabel operand)
  | ret span none => ret (r.span span) none
  | ret span (some value) => ret (r.span span) (some (relabel value))
  | define span name declared value => define (r.span span) name (r.type declared) (relabel value)
  | assign span name value => assign (r.span span) name (relabel value)
  | program span body => program (r.span span) (relabelAll body)
  | blank span => blank (r.span span)

@[inherit_doc relabel]
def relabelAll : List Node → List Node
  | [] => []
  | n :: ns => relabel n :: relabelAll ns

@[inherit_doc relabel]
def relabelBindings : List EnvBinding → List EnvBinding
  | [] => []
  | .mk span name value :: bs => .mk (r.span span) name (relabel value) :: relabelBindings bs

@[inherit_doc relabel]
def relabelParts : List Part → List Part
  | [] => []
  | .text s :: ps => .text s :: relabelParts ps
  | .node n :: ps => .node (relabel n) :: relabelParts ps

end

theorem relabelAll_eq_map (ns : List Node) : relabelAll r ns = ns.map (relabel r) := by
  induction ns with
  | nil => rfl
  | cons n ns ih => rw [relabelAll, ih, List.map_cons]

/-- A part of a string with other labels. -/
def relabelPart : Part → Part
  | .text s => .text s
  | .node n => .node (relabel r n)

theorem relabelParts_eq_map (ps : List Part) : relabelParts r ps = ps.map (relabelPart r) := by
  induction ps with
  | nil => rfl
  | cons p ps ih => cases p <;> rw [relabelParts, ih, List.map_cons] <;> rfl

/-- A prefix of a command with other labels. -/
def relabelBinding : EnvBinding → EnvBinding
  | .mk span name value => .mk (r.span span) name (relabel r value)

theorem relabelBindings_eq_map (bs : List EnvBinding) :
    relabelBindings r bs = bs.map (relabelBinding r) := by
  induction bs with
  | nil => rfl
  | cons b bs ih =>
    obtain ⟨span, name, value⟩ := b
    rw [relabelBindings, ih, List.map_cons]
    rfl

theorem isEmpty_relabelBindings (bs : List EnvBinding) :
    (relabelBindings r bs).isEmpty = bs.isEmpty := by
  rw [relabelBindings_eq_map, List.isEmpty_map]

theorem span_relabel (n : Node) : (n.relabel r).span = r.span n.span := by
  fun_cases relabel r n <;> rfl

mutual

theorem relabel_relabel (n : Node) : (n.relabel q).relabel r = n.relabel (r.after q) := by
  cases n with
  | literal | reference | blank => simp only [relabel, Relabel.span_after]
  | parameter p => simp only [relabel, Param.relabel_relabel]
  | substitution span body | block span body | program span body =>
    simp only [relabel, Relabel.span_after, relabelAll_relabelAll body]
  | interpolation span parts =>
    simp only [relabel, Relabel.span_after, relabelParts_relabelParts parts]
  | binding b =>
    obtain ⟨span, name, value⟩ := b
    simp only [relabel, Relabel.span_after, relabel_relabel value]
  | command span env name args =>
    simp only [relabel, Relabel.span_after, relabelBindings_relabelBindings env,
      relabelAll_relabelAll args]
  | call span callee args =>
    simp only [relabel, Relabel.span_after, relabel_relabel callee, relabelAll_relabelAll args]
  | conditional span condition thenBranch elseBranch =>
    cases elseBranch with
    | none =>
      simp only [relabel, Relabel.span_after, relabel_relabel condition, relabel_relabel thenBranch]
    | some e =>
      simp only [relabel, Relabel.span_after, relabel_relabel condition, relabel_relabel thenBranch,
        relabel_relabel e]
  | function span name params returns bodySpan body =>
    simp only [relabel, Relabel.span_after, relabelAll_relabelAll body, List.map_map,
      Function.comp_def, Param.relabel_relabel, Relabel.type_after]
  | binary span op left right =>
    simp only [relabel, Relabel.span_after, relabel_relabel left, relabel_relabel right]
  | unary span op operand =>
    simp only [relabel, Relabel.span_after, relabel_relabel operand]
  | ret span value =>
    cases value with
    | none => simp only [relabel, Relabel.span_after]
    | some n =>
      simp only [relabel, Relabel.span_after, relabel_relabel n]
  | define span name declared value =>
    simp only [relabel, Relabel.span_after, relabel_relabel value, Relabel.type_after]
  | assign span name value =>
    simp only [relabel, Relabel.span_after, relabel_relabel value]

theorem relabelAll_relabelAll :
    ∀ ns : List Node, relabelAll r (relabelAll q ns) = relabelAll (r.after q) ns
  | [] => rfl
  | n :: ns => by simp only [relabelAll, relabel_relabel n, relabelAll_relabelAll ns]

theorem relabelBindings_relabelBindings : ∀ bs : List EnvBinding,
    relabelBindings r (relabelBindings q bs) = relabelBindings (r.after q) bs
  | [] => rfl
  | .mk span name value :: bs => by
    simp only [relabelBindings, Relabel.span_after, relabel_relabel value,
      relabelBindings_relabelBindings bs]

theorem relabelParts_relabelParts :
    ∀ ps : List Part, relabelParts r (relabelParts q ps) = relabelParts (r.after q) ps
  | [] => rfl
  | .text s :: ps => by simp only [relabelParts, relabelParts_relabelParts ps]
  | .node n :: ps => by
    simp only [relabelParts, relabel_relabel n, relabelParts_relabelParts ps]

end

mutual

theorem relabel_same (n : Node) : n.relabel .same = n := by
  cases n with
  | literal | reference | blank => simp only [relabel, Relabel.span_same]
  | parameter p => rw [relabel, Param.relabel_same]
  | substitution span body | block span body | program span body =>
    simp only [relabel, Relabel.span_same, relabelAll_same body]
  | interpolation span parts => simp only [relabel, Relabel.span_same, relabelParts_same parts]
  | binding b =>
    obtain ⟨span, name, value⟩ := b
    simp only [relabel, Relabel.span_same, relabel_same value]
  | command span env name args =>
    simp only [relabel, Relabel.span_same, relabelBindings_same env, relabelAll_same args]
  | call span callee args =>
    simp only [relabel, Relabel.span_same, relabel_same callee, relabelAll_same args]
  | conditional span condition thenBranch elseBranch =>
    cases elseBranch with
    | none =>
      simp only [relabel, Relabel.span_same, relabel_same condition, relabel_same thenBranch]
    | some e =>
      simp only [relabel, Relabel.span_same, relabel_same condition, relabel_same thenBranch,
        relabel_same e]
  | function span name params returns bodySpan body =>
    simp only [relabel, Relabel.span_same, relabelAll_same body, Param.relabel_same, List.map_id']
    rfl
  | binary span op left right =>
    simp only [relabel, Relabel.span_same, relabel_same left, relabel_same right]
  | unary span op operand => simp only [relabel, Relabel.span_same, relabel_same operand]
  | ret span value =>
    cases value with
    | none => simp only [relabel, Relabel.span_same]
    | some n => simp only [relabel, Relabel.span_same, relabel_same n]
  | define span name declared value =>
    simp only [relabel, Relabel.span_same, relabel_same value]
    rfl
  | assign span name value => simp only [relabel, Relabel.span_same, relabel_same value]

theorem relabelAll_same : ∀ ns : List Node, relabelAll .same ns = ns
  | [] => rfl
  | n :: ns => by rw [relabelAll, relabel_same n, relabelAll_same ns]

theorem relabelBindings_same : ∀ bs : List EnvBinding, relabelBindings .same bs = bs
  | [] => rfl
  | .mk span name value :: bs => by
    rw [relabelBindings, Relabel.span_same, relabel_same value, relabelBindings_same bs]

theorem relabelParts_same : ∀ ps : List Part, relabelParts .same ps = ps
  | [] => rfl
  | .text s :: ps => by rw [relabelParts, relabelParts_same ps]
  | .node n :: ps => by rw [relabelParts, relabel_same n, relabelParts_same ps]

end

end Node

end Sigil
