import Mathlib.Tactic.SplitIfs
import Sigil.Proofs.Typing.Visible

/-!
# Inferred types

What the types of a tree are, for trees without functions and commands of
which every part has a static type other than the dynamic one
(`Node.infer?`). The function says what the checker finds and does to its
scopes, and is nowhere else: it has no result where the checker would report
a type or a name, and none where it would give a part a dynamic type.

The main statement, `infer?_of_check`, is that a tree without functions and
commands that was checked without such a report and without a dynamic type
has inferred types. A step of the checker `Infers` what a function of the
scopes gives, with a rule for each way of putting steps together; the steps
are counted, so that every node's type is known to have been noted.
-/

namespace Sigil

/-- The type of an operation on two operands, unless their types are reported. -/
def Ty.binary? (op : BinaryOperator) (left right : Ty) : Option Ty :=
  match op with
  | .equal | .unequal => some .bool
  | .and | .or => if Ty.bool.accepts left && Ty.bool.accepts right then some .bool else none
  | .less | .lessEqual | .greater | .greaterEqual =>
    if left.isDynamic || right.isDynamic || (left.isNumeric && right.isNumeric) ||
        (left = .string && right = .string) then some .bool
    else none
  | .other _ => none
  | .add | .sub | .mul | .div | .mod =>
    if left.isDynamic || right.isDynamic then some .dynamic
    else if left.isNumeric && right.isNumeric then
      some (if left = .int ∧ right = .int then .int else .float)
    else if op = .add ∧ left = .string ∧ right = .string then some .string
    else none

/-- The type of an operation on one operand, unless its type is reported. -/
def Ty.unary? (op : UnaryOperator) (operand : Ty) : Option Ty :=
  match op with
  | .not => if Ty.bool.accepts operand then some .bool else none
  | _ => if operand.isDynamic || operand.isNumeric then some operand else none

/-- The binding that a name means, with its place. -/
def Scopes.named? (s : Scopes) (name : String) : Option (Nat × Binding) :=
  (s.resolve name).bind fun i => (s.binding? i).map (i, ·)

/-- The type of a reference, unless its name is reported. -/
def Scopes.reference? (s : Scopes) (name : String) (default : Option String) :
    Option (Ty × Scopes) :=
  match s.named? name, default with
  | some (i, b), none => some (b.type, s.modify i ({ · with used := true }))
  | some (i, b), some _ => some (Ty.join [b.type, .string], s.modify i ({ · with used := true }))
  | none, none => none
  | none, some _ => some (.string, s)

/-- The type of a definition, unless the type of its value is reported. -/
def Scopes.define? (s : Scopes) (name : String) (declared : Option Ty) (found : Ty)
    (span : Option Span) : Option (Ty × Scopes) :=
  let t := declared.getD found
  if declared.all (·.accepts found) then
    some (t, (s.define name ⟨t, declared, .define, span, false⟩).2)
  else none

/-- The type of an assignment, unless its name or the type of its value is reported. -/
def Scopes.assign? (s : Scopes) (name : String) (found : Ty) : Option (Ty × Scopes) :=
  (s.named? name).bind fun b =>
    match b.2.declared with
    | some t => if t.accepts found then some (found, s) else none
    | none => some (found, s.modify b.1 fun b => { b with type := Ty.join [b.type, found] })

namespace Node

/-- Whether a node is of a kind that defines or calls no function and runs no command, and its
operator is one of the language. -/
def isSimple : Node → Bool
  | literal .. | reference .. | substitution .. | interpolation .. | conditional .. | block ..
  | unary .. | define .. | assign .. | program .. => true
  | binary _ op _ _ => op ∈ BinaryOperator.all
  | binding _ | command .. | call .. | parameter _ | function .. | ret .. | blank _ => false

/-- Whether a tree has no functions and no commands. -/
def isCallFree (n : Node) : Bool :=
  n.walk.all isSimple

theorem isSimple_of_isCallFree {n : Node} (h : n.isCallFree) : n.isSimple :=
  List.all_eq_true.mp h n n.mem_walk_self

theorem isCallFree_child {n m : Node} (h : n.isCallFree) (hm : m ∈ n.children) : m.isCallFree :=
  List.all_eq_true.mpr fun k hk => List.all_eq_true.mp h k (walk_subset_of_mem_children hm hk)

mutual

/-- The type of a node, none of whose parts is dynamic, and the scopes after it. -/
def infer? (s : Scopes) (n : Node) : Option (Ty × Scopes) :=
  Option.filter (fun r => !r.1.isDynamic) <|
    match n with
    | literal _ value => some (Check.datumType value, s)
    | reference _ name default => s.reference? name default
    | interpolation _ parts => (inferParts? s parts).map fun s => (.string, s)
    | substitution _ body => (inferAll? s.enter body).map fun r => (.string, r.2.leave)
    | block _ body => (inferAll? s.enter body).map fun r => (Check.lastType r.1, r.2.leave)
    | program _ body => (inferAll? s body).map fun r => (Check.lastType r.1, r.2)
    | conditional _ condition thenBranch none => do
      let c ← infer? s condition
      if Ty.bool.accepts c.1 then
        let a ← infer? c.2 thenBranch
        some (Ty.join [a.1, .unit], a.2)
      else none
    | conditional _ condition thenBranch (some elseBranch) => do
      let c ← infer? s condition
      if Ty.bool.accepts c.1 then
        let a ← infer? c.2 thenBranch
        let b ← infer? a.2 elseBranch
        some (Ty.join [a.1, b.1], b.2)
      else none
    | binary _ op left right => do
      let l ← infer? s left
      let r ← infer? l.2 right
      (Ty.binary? op l.1 r.1).map fun t => (t, r.2)
    | unary _ op operand => do
      let v ← infer? s operand
      (Ty.unary? op v.1).map fun t => (t, v.2)
    | define span name declared value => do
      let v ← infer? s value
      v.2.define? name declared v.1 span
    | assign _ name value => do
      let v ← infer? s value
      v.2.assign? name v.1
    | binding _ | command .. | call .. | parameter _ | function .. | ret .. | blank _ => none

/-- The types of several nodes, and the scopes after them. -/
def inferAll? (s : Scopes) : List Node → Option (List Ty × Scopes)
  | [] => some ([], s)
  | n :: ns => do
    let v ← infer? s n
    let vs ← inferAll? v.2 ns
    some (v.1 :: vs.1, vs.2)

/-- The scopes after the nodes in a string. -/
def inferParts? (s : Scopes) : List Part → Option Scopes
  | [] => some s
  | .text _ :: ps => inferParts? s ps
  | .node n :: ps => do inferParts? (← infer? s n).2 ps

end

theorem isDynamic_of_infer? {n : Node} {s s' : Scopes} {t : Ty} (h : n.infer? s = some (t, s')) :
    t.isDynamic = false := by
  rw [infer?.eq_def, Option.filter_eq_some_iff] at h
  simpa using h.2

end Node

namespace Checker

/-- Checking may go from `c` to `d` passing a number of nodes: diagnostics are added, and the types
that were noted stay. -/
structure Advances (count : Nat) (c d : Checker) : Prop where
  diagnostics : c.diagnostics <+: d.diagnostics
  typed : ∀ i t, c.typeAt i = some t → d.typeAt i = some t
  next : d.next = c.next + count
  notes : d.notes.size = c.notes.size

theorem Advances.refl (c : Checker) : c.Advances 0 c :=
  ⟨List.prefix_rfl, fun _ _ h => h, rfl, rfl⟩

theorem Advances.trans {k l : Nat} {c d e : Checker} (h : c.Advances k d) (j : d.Advances l e) :
    c.Advances (k + l) e where
  diagnostics := h.diagnostics.trans j.diagnostics
  typed i t ht := j.typed i t (h.typed i t ht)
  next := by rw [j.next, h.next, Nat.add_assoc]
  notes := j.notes.trans h.notes

/-- No type and no name was reported, no dynamic type was noted, and there are notes for all nodes
so far. -/
structure Clean (c : Checker) : Prop where
  diagnostics : ∀ d ∈ c.diagnostics, d.code ≠ .typeMismatch ∧ d.code ≠ .unboundName
  typed : ∀ i t, c.typeAt i = some t → t.isDynamic = false
  notes : c.next ≤ c.notes.size

theorem Advances.clean {k : Nat} {c d : Checker} (h : c.Advances k d) (hd : d.Clean) : c.Clean where
  diagnostics x hx := hd.diagnostics x (h.diagnostics.subset hx)
  typed i t ht := hd.typed i t (h.typed i t ht)
  notes := by
    have before := hd.notes
    rw [h.next, h.notes] at before
    exact Nat.le_of_add_right_le before

end Checker

namespace Check

open Checker

variable {α β : Type}

/-- A step passes so many nodes, and gives what `next` says if the checker is clean after it. -/
def Infers (count : Nat) (m : Check α) (next : Scopes → Option (α × Scopes)) : Prop :=
  ∀ c : Checker, WP m c (fun a d => c.Advances count d ∧
    (d.Clean → next c.scopes = some (a, d.scopes))) fun _ => True

variable {m : Check α} {k l : Nat} {next : Scopes → Option (α × Scopes)}

theorem Infers.pure {a : α} : Infers 0 (Pure.pure a : Check α) fun s => some (a, s) :=
  fun c => WP.pure ⟨.refl c, fun _ => rfl⟩

theorem Infers.bind {f : α → Check β} {g : α → Scopes → Option (β × Scopes)}
    (hm : Infers k m next) (hf : ∀ a, Infers l (f a) (g a)) :
    Infers (k + l) (m >>= f) fun s => (next s).bind fun r => g r.1 r.2 := fun c => by
  refine WP.bind (WP.mono (hm c) fun a d ⟨passed, found⟩ => ?_)
  refine WP.mono (hf a d) fun b e ⟨passed', found'⟩ => ⟨passed.trans passed', fun clean => ?_⟩
  exact Option.bind_eq_some_iff.mpr ⟨(a, d.scopes), found (passed'.clean clean), found' clean⟩

/-- The same step with what is known of it in other words. -/
theorem Infers.congr {other : Scopes → Option (α × Scopes)} (h : Infers k m next)
    (hk : k = l) (hn : ∀ s, next s = other s) : Infers l m other := by
  have e : next = other := funext hn
  exact e ▸ hk ▸ h

/-- A step that passes no node before one that does. -/
theorem Infers.after {f : α → Check β} {g : α → Scopes → Option (β × Scopes)}
    (hm : Infers 0 m next) (hf : ∀ a, Infers l (f a) (g a)) :
    Infers l (m >>= f) fun s => (next s).bind fun r => g r.1 r.2 :=
  (hm.bind hf).congr (Nat.zero_add l) fun _ => rfl

/-- What is found is computed from what another step found. -/
theorem Infers.map {f : α → β} (hm : Infers k m next) :
    Infers k (do let a ← m; return f a) fun s => (next s).map fun r => (f r.1, r.2) :=
  (hm.bind fun _ => .pure).congr rfl fun s => by cases next s <;> rfl

/-- A step that changes the scopes alone. -/
theorem Infers.modify {f : Checker → Checker} {g : Scopes → Scopes}
    (h : ∀ c, f c = { c with scopes := g c.scopes }) :
    Infers 0 (modify f : Check PUnit) fun s => some (⟨⟩, g s) := fun c => by
  refine WP.modify ?_
  rw [h]
  exact ⟨⟨List.prefix_rfl, fun _ _ h => h, rfl, rfl⟩, fun _ => rfl⟩

/-! ## Reports and bindings -/

/-- After the report of a type or a name the checker is not clean, whatever comes next. -/
theorem reported_infers {f : Finding} {span : Option Span} {rest : PUnit → Check α}
    {other : Scopes → Option (α × Scopes)} (hf : f.code = .typeMismatch ∨ f.code = .unboundName)
    (h : Infers k (rest ⟨⟩) other) : Infers k (report f span >>= rest) next := fun c => by
  refine WP.bind (WP.modify (WP.mono (h _) fun a d ⟨passed, _⟩ => ⟨?_, fun clean => ?_⟩))
  · exact ⟨(List.prefix_append _ _).trans passed.diagnostics, passed.typed, passed.next,
      passed.notes⟩
  · have code := (passed.clean clean).diagnostics (f.diagnostic span)
      (List.mem_append_right _ (List.mem_singleton_self _))
    exact absurd hf (not_or.mpr code)

/-- Reporting a type unless a condition holds, before the rest. -/
theorem reportUnless_infers {b : Bool} {f : Finding} {span : Option Span}
    {rest : PUnit → Check α} {other : Scopes → Option (α × Scopes)}
    (hf : f.code = .typeMismatch) (h : Infers k (rest ⟨⟩) other)
    (hn : ∀ s, next s = if b then other s else none) :
    Infers k (if !b then report f span >>= rest else rest ⟨⟩) next := by
  have e : next = fun s => if b then other s else none := funext hn
  cases b with
  | false => exact reported_infers (.inl hf) h
  | true => exact e ▸ h

/-- Reporting a type for every item that a condition does not hold of. -/
theorem reportEach_infers {γ : Type} {p : γ → Bool} {f : γ → Finding} {span : Option Span}
    (hf : ∀ a, (f a).code = .typeMismatch) (as : List γ) :
    Infers 0 (ForIn.forIn as PUnit.unit fun a _ => do
      if !p a then report (f a) span
      return ForInStep.yield PUnit.unit) fun s => if as.all p then some (⟨⟩, s) else none := by
  induction as with
  | nil => exact .pure
  | cons a as ih =>
    rw [List.forIn_cons]
    dsimp only
    cases h : p a with
    | false =>
      simp only [Bool.not_false, if_pos, bind_assoc, pure_bind]
      exact reported_infers (.inl (hf a)) ih
    | true =>
      rw [Bool.not_true, if_neg Bool.false_ne_true, pure_bind]
      exact ih.congr rfl fun s => by rw [List.all_cons, h, Bool.true_and]

theorem mismatch_infers {f : Finding} {span : Option Span}
    {next : Scopes → Option (Ty × Scopes)} (hf : f.code = .typeMismatch) :
    Infers 0 (mismatch f span) next :=
  reported_infers (.inl hf) .pure

theorem resolve_infers (name : String) :
    Infers 0 (resolve name) fun s => some (s.named? name, s) :=
  fun c => WP.bind (WP.get (WP.pure ⟨.refl c, fun _ => rfl⟩))

theorem modifyBinding_infers (i : Nat) (f : Binding → Binding) :
    Infers 0 (modifyBinding i f) fun s => some (⟨⟩, s.modify i f) :=
  .modify fun _ => rfl

theorem define_infers (name : String) (b : Binding) :
    Infers 0 (define name b) fun s => some (s.define name b) :=
  fun _ => ⟨⟨List.prefix_rfl, fun _ _ h => h, rfl, rfl⟩, fun _ => rfl⟩

theorem inScope_infers (h : Infers k m next) :
    Infers k (inScope m) fun s => (next s.enter).map fun r => (r.1, r.2.leave) := fun c => by
  refine WP.bind (WP.modify (WP.bind (WP.mono (h _) fun a d ⟨passed, found⟩ => ?_)))
  refine WP.bind (WP.mono (leaveScope_wp d) fun _ e ⟨fs, _, he⟩ => WP.pure ?_)
  have left : d.Advances 0 e := by
    subst he
    exact ⟨List.prefix_append _ _, fun _ _ h => h, rfl, rfl⟩
  have all := passed.trans left
  refine ⟨⟨all.diagnostics, all.typed, all.next, all.notes⟩, fun clean => ?_⟩
  exact Option.map_eq_some_iff.mpr ⟨_, found (left.clean clean), by rw [he]⟩

/-! ## Rules -/

theorem binaryType_infers {op : BinaryOperator} (hop : op ∈ BinaryOperator.all) (left right : Ty)
    (span : Option Span) : Infers 0 (binaryType op left right span)
      fun s => (Ty.binary? op left right).map fun t => (t, s) := by
  have logical : Infers 0 (do
      for side in [left, right] do
        if !Ty.bool.accepts side then report (.logicalOperand op side) span
      return Ty.bool : Check Ty) fun s =>
        (if Ty.bool.accepts left && Ty.bool.accepts right then some Ty.bool else none).map
          fun t => (t, s) := by
    refine ((reportEach_infers (f := .logicalOperand op) (fun _ => rfl) _).after fun _ =>
      .pure).congr rfl fun s => ?_
    simp only [List.all_cons, List.all_nil, Bool.and_true]
    split_ifs <;> rfl
  have compared : Infers 0 (do
      if !(left.isDynamic || right.isDynamic || (left.isNumeric && right.isNumeric) ||
          (left = .string && right = .string)) then
        report (.comparison op left right) span
      return Ty.bool : Check Ty) fun s =>
        (if left.isDynamic || right.isDynamic || (left.isNumeric && right.isNumeric) ||
          (left = .string && right = .string) then some Ty.bool else none).map
          fun t => (t, s) := by
    refine reportUnless_infers rfl .pure fun s => ?_
    split_ifs <;> rfl
  have computed : Infers 0 (if left.isDynamic || right.isDynamic then return .dynamic
      else if left.isNumeric && right.isNumeric then
        return if left = .int ∧ right = .int then .int else .float
      else if op = .add ∧ left = .string ∧ right = .string then return .string
      else mismatch (.arithmetic op left right) span : Check Ty) fun s =>
        (if left.isDynamic || right.isDynamic then some Ty.dynamic
          else if left.isNumeric && right.isNumeric then
            some (if left = .int ∧ right = .int then .int else .float)
          else if op = .add ∧ left = .string ∧ right = .string then some .string
          else none).map fun t => (t, s) := by
    split_ifs
    iterate 4 exact .pure
    exact mismatch_infers rfl
  cases op with
  | equal | unequal => exact .pure
  | and | or => exact logical
  | less | lessEqual | greater | greaterEqual => exact compared
  | add | sub | mul | div | mod => exact computed
  | other s => exact absurd hop (by simp [BinaryOperator.all])

theorem unaryType_infers (op : UnaryOperator) (operand : Ty) (span : Option Span) :
    Infers 0 (unaryType op operand span)
      fun s => (Ty.unary? op operand).map fun t => (t, s) := by
  have signed : Infers 0 (if operand.isDynamic || operand.isNumeric then return operand
      else mismatch (.negation operand) span : Check Ty) fun s =>
        (if operand.isDynamic || operand.isNumeric then some operand else none).map
          fun t => (t, s) := by
    split_ifs
    · exact .pure
    · exact mismatch_infers rfl
  cases op with
  | not =>
    unfold unaryType
    refine reportUnless_infers rfl .pure fun s => ?_
    simp only [Ty.unary?]
    split_ifs <;> rfl
  | neg | other => exact signed

theorem referenceType_infers (name : String) (default : Option String) (span : Option Span) :
    Infers 0 (referenceType name default span) fun s => s.reference? name default := by
  have used {t : Ty} (i : Nat) : Infers 0 (do use i; return t)
      fun s => some (t, s.modify i ({ · with used := true })) :=
    (modifyBinding_infers _ _).after fun _ => .pure
  refine (resolve_infers name).after (g := fun found s => match found, default with
    | some (i, b), none => some (b.type, s.modify i ({ · with used := true }))
    | some (i, b), some _ => some (Ty.join [b.type, .string], s.modify i ({ · with used := true }))
    | none, none => none
    | none, some _ => some (.string, s)) fun found => ?_
  split
  · exact used _
  · exact used _
  · exact reported_infers (.inr rfl) .pure
  · exact .pure

theorem defineType_infers (name : String) (declared : Option Ty) (found : Ty)
    (span valueSpan : Option Span) :
    Infers 0 (defineType name declared found span valueSpan)
      fun s => s.define? name declared found span := by
  have defined : Infers 0 (do
      let _ ← define name ⟨declared.getD found, declared, .define, span, false⟩
      return declared.getD found) fun s => some (declared.getD found,
        (s.define name ⟨declared.getD found, declared, .define, span, false⟩).2) :=
    (define_infers _ _).after fun _ => .pure
  unfold defineType
  cases declared with
  | none => exact defined
  | some t => exact reportUnless_infers rfl defined fun s => rfl

theorem assignType_infers (name : String) (found : Ty) (span valueSpan : Option Span) :
    Infers 0 (assignType name found span valueSpan) fun s => s.assign? name found := by
  refine (resolve_infers name).after (g := fun b s => b.bind fun b =>
    match b.2.declared with
    | some t => if t.accepts found then some (found, s) else none
    | none => some (found, s.modify b.1 fun b => { b with type := Ty.join [b.type, found] }))
    fun resolved => ?_
  cases resolved with
  | none => exact reported_infers (.inr rfl) .pure
  | some b =>
    obtain ⟨i, type, declared⟩ := b
    cases declared with
    | none => exact (modifyBinding_infers _ _).after fun _ => .pure
    | some t => exact reportUnless_infers rfl .pure fun s => rfl

/-! ## Nodes -/

/-- The type of a node is noted, so that it is not dynamic if the checker is clean. -/
theorem noted_infers {kind : String} {span : Option Span} {infer : Nat → Check Ty}
    {next : Scopes → Option (Ty × Scopes)} (h : ∀ place, Infers k (infer place) next) :
    Infers (k + 1) (noted kind span infer)
      fun s => (next s).filter (fun r => !r.1.isDynamic) := fun c => by
  refine WP.bind (WP.get (WP.bind (WP.modify (WP.bind ?_))))
  refine WP.mono (h c.next _) fun t d ⟨passed, found⟩ => WP.bind (WP.get ?_)
  cases noted : d.notes[c.next]?.bind (·.type) with
  | some old => exact WP.throw trivial
  | none =>
    refine WP.bind (WP.modify (WP.pure ?_))
    have types (i : Nat) := typeAt_modify d c.next ({ · with type := some t }) i
    have left : d.Advances 0
        { d with notes := d.notes.modify c.next ({ · with type := some t }) } := by
      refine ⟨List.prefix_rfl, fun i u hu => ?_, rfl, Array.size_modify⟩
      rw [types, if_neg]
      · exact hu
      · rintro rfl
        rw [typeAt, noted] at hu
        cases hu
    have started : c.Advances 1 { c with next := c.next + 1 } :=
      ⟨List.prefix_rfl, fun _ _ h => h, rfl, rfl⟩
    have all := (started.trans passed).trans left
    refine ⟨⟨all.diagnostics, all.typed, ?_, all.notes⟩, fun clean => ?_⟩
    · rw [all.next, Nat.add_zero, Nat.add_comm k 1]
    · have place : c.next < d.notes.size := by
        have passedAll := passed.next
        have room := (left.clean clean).notes
        simp only at passedAll
        omega
      have static : t.isDynamic = false := by
        refine clean.typed c.next t ?_
        rw [types, if_pos rfl, Array.getElem?_eq_getElem place]
        rfl
      refine Option.filter_eq_some_iff.mpr ⟨found (left.clean clean), ?_⟩
      rw [static]
      rfl

/-- What a node infers, from what is inferred after its place was taken. -/
theorem node_of_noted {n : Node} {kind : String} {span : Option Span} {infer : Nat → Check Ty}
    {next : Scopes → Option (Ty × Scopes)} (h : ∀ place, Infers k (infer place) next)
    (hk : k + 1 = n.walk.length)
    (hn : ∀ s, n.infer? s = (next s).filter fun r => !r.1.isDynamic) :
    Infers n.walk.length (noted kind span infer) fun s => n.infer? s :=
  (noted_infers h).congr hk fun s => (hn s).symm

mutual

theorem node_infers (n : Node) (h : n.isCallFree) :
    Infers n.walk.length (node n) fun s => n.infer? s := by
  have part := fun m (hm : m ∈ n.children) => Node.isCallFree_child h hm
  cases n with
  | literal span value => exact node_of_noted (fun _ => .pure) rfl fun s => by rw [Node.infer?]
  | reference span name default =>
    exact node_of_noted (fun _ => referenceType_infers name default span) rfl fun s => by
      rw [Node.infer?]
  | interpolation span parts =>
    have ps := checkParts_infers parts fun m hm => part m (List.mem_filterMap.mpr ⟨_, hm, rfl⟩)
    refine node_of_noted (fun _ => ps.map) rfl fun s => ?_
    rw [Node.infer?, Option.map_map]
    rfl
  | substitution span body =>
    refine node_of_noted (fun _ => (inScope_infers (checkAll_infers body part)).map) rfl
      fun s => ?_
    rw [Node.infer?, Option.map_map]
    rfl
  | block span body =>
    refine node_of_noted (fun _ => (inScope_infers (checkAll_infers body part)).map) rfl
      fun s => ?_
    rw [Node.infer?, Option.map_map]
    rfl
  | program span body =>
    exact node_of_noted (fun _ => (checkAll_infers body part).map) rfl fun s => by rw [Node.infer?]
  | conditional span condition thenBranch elseBranch =>
    have c := node_infers condition (part _ List.mem_cons_self)
    have a := node_infers thenBranch (part _ (List.mem_cons_of_mem _ List.mem_cons_self))
    cases elseBranch with
    | none =>
      refine node_of_noted (fun _ => c.bind (g := fun t s => if Ty.bool.accepts t then
        (thenBranch.infer? s).bind fun a => some (Ty.join [a.1, .unit], a.2) else none) fun t =>
        reportUnless_infers rfl (a.bind fun _ => Infers.pure.after fun _ => .pure) fun s => rfl)
        ?_ fun s => ?_
      · simp [Node.walk]
      · rw [Node.infer?]
        rfl
    | some elseBranch =>
      have b := node_infers elseBranch
        (part _ (List.mem_cons_of_mem _ (List.mem_cons_of_mem _ List.mem_cons_self)))
      refine node_of_noted (fun _ => c.bind (g := fun t s => if Ty.bool.accepts t then
        (thenBranch.infer? s).bind fun a => (elseBranch.infer? a.2).bind fun b =>
          some (Ty.join [a.1, b.1], b.2) else none) fun t =>
        reportUnless_infers rfl (a.bind fun _ => b.bind fun _ => .pure) fun s => rfl) ?_ fun s => ?_
      · simp [Node.walk, Nat.add_assoc]
      · rw [Node.infer?]
        rfl
  | binary span op left right =>
    have simple : op ∈ BinaryOperator.all := by
      simpa [Node.isSimple] using Node.isSimple_of_isCallFree h
    have l := node_infers left (part _ List.mem_cons_self)
    have r := node_infers right (part _ (List.mem_cons_of_mem _ List.mem_cons_self))
    refine node_of_noted (fun _ => l.bind fun _ => r.bind fun _ => binaryType_infers simple _ _ _)
      ?_ fun s => ?_
    · simp [Node.walk]
    · rw [Node.infer?]
      rfl
  | unary span op operand =>
    have v := node_infers operand (part _ (List.mem_singleton_self _))
    refine node_of_noted (fun _ => v.bind fun _ => unaryType_infers _ _ _) rfl fun s => ?_
    rw [Node.infer?]
    rfl
  | define span name declared value =>
    have v := node_infers value (part _ (List.mem_singleton_self _))
    refine node_of_noted (fun _ => v.bind fun _ => defineType_infers _ _ _ _ _) rfl fun s => ?_
    rw [Node.infer?]
    rfl
  | assign span name value =>
    have v := node_infers value (part _ (List.mem_singleton_self _))
    refine node_of_noted (fun _ => v.bind fun _ => assignType_infers _ _ _ _) rfl fun s => ?_
    rw [Node.infer?]
    rfl
  | binding | command | call | parameter | function | ret | blank =>
    exact absurd (Node.isSimple_of_isCallFree h) (by simp [Node.isSimple])

theorem checkAll_infers : ∀ (ns : List Node), (∀ n ∈ ns, n.isCallFree) →
    Infers (Node.walkAll ns).length (checkAll ns) fun s => Node.inferAll? s ns
  | [], _ => .pure
  | n :: ns, h => by
    have first := node_infers n (h n List.mem_cons_self)
    have rest := checkAll_infers ns fun m hm => h m (List.mem_cons_of_mem _ hm)
    refine (first.bind fun t => rest.map).congr ?_ fun s => ?_
    · rw [Node.walkAll, List.length_append]
    · rw [Node.inferAll?]
      exact congrArg (Node.infer? s n).bind (funext fun v => by
        cases Node.inferAll? v.2 ns <;> rfl)

theorem checkParts_infers : ∀ (ps : List Part), (∀ n, .node n ∈ ps → n.isCallFree) →
    Infers (Node.walkParts ps).length (checkParts ps)
      fun s => (Node.inferParts? s ps).map fun s => (⟨⟩, s)
  | [], _ => .pure
  | .text _ :: ps, h => checkParts_infers ps fun m hm => h m (List.mem_cons_of_mem _ hm)
  | .node n :: ps, h => by
    have first := node_infers n (h n List.mem_cons_self)
    have rest := checkParts_infers ps fun m hm => h m (List.mem_cons_of_mem _ hm)
    refine (first.bind fun t => rest).congr ?_ fun s => ?_
    · rw [Node.walkParts, List.length_append]
    · rw [Node.inferParts?]
      cases Node.infer? s n <;> rfl

end

end Check

/-- A tree without functions and commands that was checked without the report of a type or a name,
and of which no node has a dynamic type, has inferred types. -/
theorem infer?_of_check {n : Node} {t : Ty} (hf : n.isCallFree)
    (h : (check n Scopes.empty n.blankNotes).outcome = .ok t)
    (hd : ∀ d ∈ (check n Scopes.empty n.blankNotes).diagnostics,
      d.code ≠ .typeMismatch ∧ d.code ≠ .unboundName)
    (ht : ∀ note ∈ (check n Scopes.empty n.blankNotes).notes,
      note.type ≠ some .dynamic ∧ note.type ≠ some .unknown) :
    ∃ scopes, n.infer? Scopes.empty = some (t, scopes) := by
  have checked := Check.node_infers n hf ⟨Scopes.empty, [], [], n.blankNotes, 0⟩
  unfold Check.WP at checked
  unfold check at h hd ht
  rcases e : (Check.node n).run ⟨Scopes.empty, [], [], n.blankNotes, 0⟩ with ⟨f | u, c⟩
  · rw [e] at h
    cases h
  · rw [e] at h checked hd ht
    cases h
    refine ⟨c.scopes, checked.2 ⟨hd, fun i u hu => ?_, ?_⟩⟩
    · obtain ⟨note, hn, hu⟩ := Option.bind_eq_some_iff.mp hu
      have static := ht note (Array.mem_of_getElem? hn)
      cases u <;> simp_all [Ty.isDynamic]
    · refine Nat.le_of_eq ?_
      rw [checked.1.next, checked.1.notes, Nat.zero_add, Node.blankNotes, Array.size_replicate]

end Sigil
