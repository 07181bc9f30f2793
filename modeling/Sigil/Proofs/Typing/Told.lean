import Sigil.Proofs.Node.Spanned
import Sigil.Proofs.Typing.Unused

/-!
# Where reports are about

What the checker reports is about nodes of the tree, or about the definitions of
names that were in the scopes before or came in with the tree. So what holds of
the spans of all these holds of the spans that are reported (`check_told`).

The invariant of the checker's steps is that this is so of everything reported so
far and of all bindings (`Checker.Told`); it is kept by steps that stop, too.
-/

namespace Sigil

variable {P : Option Span → Prop}

/-- The spans of all bindings are as `P` says. -/
def Scopes.Told (P : Option Span → Prop) (s : Scopes) : Prop :=
  ∀ i b, s.binding? i = some b → P b.span

/-- The spans of what was reported so far, and those of all bindings, are as `P` says. -/
structure Checker.Told (P : Option Span → Prop) (c : Checker) : Prop where
  reports : ∀ d ∈ c.diagnostics, P d.span
  scopes : c.scopes.Told P

namespace Scopes

variable {s : Scopes}

theorem told_empty : empty.Told P := fun _ _ h => by cases h

theorem Told.modify (h : s.Told P) {f : Binding → Binding} (hf : ∀ b, (f b).span = b.span)
    (i : Nat) : (s.modify i f).Told P := by
  intro j b hb
  rw [binding?_modify] at hb
  split_ifs at hb
  · obtain ⟨b', hb', rfl⟩ := Option.map_eq_some_iff.mp hb
    rw [hf]
    exact h j b' hb'
  · exact h j b hb

theorem Told.define (h : s.Told P) (name : String) {b : Binding} (hb : P b.span) :
    (s.define name b).2.Told P := by
  intro i b' hb'
  rw [binding?, table_define, Array.getElem?_push] at hb'
  split_ifs at hb'
  · cases hb'
    exact hb
  · exact h i b' hb'

theorem Told.bindings (h : s.Told P) : ∀ nb ∈ s.bindings, P nb.2.span := by
  intro nb hnb
  obtain ⟨⟨name, i⟩, -, found⟩ := List.mem_filterMap.mp hnb
  obtain ⟨b, hb, rfl⟩ := Option.map_eq_some_iff.mp found
  exact h i b hb

end Scopes

namespace Check

open Checker

variable {α β : Type} {m : Check α} {span valueSpan : Option Span}

/-- A step keeps to spans as `P` says, also if it stops. -/
def Tells (P : Option Span → Prop) (m : Check α) : Prop :=
  ∀ c : Checker, c.Told P → Meets m c (fun _ d => d.Told P) fun _ d => d.Told P

/-! ## Rules -/

theorem Tells.pure {a : α} : Tells P (Pure.pure a) :=
  fun _ h => h

theorem Tells.throw {f : BindFault} : Tells P (MonadExcept.throw f : Check α) :=
  fun _ h => h

theorem Tells.bind {f : α → Check β} (hm : Tells P m) (hf : ∀ a, Tells P (f a)) :
    Tells P (m >>= f) :=
  fun c h => Meets.bind (Meets.mono (hm c h) (fun a d hd => hf a d hd) fun _ _ => id)

theorem Tells.map {f : α → β} (hm : Tells P m) : Tells P (f <$> m) := by
  rw [map_eq_pure_bind]
  exact hm.bind fun _ => .pure

theorem Tells.get : Tells P (MonadState.get : Check Checker) :=
  fun _ h => h

/-- A step that changes neither reports nor bindings. -/
theorem Tells.modify {f : Checker → Checker} (hd : ∀ c, (f c).diagnostics = c.diagnostics)
    (hs : ∀ c i, (f c).scopes.binding? i = c.scopes.binding? i) :
    Tells P (modify f : Check PUnit) :=
  fun c h => ⟨by rw [hd]; exact h.reports, fun i b hb => h.scopes i b (hs c i ▸ hb)⟩

theorem Tells.forIn {γ : Type} {as : List γ} {f : γ → PUnit → Check (ForInStep PUnit)}
    (turn : γ → Check PUnit) (hf : ∀ a, f a ⟨⟩ = do turn a; return .yield ⟨⟩)
    (ht : ∀ a ∈ as, Tells P (turn a)) : Tells P (ForIn.forIn as PUnit.unit f) := by
  induction as with
  | nil => exact .pure
  | cons a as ih =>
    obtain ⟨first, rest⟩ := List.forall_mem_cons.mp ht
    rw [List.forIn_cons, hf, bind_assoc]
    exact first.bind fun _ => ih rest

/-! ## Reports and bindings -/

theorem report_tells {f : Finding} (h : P span) : Tells P (report f span) := fun _ hc =>
  ⟨List.forall_mem_append.mpr ⟨hc.reports, List.forall_mem_singleton.mpr h⟩, hc.scopes⟩

/-- Reporting something on a condition, before the rest. -/
theorem reportIf_tells {p : Prop} [Decidable p] {f : Finding} {rest : PUnit → Check β}
    (h : P span) (hr : Tells P (rest ⟨⟩)) :
    Tells P (if p then report f span >>= rest else rest ⟨⟩) := by
  split_ifs
  · exact (report_tells h).bind fun _ => hr
  · exact hr

/-- Reporting something about every item that a condition holds of. -/
theorem reportEach_tells {γ : Type} {p : γ → Prop} [DecidablePred p] {f : γ → Finding}
    {span : γ → Option Span} {as : List γ} (h : ∀ a ∈ as, P (span a)) :
    Tells P (ForIn.forIn as PUnit.unit fun a _ => do
      if p a then report (f a) (span a)
      return ForInStep.yield PUnit.unit) := by
  refine Tells.forIn (fun a => if p a then report (f a) (span a) else Pure.pure ⟨⟩) (fun a => ?_)
    fun a ha => ?_
  · dsimp only
    split_ifs
    · rfl
    · rw [pure_bind]
  · split_ifs
    · exact report_tells (h a ha)
    · exact .pure

theorem mismatch_tells {f : Finding} (h : P span) : Tells P (mismatch f span) :=
  (report_tells h).bind fun _ => .pure

theorem resolve_tells (name : String) : Tells P (resolve name) :=
  Tells.get.bind fun _ => .pure

theorem modifyBinding_tells {i : Nat} {f : Binding → Binding} (hf : ∀ b, (f b).span = b.span) :
    Tells P (modifyBinding i f) :=
  fun _ hc => ⟨hc.reports, hc.scopes.modify hf i⟩

theorem use_tells (i : Nat) : Tells P (use i) :=
  modifyBinding_tells fun _ => rfl

theorem define_tells {name : String} {b : Binding} (h : P b.span) : Tells P (define name b) :=
  fun _ hc => ⟨hc.reports, hc.scopes.define name h⟩

theorem leaveScope_tells : Tells P leaveScope := by
  intro c hc
  have left : Tells P (modify fun c => { c with scopes := c.scopes.leave } : Check PUnit) :=
    .modify (fun _ => rfl) fun _ _ => rfl
  have reported := reportEach_tells (f := fun nb : String × Binding => .unused nb.1)
    (p := fun nb => nb.2.kind = .define ∧ ¬ nb.2.used ∧ nb.1.toList.head? ≠ some '_')
    hc.scopes.bindings
  exact Meets.bind (Meets.get (reported.bind (fun _ => left) c hc))

theorem inScope_tells (hm : Tells P m) : Tells P (inScope m) := by
  have entered : Tells P (modify fun c => { c with scopes := c.scopes.enter } : Check PUnit) :=
    .modify (fun _ => rfl) fun _ _ => rfl
  exact entered.bind fun _ => hm.bind fun _ => leaveScope_tells.bind fun _ => .pure

theorem noted_tells {kind : String} {infer : Nat → Check Ty} (h : ∀ place, Tells P (infer place)) :
    Tells P (noted kind span infer) := by
  refine Tells.get.bind fun c => ?_
  refine Tells.bind (.modify (fun _ => rfl) fun _ _ => rfl) fun _ => (h _).bind fun t => ?_
  refine Tells.get.bind fun d => ?_
  split
  · exact .throw
  · exact Tells.bind (.modify (fun _ => rfl) fun _ _ => rfl) fun _ => .pure

/-! ## Rules of the checker -/

theorem callType_tells (callee : Ty) (args : List Ty) (h : P span) :
    Tells P (callType callee args span) := by
  unfold callType
  split
  · dsimp only
    split_ifs
    · exact (report_tells h).bind fun _ => .pure
    · exact (reportEach_tells fun _ _ => h).bind fun _ => .pure
  · exact .pure
  · exact .pure
  · exact mismatch_tells h

theorem binaryType_tells (op : BinaryOperator) (left right : Ty) (h : P span) :
    Tells P (binaryType op left right span) := by
  unfold binaryType
  split
  iterate 2 exact .pure
  iterate 2 exact (reportEach_tells fun _ _ => h).bind fun _ => .pure
  iterate 4 exact reportIf_tells h .pure
  split_ifs
  iterate 4 exact .pure
  exact mismatch_tells h

theorem unaryType_tells (op : UnaryOperator) (operand : Ty) (h : P span) :
    Tells P (unaryType op operand span) := by
  unfold unaryType
  split
  · exact reportIf_tells h .pure
  · split_ifs
    · exact .pure
    · exact mismatch_tells h

theorem referenceType_tells (name : String) (default : Option String) (h : P span) :
    Tells P (referenceType name default span) := by
  refine (resolve_tells name).bind fun b => ?_
  split
  · exact (use_tells _).bind fun _ => .pure
  · exact (use_tells _).bind fun _ => .pure
  · exact (report_tells h).bind fun _ => .pure
  · exact .pure

theorem defineType_tells (name : String) (declared : Option Ty) (found : Ty) (h : P span)
    (hv : P valueSpan) : Tells P (defineType name declared found span valueSpan) := by
  have defined : Tells P (do
      let _ ← define name ⟨declared.getD found, declared, .define, span, false⟩
      return declared.getD found) :=
    (define_tells h).bind fun _ => .pure
  unfold defineType
  cases declared with
  | none => exact defined
  | some t => exact reportIf_tells hv defined

theorem assignType_tells (name : String) (found : Ty) (h : P span) (hv : P valueSpan) :
    Tells P (assignType name found span valueSpan) := by
  refine (resolve_tells name).bind fun b => ?_
  dsimp only
  split
  · exact (report_tells h).bind fun _ => .pure
  · split
    · exact reportIf_tells hv .pure
    · refine Tells.bind (modifyBinding_tells ?_) fun _ => .pure
      exact fun _ => rfl

theorem commandType_tells (place : Nat) (target : Option Nat) (hasEnv : Bool) (args : List Ty)
    (h : P span) : Tells P (commandType place target hasEnv args span) := by
  refine Tells.get.bind fun c => ?_
  dsimp only
  split
  · exact .pure
  · split_ifs
    · exact (use_tells _).bind fun _ => Tells.bind (.modify (fun _ => rfl) fun _ _ => rfl)
        fun _ => callType_tells _ _ h
    · exact (use_tells _).bind fun _ => .pure
    · exact .pure

/-! ## Nodes -/

theorem ret_tells {m : Check Ty} (hm : Tells P m) (h : P span) : Tells P (do
    if (← get).returns.isEmpty then
      report .returnOutside span
      throw (.returnOutside span)
    let found ← m
    modify fun c => { c with returns := (c.returns.head?.getD [] ++ [found]) :: c.returns.drop 1 }
    return found : Check Ty) := by
  refine Tells.get.bind fun c => ?_
  dsimp only
  split_ifs
  · exact (report_tells h).bind fun _ => .throw
  · exact hm.bind fun _ => Tells.bind (.modify (fun _ => rfl) fun _ _ => rfl) fun _ => .pure

/-- The parameters of a function, each with its own definition. -/
theorem params_tells {ps : List Param} (h : ∀ p ∈ ps, P p.span) :
    Tells P (ForIn.forIn ps PUnit.unit fun p _ => do
      let t ← noted "Param" p.span fun _ => return p.declared.getD .dynamic
      let _ ← define p.name ⟨t, p.declared, .param, p.span, false⟩
      return ForInStep.yield PUnit.unit) := by
  refine Tells.forIn (fun p => do
    let t ← noted "Param" p.span fun _ => return p.declared.getD .dynamic
    let _ ← define p.name ⟨t, p.declared, .param, p.span, false⟩) (fun p => ?_) fun p hp => ?_
  · rw [bind_assoc]
    rfl
  · exact (noted_tells fun _ => .pure).bind fun t => (define_tells (h p hp)).map

/-- What a function does in a scope of its own. -/
theorem functionScope_tells {params : List Param} (bodySpan : Option Span) {m : Check (List Ty)}
    (hp : ∀ p ∈ params, P p.span) (hm : Tells P m) : Tells P (inScope do
      for p in params do
        let t ← noted "Param" p.span fun _ => return p.declared.getD .dynamic
        let _ ← define p.name ⟨t, p.declared, .param, p.span, false⟩
      modify fun c => { c with returns := [] :: c.returns }
      let bodyType ← noted "Block" bodySpan fun _ => do return lastType (← inScope m)
      let returned := (← get).returns.head?.getD []
      modify fun c => { c with returns := c.returns.drop 1 }
      return (bodyType, returned)) := by
  refine inScope_tells ((params_tells hp).bind fun _ => ?_)
  refine Tells.bind (.modify (fun _ => rfl) fun _ _ => rfl) fun _ => ?_
  refine (noted_tells fun _ => (inScope_tells hm).bind fun _ => .pure).bind fun t => ?_
  refine Tells.get.bind fun c => ?_
  exact Tells.bind (.modify (fun _ => rfl) fun _ _ => rfl) fun _ => .pure

/-- What is found of a function when its body is done with. -/
theorem signature_tells {self : Option Nat} {returns : Option Ty} {results : List Ty}
    {declared inferred : Ty} (h : P span) : Tells P (do
      match returns with
      | some t =>
        for result in results do
          if !t.accepts result then report (.result result t) span
        return declared
      | none =>
        if let some i := self then modifyBinding i ({ · with type := inferred })
        return inferred) := by
  cases returns with
  | some t => exact (reportEach_tells fun _ _ => h).bind fun _ => .pure
  | none =>
    cases self with
    | none => exact .pure
    | some i =>
      refine Tells.bind (modifyBinding_tells ?_) fun _ => .pure
      exact fun _ => rfl

mutual

theorem node_tells (n : Node) (h : n.Spanned P) : Tells P (node n) := by
  have here := h.span
  have below := fun m hm => h.children (m := m) hm
  rw [node]
  refine noted_tells fun place => ?_
  cases n with
  | literal | parameter | blank => exact .pure
  | reference => exact referenceType_tells _ _ here
  | interpolation span parts =>
    exact (checkParts_tells parts fun n hn =>
      below n (List.mem_filterMap.mpr ⟨.node n, hn, rfl⟩)).bind fun _ => .pure
  | substitution span body | block span body =>
    exact (inScope_tells (checkAll_tells body below)).bind fun _ => .pure
  | binding b =>
    obtain ⟨span, name, value⟩ := b
    exact (node_tells value (below _ (List.mem_singleton_self _))).bind fun _ => .pure
  | command span env name args =>
    refine (checkBindings_tells env fun b hb =>
      below _ (List.mem_append_left _ (List.mem_map_of_mem hb))).bind fun _ => ?_
    refine (resolve_tells name).bind fun target => ?_
    exact (checkAll_tells args fun n hn => below n (List.mem_append_right _ hn)).bind fun _ =>
      commandType_tells _ _ _ _ here
  | call span callee args =>
    refine (node_tells callee (below _ List.mem_cons_self)).bind fun _ => ?_
    exact (checkAll_tells args fun n hn => below n (List.mem_cons_of_mem _ hn)).bind fun _ =>
      callType_tells _ _ here
  | conditional span condition thenBranch elseBranch =>
    have first := below condition (by simp [Node.children])
    refine (node_tells condition first).bind fun _ => reportIf_tells first.span ?_
    refine (node_tells thenBranch (below _ (by simp [Node.children]))).bind fun _ => ?_
    cases elseBranch with
    | none => exact Tells.pure.bind fun _ => .pure
    | some elseBranch =>
      exact (node_tells elseBranch (below _ (by simp [Node.children]))).bind fun _ => .pure
  | function span name params returns bodySpan body =>
    have inside := functionScope_tells bodySpan
      (fun p hp => (below (.parameter p) (List.mem_append_left _ (List.mem_map_of_mem hp))).span)
      (checkAll_tells body fun m hm => h.body.children hm)
    dsimp only
    cases name
    case' none => refine Tells.pure.bind fun self => ?_
    case' some => refine (define_tells here).map.bind fun self => ?_
    all_goals exact inside.bind fun r => signature_tells here
  | binary span op left right =>
    refine (node_tells left (below _ (by simp [Node.children]))).bind fun _ => ?_
    exact (node_tells right (below _ (by simp [Node.children]))).bind fun _ =>
      binaryType_tells _ _ _ here
  | unary span op operand =>
    exact (node_tells operand (below _ (List.mem_singleton_self _))).bind fun _ =>
      unaryType_tells _ _ here
  | ret span value =>
    cases value with
    | none => exact ret_tells .pure here
    | some n => exact ret_tells (node_tells n (below _ (List.mem_singleton_self _))) here
  | define span name declared value =>
    have inner := below value (List.mem_singleton_self _)
    exact (node_tells value inner).bind fun _ => defineType_tells _ _ _ here inner.span
  | assign span name value =>
    have inner := below value (List.mem_singleton_self _)
    exact (node_tells value inner).bind fun _ => assignType_tells _ _ here inner.span
  | program span body => exact (checkAll_tells body below).bind fun _ => .pure

theorem checkAll_tells (ns : List Node) (h : ∀ n ∈ ns, n.Spanned P) : Tells P (checkAll ns) := by
  cases ns with
  | nil => exact .pure
  | cons n ns =>
    obtain ⟨first, rest⟩ := List.forall_mem_cons.mp h
    exact (node_tells n first).bind fun _ => (checkAll_tells ns rest).bind fun _ => .pure

theorem checkBindings_tells (bs : List EnvBinding) (h : ∀ b ∈ bs, (Node.binding b).Spanned P) :
    Tells P (checkBindings bs) := by
  cases bs with
  | nil => exact .pure
  | cons b bs =>
    obtain ⟨span, name, value⟩ := b
    obtain ⟨first, rest⟩ := List.forall_mem_cons.mp h
    refine (noted_tells fun _ => ?_).bind fun _ => checkBindings_tells bs rest
    exact (node_tells value (first.children (List.mem_singleton_self _))).bind fun _ => .pure

theorem checkParts_tells (ps : List Part) (h : ∀ n, .node n ∈ ps → n.Spanned P) :
    Tells P (checkParts ps) := by
  rcases ps with _ | ⟨_ | n, ps⟩
  · exact .pure
  · exact checkParts_tells ps fun n hn => h n (List.mem_cons_of_mem _ hn)
  · exact (node_tells n (h n List.mem_cons_self)).bind fun _ =>
      checkParts_tells ps fun m hm => h m (List.mem_cons_of_mem _ hm)

end

end Check

/-- What holds of the spans in a tree and of those of all names that are known before it holds of
what is reported when the tree is checked. -/
theorem check_told {n : Node} {scopes : Scopes} {notes : Array Note} (h : n.Spanned P)
    (hs : scopes.Told P) : ∀ d ∈ (check n scopes notes).diagnostics, P d.span := by
  have met := Check.node_tells n h ⟨scopes, [], [], notes, 0⟩ ⟨List.forall_mem_nil _, hs⟩
  unfold Check.Meets at met
  rcases run : (Check.node n).run ⟨scopes, [], [], notes, 0⟩ with ⟨r, d⟩
  rw [run] at met
  rw [check, run]
  cases r with
  | error => exact met.reports
  | ok => exact met.reports

end Sigil
