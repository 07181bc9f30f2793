import Sigil.Proofs.Typing.Visible

/-!
# Checking a script entry by entry

Checking a script as one tree reports what checking its entries one after the
other reports, up to a misplaced `return`, each in the scopes that the entries
before it left (`check_program`).

A tree is checked within a script from a state that differs from the one it is
checked from alone: there are reports already, and notes on the trees before
it. A step of the checker `Agrees` with another one if they do the same in such
states, unless a node is given a type twice, which never happens
(`Check.node_sound`). There is a rule for each way of putting steps together,
and a lemma for each form of node.
-/

namespace Sigil

/-- Two states of the checker in which the same is known, but for `reports` that only the second one
has got, and for notes. -/
structure Checker.Alike (reports : List Diagnostic) (c c' : Checker) : Prop where
  scopes : c'.scopes = c.scopes
  returns : c'.returns = c.returns
  diagnostics : c'.diagnostics = reports ++ c.diagnostics

namespace Check

open Checker

variable {α β : Type} {reports : List Diagnostic}

/-- The step stopped at a node that has a type already. -/
def Retyped (r : Except BindFault α × Checker) : Prop :=
  ∃ kind span type, r.1 = .error (.alreadyTyped kind span type)

/-- Two steps do the same in states that are alike, unless one of them gives a type twice. -/
def Agrees (reports : List Diagnostic) (m m' : Check α) : Prop :=
  ∀ c c' : Checker, Alike reports c c' → Retyped (m.run c) ∨ Retyped (m'.run c') ∨
    ((m'.run c').1 = (m.run c).1 ∧ Alike reports (m.run c).2 (m'.run c').2)

/-- The step does the same in states that are alike, unless it gives a type twice. -/
abbrev Consistent (reports : List Diagnostic) (m : Check α) : Prop :=
  Agrees reports m m

/-! ## Rules -/

theorem Agrees.pure (a : α) : Consistent reports (Pure.pure a) :=
  fun _ _ h => .inr (.inr ⟨rfl, h⟩)

theorem Agrees.throw (f : BindFault) :
    Consistent reports (MonadExcept.throw f : Check α) :=
  fun _ _ h => .inr (.inr ⟨rfl, h⟩)

/-- A fault stays one, whatever comes after. -/
theorem Retyped.bind {m : Check α} {c : Checker} (h : Retyped (m.run c)) (f : α → Check β) :
    Retyped ((m >>= f).run c) := by
  obtain ⟨kind, span, type, h⟩ := h
  refine ⟨kind, span, type, ?_⟩
  change (ExceptT.bindCont f (m.run c).1 (m.run c).2).1 = _
  rw [h]
  rfl

theorem Agrees.bind {m m' : Check α} {f f' : α → Check β} (hm : Agrees reports m m')
    (hf : ∀ a, Agrees reports (f a) (f' a)) : Agrees reports (m >>= f) (m' >>= f') := by
  intro c c' h
  rcases hm c c' h with first | second | ⟨result, state⟩
  · exact .inl (first.bind f)
  · exact .inr (.inl (second.bind f'))
  have run (m : Check α) (f : α → Check β) (c : Checker) :
      (m >>= f).run c = ExceptT.bindCont f (m.run c).1 (m.run c).2 := rfl
  rw [run m f c, run m' f' c', result]
  generalize (m.run c).1 = r
  cases r with
  | ok a => exact hf a _ _ state
  | error e => exact .inr (.inr ⟨rfl, state⟩)

theorem Agrees.map {m m' : Check α} (f : α → β) (hm : Agrees reports m m') :
    Agrees reports (f <$> m) (f <$> m') := by
  rw [map_eq_pure_bind, map_eq_pure_bind]
  exact hm.bind fun a => .pure (f a)

/-- What is done with the state that is seen: it is alike. -/
theorem Agrees.get {f f' : Checker → Check β}
    (hf : ∀ c c', Alike reports c c' → Agrees reports (f c) (f' c')) :
    Agrees reports (MonadState.get >>= f) (MonadState.get >>= f') :=
  fun c c' h => hf c c' h c c' h

theorem Agrees.modify {f f' : Checker → Checker}
    (hf : ∀ c c', Alike reports c c' → Alike reports (f c) (f' c')) :
    Agrees reports (modify f : Check PUnit) (modify f') :=
  fun c c' h => .inr (.inr ⟨rfl, hf c c' h⟩)

theorem Agrees.forIn {γ : Type} {f : γ → PUnit → Check (ForInStep PUnit)}
    (hf : ∀ a, Consistent reports (f a ⟨⟩)) :
    ∀ as : List γ, Consistent reports (ForIn.forIn as PUnit.unit f)
  | [] => .pure _
  | a :: as => by
    rw [List.forIn_cons]
    refine (hf a).bind fun step => ?_
    cases step with
    | done => exact .pure _
    | yield => exact forIn hf as

/-! ## Reports and bindings -/

theorem report_agrees (f : Finding) (span : Option Span) :
    Consistent reports (report f span) :=
  .modify fun c c' h => ⟨h.scopes, h.returns, by simp [h.diagnostics]⟩

/-- Reporting something on a condition, before the rest. -/
theorem reportIf_agrees {p : Prop} [Decidable p] {f : Finding} {span : Option Span}
    {rest : PUnit → Check α} (h : Consistent reports (rest ⟨⟩)) :
    Consistent reports (if p then report f span >>= rest else rest ⟨⟩) := by
  split_ifs
  · exact (report_agrees f span).bind fun _ => h
  · exact h

/-- Reporting something about every item that a condition holds of. -/
theorem reportEach_agrees {γ : Type} {p : γ → Prop} [DecidablePred p] {f : γ → Finding}
    {span : γ → Option Span} (as : List γ) :
    Consistent reports
      (ForIn.forIn as PUnit.unit fun a _ => do
        if p a then report (f a) (span a)
        return ForInStep.yield PUnit.unit) := by
  refine Agrees.forIn (fun a => ?_) as
  dsimp only
  split_ifs
  · exact (report_agrees _ _).bind fun _ => .pure _
  · exact .pure _

theorem mismatch_agrees (f : Finding) (span : Option Span) :
    Consistent reports (mismatch f span) :=
  (report_agrees f span).bind fun _ => .pure _

/-- A change of the scopes alone. -/
theorem modifyScopes_agrees (f : Scopes → Scopes) :
    Consistent reports (modify fun c => { c with scopes := f c.scopes } : Check PUnit) :=
  .modify fun _ _ h => ⟨congrArg f h.scopes, h.returns, h.diagnostics⟩

theorem modifyBinding_agrees (i : Nat) (f : Binding → Binding) :
    Consistent reports (modifyBinding i f) :=
  modifyScopes_agrees (·.modify i f)

theorem resolve_agrees (name : String) : Consistent reports (resolve name) := by
  refine .get fun c c' h => ?_
  rw [h.scopes]
  exact .pure _

theorem define_agrees (name : String) (b : Binding) :
    Consistent reports (define name b) := by
  intro c c' h
  have same : c'.scopes.define name b = c.scopes.define name b := by rw [h.scopes]
  exact .inr (.inr ⟨congrArg Except.ok (congrArg Prod.fst same),
    ⟨congrArg Prod.snd same, h.returns, h.diagnostics⟩⟩)

theorem leaveScope_agrees : Agrees reports leaveScope leaveScope := by
  refine .get fun c c' h => ?_
  rw [h.scopes]
  refine (Agrees.forIn (fun a => ?_) _).bind fun _ => modifyScopes_agrees Scopes.leave
  obtain ⟨name, b⟩ := a
  dsimp only
  split_ifs
  · exact (report_agrees _ _).bind fun _ => .pure _
  · exact .pure _

theorem inScope_agrees {m m' : Check α} (hm : Agrees reports m m') :
    Agrees reports (inScope m) (inScope m') :=
  (modifyScopes_agrees Scopes.enter).bind fun _ => hm.bind fun _ => leaveScope_agrees.bind fun _ =>
    .pure _

/-! ## Types -/

theorem callType_agrees (callee : Ty) (args : List Ty) (span : Option Span) :
    Consistent reports (callType callee args span) := by
  unfold callType
  split
  · dsimp only
    split_ifs
    · exact (report_agrees _ _).bind fun _ => .pure _
    · exact (reportEach_agrees _).bind fun _ => .pure _
  · exact .pure _
  · exact .pure _
  · exact mismatch_agrees _ _

theorem binaryType_agrees (op : BinaryOperator) (left right : Ty) (span : Option Span) :
    Consistent reports (binaryType op left right span) := by
  unfold binaryType
  split
  iterate 2 exact .pure _
  iterate 2 exact (reportEach_agrees _).bind fun _ => .pure _
  iterate 4 exact reportIf_agrees (.pure _)
  split_ifs
  iterate 4 exact .pure _
  exact mismatch_agrees _ _

theorem unaryType_agrees (op : UnaryOperator) (operand : Ty) (span : Option Span) :
    Consistent reports (unaryType op operand span) := by
  unfold unaryType
  split
  · exact reportIf_agrees (.pure _)
  · split_ifs
    · exact .pure _
    · exact mismatch_agrees _ _

theorem referenceType_agrees (name : String) (default : Option String) (span : Option Span) :
    Consistent reports (referenceType name default span) := by
  refine (resolve_agrees name).bind fun b => ?_
  split
  · exact (modifyBinding_agrees _ _).bind fun _ => .pure _
  · exact (modifyBinding_agrees _ _).bind fun _ => .pure _
  · exact (report_agrees _ _).bind fun _ => .pure _
  · exact .pure _

theorem defineType_agrees (name : String) (declared : Option Ty) (found : Ty)
    (span valueSpan : Option Span) :
    Consistent reports (defineType name declared found span valueSpan) := by
  have defined : Consistent reports (do
      let _ ← define name ⟨declared.getD found, declared, .define, span, false⟩
      return declared.getD found) :=
    (define_agrees _ _).bind fun _ => .pure _
  unfold defineType
  cases declared with
  | none => exact defined
  | some t => exact reportIf_agrees defined

theorem assignType_agrees (name : String) (found : Ty) (span valueSpan : Option Span) :
    Consistent reports (assignType name found span valueSpan) := by
  refine (resolve_agrees name).bind fun b => ?_
  dsimp only
  split
  · exact (report_agrees _ _).bind fun _ => .pure _
  · split
    · exact reportIf_agrees (.pure _)
    · exact (modifyBinding_agrees _ _).bind fun _ => .pure _

/-- A command in two places. -/
theorem commandType_agrees (place place' : Nat) (target : Option Nat) (hasEnv : Bool)
    (args : List Ty) (span : Option Span) :
    Agrees reports (commandType place target hasEnv args span)
      (commandType place' target hasEnv args span) := by
  refine .get fun c c' h => ?_
  rw [h.scopes]
  dsimp only
  split
  · exact .pure _
  · have called : Agrees reports
        (modify fun c => { c with notes := c.notes.modify place ({ · with isCall := true }) } :
          Check PUnit)
        (modify fun c => { c with notes := c.notes.modify place' ({ · with isCall := true }) }) :=
      .modify fun _ _ h => ⟨h.scopes, h.returns, h.diagnostics⟩
    split_ifs
    · exact (modifyBinding_agrees _ _).bind fun _ => called.bind fun _ => callType_agrees _ _ _
    · exact (modifyBinding_agrees _ _).bind fun _ => .pure _
    · exact .pure _

/-! ## Nodes -/

/-- The notes decide nothing but whether there is a type already. -/
theorem noted_agrees {kind : String} {span : Option Span} {infer : Nat → Check Ty}
    (h : ∀ place place', Agrees reports (infer place) (infer place')) :
    Consistent reports (noted kind span infer) := by
  refine .get fun c c' _ => ?_
  refine .bind (.modify fun _ _ h => ⟨h.scopes, h.returns, h.diagnostics⟩) fun _ => ?_
  refine (h c.next c'.next).bind fun t => .get fun d d' _ => ?_
  cases d.notes[c.next]?.bind (·.type) with
  | some old => exact fun _ _ _ => .inl ⟨kind, span, old, rfl⟩
  | none =>
    cases d'.notes[c'.next]?.bind (·.type) with
    | some old => exact fun _ _ _ => .inr (.inl ⟨kind, span, old, rfl⟩)
    | none =>
      exact .bind (.modify fun _ _ h => ⟨h.scopes, h.returns, h.diagnostics⟩) fun _ => .pure t

/-- The body of a function, within the function. -/
theorem body_agrees {m : Check Ty} (hm : Consistent reports m) :
    Consistent reports
      (do
        modify fun c => { c with returns := [] :: c.returns }
        let bodyType ← m
        let returned := (← get).returns.head?.getD []
        modify fun c => { c with returns := c.returns.drop 1 }
        return (bodyType, returned)) := by
  refine .bind (.modify fun _ _ h => ⟨h.scopes, congrArg ([] :: ·) h.returns, h.diagnostics⟩)
    fun _ => hm.bind fun t => .get fun c c' h => ?_
  rw [h.returns]
  exact .bind (.modify fun _ _ h => ⟨h.scopes, congrArg (List.drop 1) h.returns, h.diagnostics⟩)
    fun _ => .pure _

theorem ret_agrees {span : Option Span} {m : Check Ty} (hm : Consistent reports m) :
    Consistent reports
      (do
        if (← get).returns.isEmpty then
          report .returnOutside span
          throw (.returnOutside span)
        let found ← m
        modify fun c =>
          { c with returns := (c.returns.head?.getD [] ++ [found]) :: c.returns.drop 1 }
        return found : Check Ty) := by
  refine .get fun c c' h => ?_
  rw [h.returns]
  have rest : Consistent reports
      (do
        let found ← m
        modify fun c =>
          { c with returns := (c.returns.head?.getD [] ++ [found]) :: c.returns.drop 1 }
        return found : Check Ty) :=
    hm.bind fun found => .bind (.modify fun _ _ h => ⟨h.scopes, by rw [h.returns], h.diagnostics⟩)
      fun _ => .pure found
  dsimp only
  split_ifs
  · exact (report_agrees _ span).bind fun _ => .bind (.throw _) fun _ => rest
  · exact rest

mutual

theorem node_agrees (n : Node) : Consistent reports (node n) := by
  cases n with
  | literal | parameter | blank => exact noted_agrees fun _ _ => .pure _
  | reference => exact noted_agrees fun _ _ => referenceType_agrees _ _ _
  | interpolation span parts =>
    exact noted_agrees fun _ _ => (checkParts_agrees parts).bind fun _ => .pure _
  | substitution span body =>
    exact noted_agrees fun _ _ => (inScope_agrees (checkAll_agrees body)).bind fun _ => .pure _
  | binding b =>
    obtain ⟨span, name, value⟩ := b
    exact noted_agrees fun _ _ => (node_agrees value).bind fun _ => .pure _
  | command span env name args =>
    refine noted_agrees fun _ _ => (checkBindings_agrees env).bind fun _ => ?_
    refine (resolve_agrees name).bind fun _ => (checkAll_agrees args).bind fun _ => ?_
    exact commandType_agrees _ _ _ _ _ _
  | call span callee args =>
    refine noted_agrees fun _ _ => (node_agrees callee).bind fun _ => ?_
    exact (checkAll_agrees args).bind fun _ => callType_agrees _ _ _
  | conditional span condition thenBranch elseBranch =>
    cases elseBranch with
    | none =>
      refine noted_agrees fun _ _ => (node_agrees condition).bind fun _ => reportIf_agrees ?_
      exact (node_agrees thenBranch).bind fun _ => .bind (.pure _) fun _ => .pure _
    | some elseBranch =>
      refine noted_agrees fun _ _ => (node_agrees condition).bind fun _ => reportIf_agrees ?_
      exact (node_agrees thenBranch).bind fun _ => (node_agrees elseBranch).bind fun _ => .pure _
  | block span body =>
    exact noted_agrees fun _ _ => (inScope_agrees (checkAll_agrees body)).bind fun _ => .pure _
  | function span name params returns bodySpan body =>
    refine noted_agrees fun _ _ => ?_
    dsimp only
    cases name
    case' none => refine Agrees.bind (.pure _) fun self => ?_
    case' some => refine Agrees.bind ((define_agrees _ _).map _) fun self => ?_
    all_goals
      refine Agrees.bind (inScope_agrees ?_) fun _ => ?_
      · refine (Agrees.forIn (fun p => ?_) params).bind fun _ => ?_
        · exact (noted_agrees fun _ _ => .pure _).bind fun _ => (define_agrees _ _).bind fun _ =>
            .pure _
        · exact body_agrees (noted_agrees fun _ _ =>
            (inScope_agrees (checkAll_agrees body)).bind fun _ => .pure _)
      · cases returns with
        | some t => exact (reportEach_agrees _).bind fun _ => .pure _
        | none =>
          cases self with
          | none => exact .pure _
          | some i => exact (modifyBinding_agrees _ _).bind fun _ => .pure _
  | binary span op left right =>
    refine noted_agrees fun _ _ => (node_agrees left).bind fun _ => ?_
    exact (node_agrees right).bind fun _ => binaryType_agrees _ _ _ _
  | unary span op operand =>
    exact noted_agrees fun _ _ => (node_agrees operand).bind fun _ => unaryType_agrees _ _ _
  | ret span value =>
    cases value with
    | none => exact noted_agrees fun _ _ => ret_agrees (.pure _)
    | some n => exact noted_agrees fun _ _ => ret_agrees (node_agrees n)
  | define span name declared value =>
    exact noted_agrees fun _ _ => (node_agrees value).bind fun _ => defineType_agrees _ _ _ _ _
  | assign span name value =>
    exact noted_agrees fun _ _ => (node_agrees value).bind fun _ => assignType_agrees _ _ _ _
  | program span body =>
    exact noted_agrees fun _ _ => (checkAll_agrees body).bind fun _ => .pure _

theorem checkAll_agrees : ∀ ns : List Node, Consistent reports (checkAll ns)
  | [] => .pure _
  | n :: ns => (node_agrees n).bind fun _ => (checkAll_agrees ns).bind fun _ => .pure _

theorem checkBindings_agrees :
    ∀ bs : List EnvBinding, Consistent reports (checkBindings bs)
  | [] => .pure _
  | .mk _ _ value :: bs =>
    (noted_agrees fun _ _ => (node_agrees value).bind fun _ => .pure _).bind fun _ =>
      checkBindings_agrees bs

theorem checkParts_agrees : ∀ ps : List Part, Consistent reports (checkParts ps)
  | [] => .pure _
  | .text _ :: ps => checkParts_agrees ps
  | .node n :: ps => (node_agrees n).bind fun _ => checkParts_agrees ps

end

/-! ## Entries -/

/-- A state between the entries of a script: only the root scope is open, no function is around, and
no type is noted from the next place on. -/
structure Between (c : Checker) : Prop where
  inner : c.scopes.inner = []
  returns : c.returns = []
  blank : c.Blank

/-- A tree that is checked within a script, between its entries: it ends as it does alone and
reports the same, and it leaves the same scopes if nothing stops it. -/
theorem node_between (n : Node) {c : Checker} (h : Between c) :
    let alone := check n c.scopes n.blankNotes
    let r := (node n).run c
    r.1 = alone.outcome ∧ r.2.diagnostics = c.diagnostics ++ alone.diagnostics ∧
      ∀ t, r.1 = .ok t → r.2.scopes = alone.scopes ∧ Between r.2 := by
  let start : Checker := ⟨c.scopes, [], [], n.blankNotes, 0⟩
  have alike : Alike c.diagnostics start c := ⟨rfl, h.returns, (List.append_nil _).symm⟩
  have blank : start.Blank := fun i _ => n.typeAt_blankNotes i
  have never {d : Checker} (hd : d.Blank) : ¬ Retyped ((node n).run d) := by
    rintro ⟨kind, span, type, e⟩
    have sound := node_sound n d hd
    unfold WP at sound
    rcases hr : (node n).run d with ⟨f | t, u⟩ <;> rw [hr] at e sound
    · cases e
      obtain ⟨_, misplaced⟩ := sound
      cases misplaced
    · cases e
  obtain ⟨result, state⟩ : ((node n).run c).1 = ((node n).run start).1 ∧
      Alike c.diagnostics ((node n).run start).2 ((node n).run c).2 :=
    ((node_agrees n start c alike).resolve_left (never blank)).resolve_left (never h.blank)
  refine ⟨result, state.diagnostics, fun t ht => ?_⟩
  have sound := node_sound n c h.blank
  have grows := node_resolves n c
  unfold WP at sound grows
  rcases hr : (node n).run c with ⟨f | u, d⟩ <;> rw [hr] at ht sound grows state
  · cases ht
  have inner : d.scopes.inner = [] := by
    have tail := congrArg List.length grows.1.around
    rw [Scopes.all, Scopes.all, h.inner] at tail
    exact List.length_eq_zero_iff.mp (by simpa using tail)
  refine ⟨?_, inner, sound.1.returns_eq_nil h.returns, sound.1.blank⟩
  show d.scopes = ((node n).run start).2.scopes.leaveAll
  rw [← state.scopes, Scopes.leaveAll, ← inner]

end Check

/-- What checking entries one after the other reports, each in the scopes that those before it left,
up to the first that stops the checker. -/
def reportsOf (scopes : Scopes) : List Node → List Diagnostic
  | [] => []
  | n :: ns =>
    let c := check n scopes n.blankNotes
    c.diagnostics ++
      match c.outcome with
      | .ok _ => reportsOf c.scopes ns
      | .error _ => []

namespace Check

variable {α β : Type}

/-- What is made of a result leaves the state as it is. -/
theorem state_map (m : Check α) (f : α → β) (c : Checker) :
    ((do return f (← m) : Check β).run c).2 = (m.run c).2 := by
  change (ExceptT.bindCont (m := StateM Checker) (fun a => Pure.pure (f a)) (m.run c).1
    (m.run c).2).2 = _
  cases (m.run c).1 <;> rfl

/-- Noting a type reports nothing. -/
theorem diagnostics_noted {kind : String} {span : Option Span} {infer : Nat → Check Ty}
    (c : Checker) : ((noted kind span infer).run c).2.diagnostics =
      ((infer c.next).run { c with next := c.next + 1 }).2.diagnostics := by
  let r := (infer c.next).run { c with next := c.next + 1 }
  have look (f : Checker → Check Ty) : (get >>= f).run r.2 = (f r.2).run r.2 := rfl
  change (ExceptT.bindCont (m := StateM Checker) _ r.1 r.2).2.diagnostics = r.2.diagnostics
  cases r.1 with
  | error f => rfl
  | ok t =>
    change ((get >>= _ : Check Ty).run r.2).2.diagnostics = r.2.diagnostics
    rw [look]
    cases r.2.notes[c.next]?.bind (·.type) <;> rfl

theorem diagnostics_checkAll (ns : List Node) {c : Checker} (h : Between c) :
    ((checkAll ns).run c).2.diagnostics = c.diagnostics ++ reportsOf c.scopes ns := by
  induction ns generalizing c with
  | nil => exact (List.append_nil _).symm
  | cons n ns ih =>
    obtain ⟨outcome, diagnostics, later⟩ := node_between n h
    have run : (checkAll (n :: ns)).run c = ExceptT.bindCont (m := StateM Checker)
      (fun t => do return t :: (← checkAll ns)) ((node n).run c).1 ((node n).run c).2 := rfl
    rw [run, reportsOf, ← List.append_assoc, ← diagnostics, ← outcome]
    rcases hr : (node n).run c with ⟨f | t, d⟩ <;> rw [hr] at later
    · exact (List.append_nil _).symm
    · obtain ⟨scopes, between⟩ := later t rfl
      have rest := ih between
      rw [show d.scopes = _ from scopes] at rest
      exact (congrArg Checker.diagnostics (state_map (checkAll ns) (t :: ·) d)).trans rest

end Check

/-- Checking a script as one tree reports what checking its entries one after the other reports. -/
theorem check_program (span : Option Span) (ns : List Node) :
    (check (.program span ns) Scopes.empty (Node.program span ns).blankNotes).diagnostics =
      reportsOf Scopes.empty ns := by
  let start : Checker := ⟨Scopes.empty, [], [], (Node.program span ns).blankNotes, 1⟩
  have between : Check.Between start :=
    ⟨rfl, rfl, fun i _ => (Node.program span ns).typeAt_blankNotes i⟩
  have noted : Check.node (.program span ns) = Check.noted "Program" span fun _ => do
      return Check.lastType (← Check.checkAll ns) := by
    rw [Check.node]
    rfl
  show ((Check.node (.program span ns)).run { start with next := 0 }).2.diagnostics = _
  rw [noted, Check.diagnostics_noted, Check.state_map]
  exact Check.diagnostics_checkAll ns between

end Sigil
