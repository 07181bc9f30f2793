import Mathlib.Tactic.SplitIfs
import Sigil.Proofs.Node.Relabelled
import Sigil.Typing

/-!
# Checking of relabelled trees

A tree whose spans are changed is checked as the tree itself is, in scopes
whose bindings have their spans changed in the same way: it gets the same
types, and the same is reported (`check_relabel`). Checking never looks at a
span; it puts spans into what it reports and into bindings.

There is a rule for each way of putting steps of the checker together, and a
lemma for each form of node.
-/

namespace Sigil

/-- A binding with another span. -/
def Binding.relabel (r : Relabel) (b : Binding) : Binding :=
  { b with span := r.span b.span }

/-- A diagnostic with another span. -/
def Diagnostic.relabel (r : Relabel) (d : Diagnostic) : Diagnostic :=
  { d with span := r.span d.span }

/-- A fault of the checker with another span. -/
def BindFault.relabel (r : Relabel) : BindFault → BindFault
  | returnOutside span => returnOutside (r.span span)
  | alreadyTyped kind span type => alreadyTyped kind (r.span span) type

namespace Scopes

variable (r : Relabel) (s : Scopes)

/-- Scopes whose bindings have other spans. -/
def relabel : Scopes :=
  { s with table := s.table.map (·.relabel r) }

theorem resolve_relabel (name : String) : (s.relabel r).resolve name = s.resolve name := rfl

theorem binding?_relabel (i : Nat) :
    (s.relabel r).binding? i = (s.binding? i).map (·.relabel r) :=
  Array.getElem?_map

theorem modify_relabel (i : Nat) {f f' : Binding → Binding}
    (hf : ∀ b, f' (b.relabel r) = (f b).relabel r) :
    (s.relabel r).modify i f' = (s.modify i f).relabel r := by
  simp only [modify, relabel, Scopes.mk.injEq, and_true]
  refine Array.ext_getElem? fun j => ?_
  rw [Array.getElem?_modify, Array.getElem?_map, Array.getElem?_map, Array.getElem?_modify]
  split_ifs
  · cases s.table[j]? with
    | none => rfl
    | some b => exact congrArg some (hf b)
  · rfl

theorem define_relabel (name : String) (b : Binding) :
    (s.relabel r).define name (b.relabel r) =
      ((s.define name b).1, (s.define name b).2.relabel r) := by
  unfold define relabel
  cases h : s.inner <;> simp [Array.map_push]

theorem bindings_relabel :
    (s.relabel r).bindings = s.bindings.map fun p => (p.1, p.2.relabel r) := by
  unfold bindings
  rw [List.map_filterMap]
  congr 1
  funext p
  obtain ⟨name, i⟩ := p
  dsimp only
  rw [binding?_relabel, Option.map_map, Option.map_map]
  rfl

end Scopes

/-- A state of the checker with other spans. -/
def Checker.relabel (r : Relabel) (c : Checker) : Checker :=
  { c with scopes := c.scopes.relabel r, diagnostics := c.diagnostics.map (·.relabel r) }

namespace Check

variable {α β γ δ : Type} {r : Relabel} {g : α → β} {h : γ → δ}

/-- How a step of the checker ended, with other spans. -/
def endRelabel (r : Relabel) (g : α → β) (e : Except BindFault α × Checker) :
    Except BindFault β × Checker :=
  ((e.1.map g).mapError (·.relabel r), e.2.relabel r)

/-- A step of the checker is carried over to other spans: from a state with other spans it ends with
the other spans as well. -/
def Carries (r : Relabel) (g : α → β) (m : Check α) (m' : Check β) : Prop :=
  ∀ c : Checker, m'.run (c.relabel r) = endRelabel r g (m.run c)

/-! ## Rules -/

theorem Carries.pure {a : α} : Carries r g (Pure.pure a) (Pure.pure (g a)) :=
  fun _ => rfl

theorem Carries.throw {f : BindFault} :
    Carries r g (MonadExcept.throw f) (MonadExcept.throw (f.relabel r)) :=
  fun _ => rfl

theorem Carries.bind {m : Check α} {m' : Check β} {f : α → Check γ} {f' : β → Check δ}
    (hm : Carries r g m m') (hf : ∀ a, Carries r h (f a) (f' (g a))) :
    Carries r h (m >>= f) (m' >>= f') := by
  intro c
  have run {α γ : Type} (m : Check α) (f : α → Check γ) (c : Checker) :
      (m >>= f).run c = ExceptT.bindCont f (m.run c).1 (m.run c).2 := rfl
  have first := hm c
  rw [run m f c, run m' f', first]
  rcases e : m.run c with ⟨x | a, d⟩
  · rfl
  · exact hf a d

theorem Carries.ite {p : Prop} [Decidable p] {m n : Check α} {m' n' : Check β}
    (yes : p → Carries r g m m') (no : ¬ p → Carries r g n n') :
    Carries r g (if p then m else n) (if p then m' else n') := by
  split_ifs with h
  · exact yes h
  · exact no h

theorem Carries.get : Carries r (Checker.relabel r) MonadState.get MonadState.get :=
  fun _ => rfl

theorem Carries.modify {f f' : Checker → Checker}
    (hf : ∀ c, f' (c.relabel r) = (f c).relabel r) :
    Carries r id (modify f : Check PUnit) (modify f') := by
  intro c
  show (Except.ok PUnit.unit, f' (c.relabel r)) = _
  rw [hf]
  rfl

theorem Carries.forIn {k : γ → δ} {f : γ → PUnit → Check (ForInStep PUnit)}
    {f' : δ → PUnit → Check (ForInStep PUnit)} {as : List γ}
    (hf : ∀ a ∈ as, Carries r id (f a ⟨⟩) (f' (k a) ⟨⟩)) :
    Carries r id (ForIn.forIn as PUnit.unit f) (ForIn.forIn (as.map k) PUnit.unit f') := by
  induction as with
  | nil => exact .pure
  | cons a as ih =>
    rw [List.map_cons, List.forIn_cons, List.forIn_cons]
    refine (hf a List.mem_cons_self).bind fun step => ?_
    cases step with
    | done => exact .pure
    | yield => exact ih fun a ha => hf a (List.mem_cons_of_mem _ ha)

/-- A loop over the same items. -/
theorem Carries.each {f f' : γ → PUnit → Check (ForInStep PUnit)} {as : List γ}
    (hf : ∀ a ∈ as, Carries r id (f a ⟨⟩) (f' a ⟨⟩)) :
    Carries r id (ForIn.forIn as PUnit.unit f) (ForIn.forIn as PUnit.unit f') := by
  have carried := Carries.forIn (k := id) hf
  rwa [List.map_id] at carried

/-! ## Reports and bindings -/

theorem report_carries (f : Finding) (span : Option Span) :
    Carries r id (report f span) (report f (r.span span)) := by
  refine .modify fun c => ?_
  simp [Checker.relabel, Finding.diagnostic, Diagnostic.relabel]

theorem mismatch_carries (f : Finding) (span : Option Span) :
    Carries r id (mismatch f span) (mismatch f (r.span span)) :=
  (report_carries f span).bind fun _ => .pure

theorem resolve_carries (name : String) :
    Carries r (Option.map fun p => (p.1, p.2.relabel r)) (resolve name) (resolve name) := by
  refine Carries.get.bind fun c => ?_
  show Carries r _ _ (Pure.pure (((c.scopes.relabel r).resolve name).bind fun i =>
    ((c.scopes.relabel r).binding? i).map (i, ·)))
  rw [Scopes.resolve_relabel]
  simp only [Scopes.binding?_relabel]
  have same : ((c.scopes.resolve name).bind fun i =>
      ((c.scopes.binding? i).map (·.relabel r)).map (i, ·)) =
      ((c.scopes.resolve name).bind fun i => (c.scopes.binding? i).map (i, ·)).map
        fun p => (p.1, p.2.relabel r) := by
    cases c.scopes.resolve name with
    | none => rfl
    | some i =>
      simp only [Option.bind_some, Option.map_map]
      rfl
  rw [same]
  exact .pure

theorem modifyBinding_carries (i : Nat) {f f' : Binding → Binding}
    (hf : ∀ b, f' (b.relabel r) = (f b).relabel r) :
    Carries r id (modifyBinding i f) (modifyBinding i f') := by
  refine .modify fun c => ?_
  simp only [Checker.relabel, Scopes.modify_relabel r c.scopes i hf]

theorem use_carries (i : Nat) : Carries r id (use i) (use i) :=
  modifyBinding_carries i fun _ => rfl

theorem define_carries (name : String) (b : Binding) :
    Carries r id (define name b) (define name (b.relabel r)) := by
  intro c
  show (Except.ok ((c.scopes.relabel r).define name (b.relabel r)).1,
    { c.relabel r with scopes := ((c.scopes.relabel r).define name (b.relabel r)).2 }) = _
  rw [Scopes.define_relabel]
  rfl

theorem leaveScope_carries : Carries r id leaveScope leaveScope := by
  refine Carries.get.bind fun c => ?_
  show Carries r _ _ (ForIn.forIn (c.scopes.relabel r).bindings _ _ >>= _)
  rw [Scopes.bindings_relabel]
  refine (Carries.forIn fun p _ => ?_).bind fun _ => .modify fun _ => rfl
  obtain ⟨name, b⟩ := p
  exact .ite (fun _ => (report_carries _ _).bind fun _ => .pure) fun _ => .pure

theorem inScope_carries {m : Check α} {m' : Check β} (hm : Carries r g m m') :
    Carries r g (inScope m) (inScope m') :=
  Carries.bind (g := id) (.modify fun _ => rfl) fun _ => hm.bind fun _ =>
    leaveScope_carries.bind fun _ => .pure

theorem noted_carries {kind : String} {span : Option Span} {infer infer' : Nat → Check Ty}
    (hi : ∀ place, Carries r id (infer place) (infer' place)) :
    Carries r id (noted kind span infer) (noted kind (r.span span) infer') := by
  refine Carries.get.bind fun c => Carries.bind (g := id) (.modify fun _ => rfl) fun _ => ?_
  refine (hi c.next).bind fun t => Carries.get.bind fun d => ?_
  have same : (d.relabel r).notes[(c.relabel r).next]?.bind (·.type) =
      d.notes[c.next]?.bind (·.type) := rfl
  rw [same]
  cases d.notes[c.next]?.bind (·.type) with
  | some old => exact .throw
  | none => exact Carries.bind (g := id) (.modify fun _ => rfl) fun _ => .pure

/-! ## Rules of types -/

theorem callType_carries (callee : Ty) (args : List Ty) (span : Option Span) :
    Carries r id (callType callee args span) (callType callee args (r.span span)) := by
  cases callee with
  | fn params returns =>
    refine .ite (fun _ => (report_carries _ _).bind fun _ => .pure) fun _ => ?_
    refine (Carries.each fun p _ => ?_).bind fun _ => .pure
    obtain ⟨⟨param, arg⟩, i⟩ := p
    exact .ite (fun _ => (report_carries _ _).bind fun _ => .pure) fun _ => .pure
  | dynamic | unknown => exact .pure
  | primitive p => exact mismatch_carries _ _

theorem binaryType_carries (op : BinaryOperator) (left right : Ty) (span : Option Span) :
    Carries r id (binaryType op left right span) (binaryType op left right (r.span span)) := by
  have logical (op : BinaryOperator) : Carries r id (do
      for side in [left, right] do
        if !Ty.bool.accepts side then report (.logicalOperand op side) span
      return Ty.bool : Check Ty) (do
      for side in [left, right] do
        if !Ty.bool.accepts side then report (.logicalOperand op side) (r.span span)
      return Ty.bool : Check Ty) := by
    refine (Carries.each fun side _ => ?_).bind fun _ => .pure
    exact .ite (fun _ => (report_carries _ _).bind fun _ => .pure) fun _ => .pure
  have arithmetic (op : BinaryOperator) : Carries r id (do
      if left.isDynamic || right.isDynamic then return .dynamic
      else if left.isNumeric && right.isNumeric then
        return if left = .int ∧ right = .int then .int else .float
      else if op = .add ∧ left = .string ∧ right = .string then return .string
      else mismatch (.arithmetic op left right) span : Check Ty) (do
      if left.isDynamic || right.isDynamic then return .dynamic
      else if left.isNumeric && right.isNumeric then
        return if left = .int ∧ right = .int then .int else .float
      else if op = .add ∧ left = .string ∧ right = .string then return .string
      else mismatch (.arithmetic op left right) (r.span span) : Check Ty) := by
    refine .ite (fun _ => .pure) fun _ => .ite (fun _ => .pure) fun _ => ?_
    exact .ite (fun _ => .pure) fun _ => mismatch_carries _ _
  cases op with
  | equal | unequal => exact .pure
  | and => exact logical .and
  | or => exact logical .or
  | less | lessEqual | greater | greaterEqual =>
    exact .ite (fun _ => (report_carries _ _).bind fun _ => .pure) fun _ => .pure
  | _ => exact arithmetic _

theorem unaryType_carries (op : UnaryOperator) (operand : Ty) (span : Option Span) :
    Carries r id (unaryType op operand span) (unaryType op operand (r.span span)) := by
  cases op with
  | not => exact .ite (fun _ => (report_carries _ _).bind fun _ => .pure) fun _ => .pure
  | neg | other s =>
    exact .ite (fun _ => .pure) fun _ => mismatch_carries _ _

theorem referenceType_carries (name : String) (default : Option String) (span : Option Span) :
    Carries r id (referenceType name default span) (referenceType name default (r.span span)) := by
  refine (resolve_carries name).bind fun found => ?_
  cases found with
  | none =>
    cases default with
    | none => exact (report_carries _ _).bind fun _ => .pure
    | some d => exact .pure
  | some p =>
    obtain ⟨i, b⟩ := p
    cases default with
    | none => exact (use_carries i).bind fun _ => .pure
    | some d => exact (use_carries i).bind fun _ => .pure

theorem defineType_carries (name : String) (declared : Option Ty) (found : Ty)
    (span valueSpan : Option Span) :
    Carries r id (defineType name declared found span valueSpan)
      (defineType name declared found (r.span span) (r.span valueSpan)) := by
  have defined : Carries r id (do
      let _ ← define name ⟨declared.getD found, declared, .define, span, false⟩
      return declared.getD found : Check Ty) (do
      let _ ← define name ⟨declared.getD found, declared, .define, r.span span, false⟩
      return declared.getD found : Check Ty) :=
    (define_carries name ⟨declared.getD found, declared, .define, span, false⟩).bind fun _ => .pure
  cases declared with
  | none => exact defined
  | some t => exact .ite (fun _ => (report_carries _ _).bind fun _ => defined) fun _ => defined

theorem assignType_carries (name : String) (found : Ty) (span valueSpan : Option Span) :
    Carries r id (assignType name found span valueSpan)
      (assignType name found (r.span span) (r.span valueSpan)) := by
  refine (resolve_carries name).bind fun bound => ?_
  cases bound with
  | none => exact (report_carries _ _).bind fun _ => .pure
  | some p =>
    obtain ⟨i, b⟩ := p
    obtain ⟨type, declared, kind, place, used⟩ := b
    cases declared with
    | none =>
      refine Carries.bind (g := id) (modifyBinding_carries i fun _ => ?_) fun _ => .pure
      rfl
    | some t => exact .ite (fun _ => (report_carries _ _).bind fun _ => .pure) fun _ => .pure

theorem commandType_carries (place : Nat) (target : Option Nat) (hasEnv : Bool) (args : List Ty)
    (span : Option Span) :
    Carries r id (commandType place target hasEnv args span)
      (commandType place target hasEnv args (r.span span)) := by
  refine Carries.get.bind fun c => ?_
  have bound : (if hasEnv then none else target.bind fun i =>
      ((c.relabel r).scopes.binding? i).map (i, ·)) = (if hasEnv then none else
        target.bind fun i => (c.scopes.binding? i).map (i, ·)).map
          fun p : Nat × Binding => (p.1, p.2.relabel r) := by
    cases hasEnv with
    | true => rfl
    | false =>
      cases target with
      | none => rfl
      | some i =>
        simp only [Option.bind_some, Checker.relabel, Scopes.binding?_relabel, Option.map_map,
          Bool.false_eq_true, if_false]
        rfl
  dsimp only
  rw [bound]
  cases (if hasEnv then none else target.bind fun i => (c.scopes.binding? i).map (i, ·)) with
  | none => exact .pure
  | some p =>
    obtain ⟨i, b⟩ := p
    refine .ite (fun _ => ?_) fun _ => ?_
    · exact (use_carries i).bind fun _ => Carries.bind (g := id) (.modify fun _ => rfl) fun _ =>
        callType_carries _ _ _
    · exact .ite (fun _ => (use_carries i).bind fun _ => .pure) fun _ => .pure

/-! ## Nodes -/

/-- A `return` of a function, or outside of every function. -/
theorem ret_carries (span : Option Span) {m m' : Check Ty} (hm : Carries r id m m') :
    Carries r id (do
      if (← get).returns.isEmpty then
        report .returnOutside span
        throw (.returnOutside span)
      let found ← m
      modify fun c =>
        { c with returns := (c.returns.head?.getD [] ++ [found]) :: c.returns.drop 1 }
      return found) (do
      if (← get).returns.isEmpty then
        report .returnOutside (r.span span)
        throw (.returnOutside (r.span span))
      let found ← m'
      modify fun c =>
        { c with returns := (c.returns.head?.getD [] ++ [found]) :: c.returns.drop 1 }
      return found) := by
  have rest : Carries r id (do
      let found ← m
      modify fun c =>
        { c with returns := (c.returns.head?.getD [] ++ [found]) :: c.returns.drop 1 }
      return found) (do
      let found ← m'
      modify fun c =>
        { c with returns := (c.returns.head?.getD [] ++ [found]) :: c.returns.drop 1 }
      return found) :=
    hm.bind fun _ => Carries.bind (g := id) (.modify fun _ => rfl) fun _ => .pure
  refine Carries.get.bind fun c => .ite (fun _ => ?_) fun _ => rest
  exact (report_carries _ _).bind fun _ => Carries.bind (g := id) .throw fun _ => rest

/-- The parameters and the body of a function, in a scope of their own. -/
theorem body_carries (params : List Param) (bodySpan : Option Span) {m m' : Check (List Ty)}
    (ht : r.typed) (hm : Carries r id m m') :
    Carries r id (do
      for p in params do
        let t ← noted "Param" p.span fun _ => return p.declared.getD .dynamic
        let _ ← define p.name ⟨t, p.declared, .param, p.span, false⟩
      modify fun c => { c with returns := [] :: c.returns }
      let bodyType ← noted "Block" bodySpan fun _ => do
        return lastType (← inScope m)
      let returned := (← get).returns.head?.getD []
      modify fun c => { c with returns := c.returns.drop 1 }
      return (bodyType, returned)) (do
      for p in params.map (·.relabel r) do
        let t ← noted "Param" p.span fun _ => return p.declared.getD .dynamic
        let _ ← define p.name ⟨t, p.declared, .param, p.span, false⟩
      modify fun c => { c with returns := [] :: c.returns }
      let bodyType ← noted "Block" (r.span bodySpan) fun _ => do
        return lastType (← inScope m')
      let returned := (← get).returns.head?.getD []
      modify fun c => { c with returns := c.returns.drop 1 }
      return (bodyType, returned)) := by
  refine (Carries.forIn fun p _ => ?_).bind fun _ => ?_
  · obtain ⟨span, name, declared⟩ := p
    have kept : r.type declared = declared := if_pos ht
    dsimp only [Param.relabel]
    rw [kept]
    refine (noted_carries fun _ => .pure).bind fun t => ?_
    exact (define_carries name ⟨t, declared, .param, span, false⟩).bind fun _ => .pure
  · refine Carries.bind (g := id) (.modify fun _ => rfl) fun _ => ?_
    refine (noted_carries fun _ => (inScope_carries hm).bind fun _ => .pure).bind fun _ => ?_
    exact Carries.get.bind fun c => Carries.bind (g := id) (.modify fun _ => rfl) fun _ => .pure

theorem endsWithReturn_relabelAll (body : List Node) :
    endsWithReturn (Node.relabelAll r body) = endsWithReturn body := by
  rw [endsWithReturn, endsWithReturn, Node.relabelAll_eq_map, List.getLast?_map]
  cases body.getLast? with
  | none => rfl
  | some n =>
    cases n with
    | ret span value => cases value <;> rfl
    | conditional span condition thenBranch elseBranch => cases elseBranch <;> rfl
    | binding b =>
      obtain ⟨span, name, value⟩ := b
      rfl
    | _ => rfl

mutual

theorem node_carries (ht : r.typed) (n : Node) : Carries r id (node n) (node (n.relabel r)) := by
  cases n with
  | literal span value => exact noted_carries fun _ => .pure
  | reference span name default => exact noted_carries fun _ => referenceType_carries _ _ _
  | interpolation span parts =>
    exact noted_carries fun _ => (checkParts_carries ht parts).bind fun _ => .pure
  | substitution span body =>
    exact noted_carries fun _ => (inScope_carries (checkAll_carries ht body)).bind fun _ => .pure
  | binding b =>
    obtain ⟨place, name, value⟩ := b
    exact noted_carries fun _ => (node_carries ht value).bind fun _ => .pure
  | command span env name args =>
    refine noted_carries fun place => (checkBindings_carries ht env).bind fun _ => ?_
    refine (resolve_carries name).bind fun target => (checkAll_carries ht args).bind fun types => ?_
    have first : (target.map fun p : Nat × Binding => (p.1, p.2.relabel r)).map (·.1) =
        target.map (·.1) := by
      cases target <;> rfl
    have empty : (Node.relabelBindings r env).isEmpty = env.isEmpty := by
      rw [Node.relabelBindings_eq_map, List.isEmpty_map]
    rw [first, empty]
    exact commandType_carries _ _ _ _ _
  | call span callee args =>
    refine noted_carries fun _ => (node_carries ht callee).bind fun _ => ?_
    exact (checkAll_carries ht args).bind fun _ => callType_carries _ _ _
  | conditional span condition thenBranch elseBranch =>
    have reported (found : Ty) {m m' : Check Ty} (hm : Carries r id m m') :
        Carries r id (if !Ty.bool.accepts found then
            report (.condition found) condition.span >>= fun _ => m else m)
          (if !Ty.bool.accepts found then
            report (.condition found) (condition.relabel r).span >>= fun _ => m' else m') := by
      rw [Node.span_relabel]
      exact .ite (fun _ => (report_carries _ _).bind fun _ => hm) fun _ => hm
    cases elseBranch with
    | none =>
      refine noted_carries fun _ => (node_carries ht condition).bind fun found => reported found ?_
      exact (node_carries ht thenBranch).bind fun _ => Carries.bind (g := id) .pure fun _ => .pure
    | some elseBranch =>
      refine noted_carries fun _ => (node_carries ht condition).bind fun found => reported found ?_
      exact (node_carries ht thenBranch).bind fun _ =>
        (node_carries ht elseBranch).bind fun _ => .pure
  | block span body =>
    exact noted_carries fun _ => (inScope_carries (checkAll_carries ht body)).bind fun _ => .pure
  | parameter p =>
    obtain ⟨span, name, declared⟩ := p
    have kept : r.type declared = declared := if_pos ht
    have same : (Node.parameter ⟨span, name, declared⟩).relabel r =
        .parameter ⟨r.span span, name, declared⟩ := by
      rw [Node.relabel, Param.relabel, kept]
    rw [same]
    exact noted_carries fun _ => .pure
  | function span name params returns bodySpan body =>
    have kept : r.type returns = returns := if_pos ht
    have declared : (params.map (·.relabel r)).map (·.declared) = params.map (·.declared) := by
      rw [List.map_map]
      exact List.map_congr_left fun p _ => if_pos ht
    have dynamic : (params.map (·.relabel r)).map (fun p => p.declared.getD Ty.dynamic) =
        params.map fun p => p.declared.getD Ty.dynamic := by
      rw [List.map_map]
      exact List.map_congr_left fun p _ =>
        congrArg (fun t : Option Ty => t.getD Ty.dynamic) (if_pos ht)
    have inside := body_carries params bodySpan ht (checkAll_carries ht body)
    refine noted_carries fun _ => ?_
    dsimp only
    rw [kept, declared, dynamic, endsWithReturn_relabelAll]
    cases name
    case' none => refine Carries.bind (g := id) .pure fun self => ?_
    case' some name =>
      refine Carries.bind (g := id) ((define_carries name ⟨_, none, .function, span, false⟩).bind
        fun _ => .pure) fun self => ?_
    all_goals
      refine (inScope_carries inside).bind fun found => ?_
      cases returns with
      | some t =>
        refine (Carries.each fun result _ => ?_).bind fun _ => .pure
        exact .ite (fun _ => (report_carries _ _).bind fun _ => .pure) fun _ => .pure
      | none =>
        cases self with
        | none => exact .pure
        | some i =>
          exact Carries.bind (g := id) (modifyBinding_carries i fun _ => rfl) fun _ => .pure
  | binary span op left right =>
    refine noted_carries fun _ => (node_carries ht left).bind fun _ => ?_
    exact (node_carries ht right).bind fun _ => binaryType_carries _ _ _ _
  | unary span op operand =>
    exact noted_carries fun _ => (node_carries ht operand).bind fun _ => unaryType_carries _ _ _
  | ret span value =>
    cases value with
    | none => exact noted_carries fun _ => ret_carries span (m := Pure.pure Ty.unit) .pure
    | some n => exact noted_carries fun _ => ret_carries span (node_carries ht n)
  | define span name declared value =>
    have kept : r.type declared = declared := if_pos ht
    refine noted_carries fun _ => (node_carries ht value).bind fun _ => ?_
    rw [kept, Node.span_relabel]
    exact defineType_carries _ _ _ _ _
  | assign span name value =>
    refine noted_carries fun _ => (node_carries ht value).bind fun _ => ?_
    rw [Node.span_relabel]
    exact assignType_carries _ _ _ _
  | program span body =>
    exact noted_carries fun _ => (checkAll_carries ht body).bind fun _ => .pure
  | blank span => exact noted_carries fun _ => .pure

theorem checkAll_carries (ht : r.typed) : ∀ ns : List Node,
    Carries r id (checkAll ns) (checkAll (Node.relabelAll r ns))
  | [] => .pure
  | n :: ns => (node_carries ht n).bind fun _ => (checkAll_carries ht ns).bind fun _ => .pure

theorem checkBindings_carries (ht : r.typed) : ∀ bs : List EnvBinding,
    Carries r id (checkBindings bs) (checkBindings (Node.relabelBindings r bs))
  | [] => .pure
  | .mk span name value :: bs => by
    refine Carries.bind (g := id) (noted_carries fun _ => ?_) fun _ => checkBindings_carries ht bs
    exact (node_carries ht value).bind fun _ => .pure

theorem checkParts_carries (ht : r.typed) : ∀ ps : List Part,
    Carries r id (checkParts ps) (checkParts (Node.relabelParts r ps))
  | [] => .pure
  | .text _ :: ps => checkParts_carries ht ps
  | .node n :: ps => (node_carries ht n).bind fun _ => checkParts_carries ht ps

end

end Check

/-! ## Checking -/

namespace Node

mutual

theorem length_walk_relabel (r : Relabel) (n : Node) :
    (n.relabel r).walk.length = n.walk.length := by
  cases n with
  | literal | reference | parameter | blank => rfl
  | substitution span body | block span body | program span body =>
    simp only [relabel, walk, List.length_cons, length_walkAll_relabel r body]
  | interpolation span parts =>
    simp only [relabel, walk, List.length_cons, length_walkParts_relabel r parts]
  | binding b =>
    obtain ⟨span, name, value⟩ := b
    simp only [relabel, walk, List.length_cons, length_walk_relabel r value]
  | command span env name args =>
    simp only [relabel, walk, List.length_cons, List.length_append,
      length_walkBindings_relabel r env, length_walkAll_relabel r args]
  | call span callee args =>
    simp only [relabel, walk, List.length_cons, List.length_append, length_walk_relabel r callee,
      length_walkAll_relabel r args]
  | conditional span condition thenBranch elseBranch =>
    cases elseBranch with
    | none =>
      simp only [relabel, walk, List.length_cons, List.length_append,
        length_walk_relabel r condition, length_walk_relabel r thenBranch]
    | some n =>
      simp only [relabel, walk, List.length_cons, List.length_append,
        length_walk_relabel r condition, length_walk_relabel r thenBranch, length_walk_relabel r n]
  | function span name params returns bodySpan body =>
    simp only [relabel, walk, List.length_cons, List.length_append, List.length_map,
      length_walkAll_relabel r body]
  | binary span op left right =>
    simp only [relabel, walk, List.length_cons, List.length_append, length_walk_relabel r left,
      length_walk_relabel r right]
  | unary span op operand =>
    simp only [relabel, walk, List.length_cons, length_walk_relabel r operand]
  | ret span value =>
    cases value with
    | none => rfl
    | some n => simp only [relabel, walk, List.length_cons, length_walk_relabel r n]
  | define span name declared value | assign span name value =>
    simp only [relabel, walk, List.length_cons, length_walk_relabel r value]

theorem length_walkAll_relabel (r : Relabel) :
    ∀ ns : List Node, (walkAll (relabelAll r ns)).length = (walkAll ns).length
  | [] => rfl
  | n :: ns => by
    simp only [relabelAll, walkAll, List.length_append, length_walk_relabel r n,
      length_walkAll_relabel r ns]

theorem length_walkBindings_relabel (r : Relabel) :
    ∀ bs : List EnvBinding, (walkBindings (relabelBindings r bs)).length = (walkBindings bs).length
  | [] => rfl
  | .mk span name value :: bs => by
    simp only [relabelBindings, walkBindings, List.cons_append, List.length_cons,
      List.length_append, length_walk_relabel r value, length_walkBindings_relabel r bs]

theorem length_walkParts_relabel (r : Relabel) :
    ∀ ps : List Part, (walkParts (relabelParts r ps)).length = (walkParts ps).length
  | [] => rfl
  | .text _ :: ps => by
    simp only [relabelParts, walkParts, length_walkParts_relabel r ps]
  | .node n :: ps => by
    simp only [relabelParts, walkParts, List.length_append, length_walk_relabel r n,
      length_walkParts_relabel r ps]

end

theorem blankNotes_relabel (r : Relabel) (n : Node) : (n.relabel r).blankNotes = n.blankNotes := by
  rw [blankNotes, blankNotes, length_walk_relabel]

end Node

/-- What checking gave, with other spans. -/
def Checked.relabel (r : Relabel) (c : Checked) : Checked :=
  ⟨c.outcome.mapError (·.relabel r), c.diagnostics.map (·.relabel r), c.notes,
    c.scopes.relabel r⟩

/-- A tree with other spans is checked as the tree itself is. -/
theorem check_relabel {r : Relabel} (ht : r.typed) (n : Node) (scopes : Scopes)
    (notes : Array Note) :
    check (n.relabel r) (scopes.relabel r) notes = (check n scopes notes).relabel r := by
  have run : (Check.node (n.relabel r)).run ⟨scopes.relabel r, [], [], notes, 0⟩ =
      Check.endRelabel r id ((Check.node n).run ⟨scopes, [], [], notes, 0⟩) :=
    Check.node_carries ht n ⟨scopes, [], [], notes, 0⟩
  unfold check
  rw [run]
  rcases (Check.node n).run ⟨scopes, [], [], notes, 0⟩ with ⟨f | t, c⟩ <;> rfl

end Sigil
