import Mathlib.Tactic.SplitIfs
import Sigil.Proofs.Typing.Runs

/-!
# What checking does to scopes

Checking a tree does to the scopes what the tree says (`Node.events`), in that
order, up to the first return that lies outside of every function if there is
one (`check_runs`).

A step of the checker `Traces` some events if it runs them; there is a rule for
each way of putting steps together, and a lemma for each form of node.
-/

namespace Sigil

/-! ## Steps of the checker -/

namespace Finding

theorem message_unbound (name : String) :
    (unbound name).message = toString "$" ++ toString name ++ toString " is not bound" := rfl

/-- A report that a name means nothing says which. -/
theorem unbound_inj {name other : String} (h : (unbound name).message = (unbound other).message) :
    name = other := by
  rw [message_unbound, message_unbound] at h
  have texts := congrArg String.toList h
  simp only [String.toList_append] at texts
  exact String.toList_inj.mp (List.append_cancel_left (List.append_cancel_right texts))

end Finding

namespace Checker

/-- The checker has run some events on the way from `c` to `d`. None of them is a return, unless
there is a function around, and none of the names that were reported to mean nothing was in the root
scope. -/
structure Saw (base : Nat) (es : List ScopeEvent) (c d : Checker) : Prop where
  runs : Scopes.Runs base es c.scopes d.scopes
  passed : c.returns = [] → ∀ e ∈ es, e.isPassed
  reports : ∀ r ∈ d.diagnostics, r ∈ c.diagnostics ∨
    ∀ name span, r = (Finding.unbound name).diagnostic span → c.scopes.rootBinding? name = none

variable {base : Nat} {es fs : List ScopeEvent} {c d e : Checker}

theorem Saw.trans (h : Saw base es c d) (depth : d.returns.length = c.returns.length)
    (k : Saw base fs d e) : Saw base (es ++ fs) c e where
  runs := h.runs.trans k.runs
  passed outside x hx := (List.mem_append.mp hx).elim (h.passed outside x) <|
    k.passed (List.length_eq_zero_iff.mp (by rw [depth, outside]; rfl)) x
  reports r hr := (k.reports r hr).elim (h.reports r) fun new => .inr fun name span hn => by
    cases there : c.scopes.rootBinding? name with
    | none => rfl
    | some i =>
      have kept : (d.scopes.rootBinding? name).isSome :=
        h.runs.rootBinding? (by rw [there]; rfl)
      rw [new name span hn] at kept
      cases kept

/-- Nothing was done to scopes but to use bindings. -/
theorem saw_quiet (h : Scopes.Revises base (fun _ => False) c.scopes d.scopes)
    (hd : d.diagnostics = c.diagnostics) : Saw base [] c d :=
  ⟨h.runs, fun _ => nofun, fun _ hr => .inl (hd ▸ hr)⟩

theorem saw_same (hs : d.scopes = c.scopes) (hd : d.diagnostics = c.diagnostics) :
    Saw base [] c d :=
  saw_quiet (hs ▸ ⟨rfl, rfl, rfl, fun _ _ => rfl, fun _ _ _ => rfl⟩) hd

end Checker

namespace Check

open Checker

variable {α β : Type} {base : Nat} {es fs : List ScopeEvent} {c : Checker} {m : Check α}

/-- How a step of the checker goes on from a state: with a result as `Q` says, or it stops as `E`
says. -/
def Meets (m : Check α) (c : Checker) (Q : α → Checker → Prop) (E : BindFault → Checker → Prop) :
    Prop :=
  match m.run c with
  | (.ok a, d) => Q a d
  | (.error f, d) => E f d

theorem Meets.mono {Q R : α → Checker → Prop} {E F : BindFault → Checker → Prop}
    (h : Meets m c Q E) (hQ : ∀ a d, Q a d → R a d) (hE : ∀ f d, E f d → F f d) :
    Meets m c R F := by
  unfold Meets at h ⊢
  split <;> rename_i e <;> rw [e] at h
  · exact hQ _ _ h
  · exact hE _ _ h

theorem Meets.get {Q : Checker → Checker → Prop} {E : BindFault → Checker → Prop} (h : Q c c) :
    Meets (MonadState.get : Check Checker) c Q E :=
  h

theorem Meets.bind {f : α → Check β} {R : β → Checker → Prop} {E : BindFault → Checker → Prop}
    (h : Meets m c (fun a d => Meets (f a) d R E) E) : Meets (m >>= f) c R E := by
  rcases hm : m.run c with ⟨r, d⟩
  have run : (m >>= f).run c = ExceptT.bindCont f r d := by
    change ExceptT.bindCont f (m.run c).1 (m.run c).2 = _
    rw [hm]
  unfold Meets at h ⊢
  rw [hm] at h
  rw [run]
  cases r <;> exact h

/-- A step runs some events, from a given state, if it ends with a result, and else the first of
them; what comes next is a return if this is what stops it. -/
def TracesFrom (base : Nat) (es : List ScopeEvent) (c : Checker) (m : Check α) (Q : α → Prop) :
    Prop :=
  Meets m c (fun a d => Q a ∧ Saw base es c d ∧ d.returns.length = c.returns.length)
    fun f d => ∃ done left, es = done ++ left ∧ Saw base done c d ∧
      ∀ span, f = .returnOutside span → c.returns = [] ∧ ∃ rest, left = .returns span :: rest

/-- A step runs some events, from every state in which the scopes within the root know only bindings
from `base` on. -/
def Traces (base : Nat) (es : List ScopeEvent) (m : Check α) (Q : α → Prop) : Prop :=
  ∀ c : Checker, c.scopes.Since base → TracesFrom base es c m Q

variable {Q P : α → Prop} {R : β → Prop}

/-! ### Rules -/

theorem TracesFrom.bind {f : α → Check β} (hm : TracesFrom base es c m Q)
    (hc : c.scopes.Since base) (hf : ∀ a, Q a → Traces base fs (f a) R) :
    TracesFrom base (es ++ fs) c (m >>= f) R := by
  refine Meets.bind (Meets.mono hm (fun a d ⟨ha, saw, depth⟩ => ?_) fun x d => ?_)
  · refine Meets.mono (hf a ha d (saw.runs.since hc)) ?_ ?_
    · exact fun b e ⟨hb, saw', depth'⟩ => ⟨hb, saw.trans depth saw', depth'.trans depth⟩
    · rintro x e ⟨done, left, rfl, saw', stop⟩
      refine ⟨es ++ done, left, (List.append_assoc ..).symm, saw.trans depth saw', fun span hx => ?_⟩
      obtain ⟨outside, next⟩ := stop span hx
      exact ⟨List.length_eq_zero_iff.mp (by rw [← depth, outside]; rfl), next⟩
  · rintro ⟨done, left, rfl, saw, stop⟩
    refine ⟨done, left ++ fs, by rw [List.append_assoc], saw, fun span hx => ?_⟩
    obtain ⟨outside, rest, rfl⟩ := stop span hx
    exact ⟨outside, rest ++ fs, rfl⟩

namespace Traces

theorem bind {f : α → Check β} (hm : Traces base es m Q)
    (hf : ∀ a, Q a → Traces base fs (f a) R) : Traces base (es ++ fs) (m >>= f) R :=
  fun c hc => (hm c hc).bind hc hf

/-- A step after one without events. -/
theorem after {f : α → Check β} (hm : Traces base [] m Q)
    (hf : ∀ a, Q a → Traces base es (f a) R) : Traces base es (m >>= f) R :=
  hm.bind hf

/-- A step before one without events. -/
theorem before {f : α → Check β} (hm : Traces base es m Q)
    (hf : ∀ a, Q a → Traces base [] (f a) R) : Traces base es (m >>= f) R :=
  List.append_nil es ▸ hm.bind hf

theorem pure {a : α} (h : Q a) : Traces base [] (Pure.pure a) Q :=
  fun _ _ => ⟨h, saw_same rfl rfl, rfl⟩

/-- A step that looks at the state first. -/
theorem get {f : Checker → Check β}
    (hf : ∀ c, c.scopes.Since base → TracesFrom base es c (f c) R) :
    Traces base es (MonadState.get >>= f) R :=
  fun c hc => Meets.bind (hf c hc)

/-- A change that runs some events. -/
theorem change {f : Checker → Checker}
    (hs : ∀ c, c.scopes.Since base → Scopes.Runs base es c.scopes (f c).scopes)
    (passed : ∀ e ∈ es, e.isPassed) (hd : ∀ c, (f c).diagnostics = c.diagnostics)
    (hr : ∀ c, (f c).returns = c.returns) :
    Traces base es (modify f : Check PUnit) fun _ => True :=
  fun c hc => ⟨trivial, ⟨hs c hc, fun _ => passed, fun _ hr => .inl (hd c ▸ hr)⟩, by rw [hr]⟩

/-- A change that is nothing to scopes. -/
theorem aside {f : Checker → Checker} (hs : ∀ c, (f c).scopes = c.scopes)
    (hd : ∀ c, (f c).diagnostics = c.diagnostics) (hr : ∀ c, (f c).returns = c.returns) :
    Traces base [] (modify f : Check PUnit) fun _ => True :=
  .change (fun c _ => hs c ▸ .refl _) nofun hd hr

theorem forIn {γ : Type} {f : γ → PUnit → Check (ForInStep PUnit)} {ev : γ → List ScopeEvent}
    (hf : ∀ a, Traces base (ev a) (f a ⟨⟩) (· = .yield ⟨⟩)) :
    ∀ as : List γ, Traces base (as.flatMap ev) (ForIn.forIn as PUnit.unit f) fun _ => True
  | [] => .pure trivial
  | a :: as => by
    rw [List.forIn_cons, List.flatMap_cons]
    refine (hf a).bind ?_
    rintro _ rfl
    exact forIn hf as

theorem forIn_quiet {γ : Type} {f : γ → PUnit → Check (ForInStep PUnit)}
    (hf : ∀ a, Traces base [] (f a ⟨⟩) (· = .yield ⟨⟩)) (as : List γ) :
    Traces base [] (ForIn.forIn as PUnit.unit f) fun _ => True := by
  have none : as.flatMap (fun _ => ([] : List ScopeEvent)) = [] :=
    List.flatMap_eq_nil_iff.mpr fun _ _ => rfl
  exact none ▸ forIn hf as

end Traces

/-! ## Reports and bindings -/

theorem report_saw {f : Finding} {span : Option Span}
    (h : ∀ name, f = .unbound name → c.scopes.rootBinding? name = none) :
    TracesFrom base [] c (report f span) fun _ => True := by
  refine ⟨trivial, ⟨.refl _, fun _ => nofun, fun r hr => ?_⟩, rfl⟩
  refine (List.mem_append.mp hr).imp id fun hr name place e => ?_
  obtain rfl := List.mem_singleton.mp hr
  simp only [Finding.diagnostic, Diagnostic.mk.injEq] at e
  cases f with
  | unbound other => exact h name (congrArg _ (Finding.unbound_inj e.2.2.1))
  | _ => cases e.2.1

/-- Reporting anything but that a name means nothing. -/
theorem report_traces {f : Finding} {span : Option Span} (h : f.code ≠ .unboundName) :
    Traces base [] (report f span) fun _ => True :=
  fun _ _ => report_saw fun _ e => absurd rfl (e ▸ h)

/-- Reporting something on a condition, before the rest. -/
theorem reportIf_traces {p : Prop} [Decidable p] {f : Finding} {span : Option Span}
    {rest : PUnit → Check β} (hf : f.code ≠ .unboundName) (h : Traces base es (rest ⟨⟩) R) :
    Traces base es (if p then report f span >>= rest else rest ⟨⟩) R := by
  split_ifs
  · exact (report_traces hf).after fun _ _ => h
  · exact h

/-- Reporting something about every item that a condition holds of. -/
theorem reportEach_traces {γ : Type} {p : γ → Prop} [DecidablePred p] {f : γ → Finding}
    {span : γ → Option Span} (hf : ∀ a, (f a).code ≠ .unboundName) (as : List γ) :
    Traces base [] (ForIn.forIn as PUnit.unit fun a _ => do
      if p a then report (f a) (span a)
      return ForInStep.yield PUnit.unit) fun _ => True := by
  refine Traces.forIn_quiet (fun a => ?_) as
  dsimp only
  split_ifs
  · exact (report_traces (hf a)).after fun _ _ => .pure rfl
  · exact .pure rfl

theorem mismatch_traces {f : Finding} {span : Option Span} (h : f.code ≠ .unboundName) :
    Traces base [] (mismatch f span) fun _ => True :=
  (report_traces h).after fun _ _ => .pure trivial

theorem use_traces (i : Nat) : Traces base [] (use i) fun _ => True :=
  .change (fun c _ => (c.scopes.revises_modify i ({ · with used := true }) (fun _ _ => rfl)
    fun _ _ _ => rfl).runs) nofun (fun _ => rfl) fun _ => rfl

/-- Changing a binding that was made on the way. -/
theorem modifyBinding_traces {i : Nat} (f : Binding → Binding) (h : base ≤ i) :
    Traces base [] (modifyBinding i f) fun _ => True := by
  refine .change (fun c _ => (c.scopes.revises_modify i f ?_ ?_).runs) nofun (fun _ => rfl)
    fun _ => rfl
  · exact fun hi => absurd h (Nat.not_le_of_lt hi)
  · exact fun hi => absurd h (Nat.not_le_of_lt hi)

theorem define_traces (name : String) (b : Binding) :
    Traces base [.defines name] (define name b) (base ≤ ·) :=
  fun c hc => ⟨(c.scopes.fst_define name b).symm ▸ hc.size, ⟨(Scopes.Does.defines c.scopes name b).runs,
    fun _ => List.forall_mem_singleton.mpr rfl, fun _ hr => .inl hr⟩, rfl⟩

/-- A definition whose binding is kept for later. -/
theorem define_made (name : String) (b : Binding) :
    Traces base [.defines name] (some <$> define name b) fun self => ∀ i ∈ self, base ≤ i := by
  rw [map_eq_pure_bind]
  refine (define_traces name b).before fun i hi => .pure ?_
  rintro _ ⟨⟩
  exact hi

/-- Going on with the binding that a name means, or with its not meaning anything. -/
theorem resolve_traces {name : String} {rest : Option (Nat × Binding) → Check β}
    (hsome : ∀ c i b, c.scopes.Since base → c.scopes.resolve name = some i →
      c.scopes.binding? i = some b → TracesFrom base es c (rest (some (i, b))) R)
    (hnone : ∀ c, c.scopes.Since base → c.scopes.rootBinding? name = none →
      TracesFrom base es c (rest none) R) :
    Traces base es (resolve name >>= rest) R := by
  rw [resolve, bind_assoc]
  refine .get fun c hc => ?_
  rw [pure_bind]
  cases hn : (c.scopes.resolve name).bind fun i => (c.scopes.binding? i).map (i, ·) with
  | none =>
    refine hnone c hc (Scopes.rootBinding?_eq_none hc ?_)
    rw [Option.bind_eq_none_iff] at hn ⊢
    exact fun i hi => Option.map_eq_none_iff.mp (hn i hi)
  | some p =>
    obtain ⟨i, hi, found⟩ := Option.bind_eq_some_iff.mp hn
    obtain ⟨b, hb, rfl⟩ := Option.map_eq_some_iff.mp found
    exact hsome c i b hc hi hb

theorem leaveScope_traces : Traces base [.closes] leaveScope fun _ => True := by
  refine .get fun c hc => ?_
  refine Traces.after (Q := fun _ => True) (.forIn_quiet (fun p => ?_) _) (fun _ _ => ?_) c hc
  · obtain ⟨name, b⟩ := p
    dsimp only
    split_ifs
    · exact (report_traces (f := .unused name) nofun).after fun _ _ => .pure rfl
    · exact .pure rfl
  · exact .change (fun c _ => (Scopes.Does.closes c.scopes).runs)
      (List.forall_mem_singleton.mpr rfl) (fun _ => rfl) fun _ => rfl

theorem inScope_traces (hm : Traces base es m Q) :
    Traces base (ScopeEvent.enclose es) (inScope m) Q := by
  have opened : Traces base [.opens]
      (modify fun c => { c with scopes := c.scopes.enter } : Check PUnit) fun _ => True :=
    .change (fun c _ => (Scopes.Does.opens c.scopes).runs) (List.forall_mem_singleton.mpr rfl)
      (fun _ => rfl) fun _ => rfl
  refine opened.bind fun _ _ => hm.bind fun a ha => ?_
  exact leaveScope_traces.before fun _ _ => .pure ha

/-! ## Rules -/

theorem callType_traces (callee : Ty) (args : List Ty) (span : Option Span) :
    Traces base [] (callType callee args span) fun _ => True := by
  unfold callType
  split
  · dsimp only
    split_ifs
    · exact (report_traces (by nofun)).after fun _ _ => .pure trivial
    · exact (reportEach_traces (by nofun) _).after fun _ _ => .pure trivial
  · exact .pure trivial
  · exact .pure trivial
  · exact mismatch_traces (by nofun)

theorem binaryType_traces (op : BinaryOperator) (left right : Ty) (span : Option Span) :
    Traces base [] (binaryType op left right span) fun _ => True := by
  unfold binaryType
  split
  iterate 2 exact .pure trivial
  iterate 2 exact (reportEach_traces (by nofun) _).after fun _ _ => .pure trivial
  iterate 4 exact reportIf_traces (by nofun) (.pure trivial)
  split_ifs
  iterate 4 exact .pure trivial
  exact mismatch_traces (by nofun)

theorem unaryType_traces (op : UnaryOperator) (operand : Ty) (span : Option Span) :
    Traces base [] (unaryType op operand span) fun _ => True := by
  unfold unaryType
  split
  · exact reportIf_traces (by nofun) (.pure trivial)
  · split_ifs
    · exact .pure trivial
    · exact mismatch_traces (by nofun)

theorem referenceType_traces (name : String) (default : Option String) (span : Option Span) :
    Traces base [] (referenceType name default span) fun _ => True := by
  have used {t : Ty} (i : Nat) : Traces base [] (do use i; return t) fun _ => True :=
    (use_traces i).after fun _ _ => .pure trivial
  refine resolve_traces (fun c i b hc _ _ => ?_) fun c hc root => ?_
  · cases default with
    | none => exact used i c hc
    | some d => exact used i c hc
  · cases default with
    | none =>
      refine (report_saw fun other e => ?_).bind hc fun _ _ => .pure trivial
      cases e
      exact root
    | some d => exact Traces.pure trivial c hc

theorem defineType_traces (name : String) (declared : Option Ty) (found : Ty)
    (span valueSpan : Option Span) :
    Traces base [.defines name] (defineType name declared found span valueSpan) fun _ => True := by
  have defined : Traces base [.defines name] (do
      let _ ← define name ⟨declared.getD found, declared, .define, span, false⟩
      return declared.getD found) fun _ => True :=
    (define_traces _ _).before fun _ _ => .pure trivial
  unfold defineType
  cases declared with
  | none => exact defined
  | some t => exact reportIf_traces (by nofun) defined

/-- An assignment may leave everything as it is. -/
theorem TracesFrom.assigning {name : String} (h : TracesFrom base [] c m Q) :
    TracesFrom base [.assigns name] c m Q := by
  refine Meets.mono h (fun a d ⟨ha, saw, depth⟩ => ⟨ha, ⟨?_, ?_, saw.reports⟩, depth⟩) ?_
  · exact (Scopes.Does.assigns ⟨rfl, rfl, rfl, fun _ _ => rfl, fun _ _ _ => rfl⟩).runs.trans saw.runs
  · exact fun _ => List.forall_mem_singleton.mpr rfl
  · rintro f d ⟨done, left, e, saw, stop⟩
    obtain ⟨rfl, rfl⟩ := List.nil_eq_append_iff.mp e
    refine ⟨[], _, rfl, saw, fun span hf => ?_⟩
    obtain ⟨-, rest, e⟩ := stop span hf
    cases e

theorem assignType_traces (name : String) (found : Ty) (span valueSpan : Option Span) :
    Traces base [.assigns name] (assignType name found span valueSpan) fun _ => True := by
  have still : Traces base [.assigns name] (Pure.pure found : Check Ty) fun _ => True :=
    fun c hc => (Traces.pure trivial c hc).assigning
  refine resolve_traces (fun c i b hc hi hb => ?_) fun c hc root => ?_
  · dsimp only
    split
    · refine TracesFrom.assigning ((?_ : Traces base [] _ _) c hc)
      exact reportIf_traces (by nofun) (.pure trivial)
    · next undeclared =>
      refine ⟨trivial, ⟨(Scopes.Does.assigns ?_).runs, fun _ => List.forall_mem_singleton.mpr rfl,
        fun _ hr => .inl hr⟩, rfl⟩
      refine Scopes.revises_modify _ i _ (fun _ _ => rfl) fun _ fixed => absurd ⟨hi, ?_⟩ fixed
      rw [Scopes.declaredAt?, hb, Option.map_some, undeclared]
  · refine ((report_saw fun other e => ?_).bind hc fun _ _ => .pure trivial).assigning
    cases e
    exact root

theorem commandType_traces (place : Nat) (target : Option Nat) (hasEnv : Bool) (args : List Ty)
    (span : Option Span) : Traces base [] (commandType place target hasEnv args span) fun _ => True := by
  refine .get fun c hc => ?_
  dsimp only
  split
  · exact Traces.pure trivial c hc
  · have called : Traces base [] (modify fun c =>
        { c with notes := c.notes.modify place ({ · with isCall := true }) } : Check PUnit)
        fun _ => True := .aside (fun _ => rfl) (fun _ => rfl) fun _ => rfl
    split_ifs
    · exact ((use_traces _).after fun _ _ => called.after fun _ _ => callType_traces _ _ _) c hc
    · exact ((use_traces _).after fun _ _ => .pure trivial) c hc
    · exact Traces.pure trivial c hc

/-! ## Nodes -/

theorem noted_traces {kind : String} {span : Option Span} {infer : Nat → Check Ty}
    (h : ∀ place, Traces base es (infer place) fun _ => True) :
    Traces base es (noted kind span infer) fun _ => True := by
  refine .get fun c hc => (?_ : Traces base es _ _) c hc
  refine Traces.after (.aside (fun _ => rfl) (fun _ => rfl) fun _ => rfl) fun _ _ => ?_
  refine (h _).before fun t _ => .get fun d hd => ?_
  split
  · exact ⟨[], [], rfl, saw_same rfl rfl, nofun⟩
  · refine (?_ : Traces base [] _ _) d hd
    exact .after (.aside (fun _ => rfl) (fun _ => rfl) fun _ => rfl) fun _ _ => .pure trivial

/-- Within a function, returns are nothing to what is around it. -/
theorem body_traces {m : Check Ty} (hm : Traces base es m fun _ => True) :
    Traces base (es.filter ScopeEvent.isPassed) (do
      modify fun c => { c with returns := [] :: c.returns }
      let bodyType ← m
      let returned := (← get).returns.head?.getD []
      modify fun c => { c with returns := c.returns.drop 1 }
      return (bodyType, returned) : Check (Ty × List Ty)) fun _ => True := fun c hc => by
  have passed (es : List ScopeEvent) : ∀ e ∈ es.filter ScopeEvent.isPassed, e.isPassed :=
    fun e he => (List.mem_filter.mp he).2
  refine Meets.bind ?_
  refine Meets.bind (Meets.mono (hm { c with returns := [] :: c.returns } hc) ?_ ?_)
  · rintro t d ⟨-, saw, depth⟩
    refine ⟨trivial, ⟨saw.runs.filter, fun _ => passed es, saw.reports⟩, ?_⟩
    exact (List.length_drop ..).trans (by rw [depth]; rfl)
  · rintro f d ⟨done, left, rfl, saw, stop⟩
    refine ⟨done.filter ScopeEvent.isPassed, left.filter ScopeEvent.isPassed,
      List.filter_append .., ⟨saw.runs.filter, fun _ => passed done, saw.reports⟩, fun span hf => ?_⟩
    cases (stop span hf).1

theorem ret_traces {span : Option Span} {m : Check Ty} (hm : Traces base es m fun _ => True) :
    Traces base (.returns span :: es) (do
      if (← get).returns.isEmpty then
        report .returnOutside span
        throw (.returnOutside span)
      let found ← m
      modify fun c => { c with returns := (c.returns.head?.getD [] ++ [found]) :: c.returns.drop 1 }
      return found : Check Ty) fun _ => True := by
  refine .get fun c hc => ?_
  dsimp only
  split_ifs with outside
  · refine ⟨[], .returns span :: es, rfl, (report_saw (by nofun)).2.1, fun place e => ?_⟩
    cases e
    exact ⟨List.isEmpty_iff.mp outside, es, rfl⟩
  · have inside : c.returns ≠ [] := fun e => outside (by rw [e]; rfl)
    have passed {P : Prop} (e : c.returns = []) : P := absurd e inside
    have started : Saw base [.returns span] c c :=
      ⟨(Scopes.Does.returns c.scopes span).runs, passed, fun _ hr => .inl hr⟩
    refine Meets.bind (Meets.mono (hm c hc) ?_ ?_)
    · rintro t d ⟨-, saw, depth⟩
      refine ⟨trivial, started.trans rfl ⟨saw.runs, passed, saw.reports⟩, ?_⟩
      have := List.length_pos_iff.mpr inside
      simp only [List.length_cons, List.length_drop]
      omega
    · rintro f d ⟨done, left, rfl, saw, stop⟩
      exact ⟨.returns span :: done, left, rfl, started.trans rfl saw, stop⟩

mutual

theorem node_traces (n : Node) : Traces base n.events (node n) fun _ => True := by
  cases n with
  | literal | parameter | blank => exact noted_traces fun _ => .pure trivial
  | reference => exact noted_traces fun _ => referenceType_traces _ _ _
  | interpolation span parts =>
    exact noted_traces fun _ => (checkParts_traces parts).before fun _ _ => .pure trivial
  | substitution span body =>
    exact noted_traces fun _ => (inScope_traces (checkAll_traces body)).before fun _ _ =>
      .pure trivial
  | binding b =>
    obtain ⟨span, name, value⟩ := b
    exact noted_traces fun _ => (node_traces value).before fun _ _ => .pure trivial
  | command span env name args =>
    refine noted_traces fun _ => (checkBindings_traces env).bind fun _ _ => ?_
    refine resolve_traces (fun c i b hc _ _ => ?_) fun c hc _ => ?_
    · exact ((checkAll_traces args).before fun _ _ => commandType_traces _ _ _ _ _) c hc
    · exact ((checkAll_traces args).before fun _ _ => commandType_traces _ _ _ _ _) c hc
  | call span callee args =>
    refine noted_traces fun _ => (node_traces callee).bind fun _ _ => ?_
    exact (checkAll_traces args).before fun _ _ => callType_traces _ _ _
  | conditional span condition thenBranch elseBranch =>
    cases elseBranch with
    | none =>
      refine noted_traces fun _ => (node_traces condition).bind fun _ _ =>
        reportIf_traces (by nofun) ?_
      exact (node_traces thenBranch).before fun _ _ => Traces.after (Q := fun _ => True)
        (.pure trivial) fun _ _ => .pure trivial
    | some elseBranch =>
      rw [Node.events, List.append_assoc]
      refine noted_traces fun _ => (node_traces condition).bind fun _ _ =>
        reportIf_traces (by nofun) ?_
      exact (node_traces thenBranch).bind fun _ _ => (node_traces elseBranch).before fun _ _ =>
        .pure trivial
  | block span body =>
    exact noted_traces fun _ => (inScope_traces (checkAll_traces body)).before fun _ _ =>
      .pure trivial
  | function span name params returns bodySpan body =>
    refine noted_traces fun _ => ?_
    have params_ : (params.map (·.name)).map ScopeEvent.defines =
        params.flatMap fun p => [.defines p.name] := by
      rw [List.map_map, List.map_eq_flatMap]
      rfl
    dsimp only
    cases name
    -- what is known of the binding of a named function is that it was made on the way
    case' none =>
      refine Traces.bind (Q := fun self : Option Nat => ∀ i ∈ self, base ≤ i) (.pure nofun)
        fun self made => ?_
    case' some name =>
      refine Traces.bind (Q := fun self : Option Nat => ∀ i ∈ self, base ≤ i)
        (define_made name _) fun self made => ?_
    all_goals
      refine (inScope_traces (Q := fun _ => True) ?_).before fun _ _ => ?_
      · rw [params_]
        refine (Traces.forIn (fun p => ?_) params).bind fun _ _ => ?_
        · exact (noted_traces fun _ => .pure trivial).after fun _ _ =>
            (define_traces _ _).before fun _ _ => .pure rfl
        · exact body_traces (noted_traces fun _ =>
            (inScope_traces (checkAll_traces body)).before fun _ _ => .pure trivial)
      · cases returns with
        | some t => exact (reportEach_traces (by nofun) _).after fun _ _ => .pure trivial
        | none =>
          cases self with
          | none => exact .pure trivial
          | some i => exact (modifyBinding_traces _ (made i rfl)).after fun _ _ => .pure trivial
  | binary span op left right =>
    refine noted_traces fun _ => (node_traces left).bind fun _ _ => ?_
    exact (node_traces right).before fun _ _ => binaryType_traces _ _ _ _
  | unary span op operand =>
    exact noted_traces fun _ => (node_traces operand).before fun _ _ => unaryType_traces _ _ _
  | ret span value =>
    cases value with
    | none => exact noted_traces fun _ => ret_traces (.pure trivial)
    | some n => exact noted_traces fun _ => ret_traces (node_traces n)
  | define span name declared value =>
    exact noted_traces fun _ => (node_traces value).bind fun _ _ => defineType_traces _ _ _ _ _
  | assign span name value =>
    exact noted_traces fun _ => (node_traces value).bind fun _ _ => assignType_traces _ _ _ _
  | program span body =>
    exact noted_traces fun _ => (checkAll_traces body).before fun _ _ => .pure trivial

theorem checkAll_traces :
    ∀ ns : List Node, Traces base (Node.eventsAll ns) (checkAll ns) fun _ => True
  | [] => .pure trivial
  | n :: ns => (node_traces n).bind fun _ _ => (checkAll_traces ns).before fun _ _ => .pure trivial

theorem checkBindings_traces :
    ∀ bs : List EnvBinding, Traces base (Node.eventsBindings bs) (checkBindings bs) fun _ => True
  | [] => .pure trivial
  | .mk _ _ value :: bs =>
    (noted_traces fun _ => (node_traces value).before fun _ _ => .pure trivial).bind fun _ _ =>
      checkBindings_traces bs

theorem checkParts_traces :
    ∀ ps : List Part, Traces base (Node.eventsParts ps) (checkParts ps) fun _ => True
  | [] => .pure trivial
  | .text _ :: ps => checkParts_traces ps
  | .node n :: ps => (node_traces n).bind fun _ _ => checkParts_traces ps

end

end Check

/-- Checking a tree in given scopes, of which only the root is open, does to the scopes what the
tree says before the first return that lies outside of every function. With such a return checking
stops there, and else it goes through the whole tree. A name that is reported to mean nothing has no
binding in the root scope. -/
theorem check_runs (n : Node) (scopes : Scopes) (h : scopes.inner = []) :
    let c := check n scopes n.blankNotes
    (∃ t, Scopes.Runs scopes.table.size n.visited scopes t ∧ c.scopes = t.leaveAll) ∧
      (∀ name span, (Finding.unbound name).diagnostic span ∈ c.diagnostics →
        scopes.rootBinding? name = none) ∧
      match c.outcome with
      | .ok _ => n.visited = n.events
      | .error f => ∃ span left, f = .returnOutside span ∧
        n.events = n.visited ++ .returns span :: left := by
  have traced := Check.node_traces n ⟨scopes, [], [], n.blankNotes, 0⟩
    (Scopes.since_of_inner h)
  have stops := check_cases n scopes
  unfold check at stops ⊢
  unfold Check.TracesFrom Check.Meets at traced
  rcases run : (Check.node n).run ⟨scopes, [], [], n.blankNotes, 0⟩ with ⟨f | t, d⟩
  · rw [run] at stops traced
    obtain ⟨span, rfl⟩ := stops
    obtain ⟨done, left, split, saw, stop⟩ := traced
    obtain ⟨-, rest, rfl⟩ := stop span rfl
    have passed := saw.passed rfl
    have visited : n.visited = done := by
      rw [Node.visited, split, List.takeWhile_append_of_pos passed, List.takeWhile_cons_of_neg]
      · exact List.append_nil done
      · exact Bool.false_ne_true
    refine ⟨⟨d.scopes, visited ▸ saw.runs, rfl⟩, fun name span hr => ?_, span, rest, rfl, ?_⟩
    · exact (saw.reports _ hr).elim nofun fun new => new name span rfl
    · rw [visited, split]
  · rw [run] at traced
    obtain ⟨-, saw, -⟩ := traced
    have visited : n.visited = n.events := by
      have whole : (n.events ++ []).takeWhile ScopeEvent.isPassed =
          n.events ++ [].takeWhile ScopeEvent.isPassed :=
        List.takeWhile_append_of_pos (saw.passed rfl)
      rwa [List.takeWhile_nil, List.append_nil] at whole
    refine ⟨⟨d.scopes, visited ▸ saw.runs, rfl⟩, fun name span hr => ?_, visited⟩
    exact (saw.reports _ hr).elim nofun fun new => new name span rfl

end Sigil
