import Sigil.Proofs.Node.Visible
import Sigil.Proofs.Typing.Returns

/-!
# Visible names in checking

A tree that was checked without a report of a name that means nothing refers
to visible names alone (`resolve?_of_check`), in the sense of `Node.resolve?`.

A step of the checker `Resolves` as a function of the visible names says if it
turns scopes that show given names into scopes that show the names that the
function gives, unless it reports such a name. There is a rule for each way of
putting steps together, and a lemma for each form of node.
-/

namespace Sigil

namespace Scopes

variable {s : Scopes}

/-- All open scopes, innermost first. -/
def all (s : Scopes) : List Scope :=
  s.inner ++ [s.root]

/-- The names that mean something are given ones, and what they mean is in the table. -/
structure Shows (s : Scopes) (visible : List String) : Prop where
  names : ∀ name, name ∈ visible ↔ (s.resolve name).isSome
  valid : ∀ scope ∈ s.all, ∀ name i, scope.get? name = some i → i < s.table.size

theorem shows_empty : empty.Shows [] where
  names name := by simp [resolve, empty]
  valid scope h name i hi := by
    simp only [all, empty, List.nil_append, List.mem_singleton] at h
    subst h
    cases hi

/-- What is shown depends on the open scopes alone, if the table only grows. -/
theorem Shows.congr {t : Scopes} {visible : List String} (h : s.Shows visible) (ha : t.all = s.all)
    (ht : s.table.size ≤ t.table.size) : t.Shows visible where
  names name := by
    have means : t.resolve name = s.resolve name :=
      congrArg (List.findSome? (Names.get? · name)) ha
    rw [h.names, means]
  valid scope hs name i hi := Nat.lt_of_lt_of_le (h.valid scope (ha ▸ hs) name i hi) ht

/-- A scope that is left gives way to those around it. -/
theorem all_leave {t : Scopes} (h : t.all.tail = s.all) : t.leave.all = s.all := by
  rw [← h]
  unfold leave all
  cases hi : t.inner with
  | nil =>
    have length := congrArg List.length h
    simp [all, hi] at length
  | cons top outer => rfl

theorem all_define (name : String) (b : Binding) :
    ∃ top outer, s.all = top :: outer ∧
      (s.define name b).2.all = top.insert name s.table.size :: outer := by
  unfold define all
  cases h : s.inner with
  | nil => exact ⟨s.root, [], by simp, by simp⟩
  | cons top outer => exact ⟨top, outer ++ [s.root], by simp, by simp⟩

theorem table_define (name : String) (b : Binding) :
    (s.define name b).2.table = s.table.push b := by
  unfold define
  cases s.inner <;> rfl

theorem size_define (name : String) (b : Binding) :
    (s.define name b).2.table.size = s.table.size + 1 := by
  rw [table_define, Array.size_push]

theorem resolve_define (name other : String) (b : Binding) :
    (s.define name b).2.resolve other =
      if name = other then some s.table.size else s.resolve other := by
  obtain ⟨top, outer, hs, hd⟩ := s.all_define name b
  have before : s.resolve other = (top :: outer).findSome? (·.get? other) :=
    congrArg (List.findSome? (Names.get? · other)) hs
  have after : (s.define name b).2.resolve other =
      (top.insert name s.table.size :: outer).findSome? (·.get? other) :=
    congrArg (List.findSome? (Names.get? · other)) hd
  rw [before, after, List.findSome?_cons, List.findSome?_cons, Names.get?_insert]
  by_cases h : name = other <;> simp [h]

/-- A definition shows one more name. -/
theorem Shows.define {visible : List String} (h : s.Shows visible) (name : String) (b : Binding) :
    (s.define name b).2.Shows (name :: visible) where
  names other := by
    rw [resolve_define, List.mem_cons, h.names, eq_comm]
    by_cases e : name = other <;> simp [e]
  valid scope hscope other i hi := by
    obtain ⟨top, outer, hs, hd⟩ := s.all_define name b
    have old : ∀ scope ∈ s.all, ∀ i, scope.get? other = some i → i < s.table.size + 1 :=
      fun scope hm i hi => Nat.lt_succ_of_lt (h.valid scope hm other i hi)
    rw [hd, List.mem_cons] at hscope
    rw [size_define]
    rcases hscope with rfl | hscope
    · rw [Names.get?_insert] at hi
      split_ifs at hi
      · cases hi
        exact Nat.lt_succ_self _
      · exact old top (hs ▸ List.mem_cons_self) i hi
    · exact old scope (hs ▸ List.mem_cons_of_mem _ hscope) i hi

end Scopes

namespace Checker

/-- Nothing was reported to mean nothing. -/
def AllBound (c : Checker) : Prop :=
  ∀ d ∈ c.diagnostics, d.code ≠ .unboundName

/-- Checking may go from `c` to `d` without leaving the innermost scope: diagnostics are added, the
table grows, and the scopes around stay. -/
structure Grows (c d : Checker) : Prop where
  diagnostics : c.diagnostics <+: d.diagnostics
  table : c.scopes.table.size ≤ d.scopes.table.size
  around : d.scopes.all.tail = c.scopes.all.tail

theorem Grows.refl (c : Checker) : c.Grows c :=
  ⟨List.prefix_rfl, Nat.le_refl _, rfl⟩

theorem Grows.trans {c d e : Checker} (h : c.Grows d) (k : d.Grows e) : c.Grows e :=
  ⟨h.diagnostics.trans k.diagnostics, Nat.le_trans h.table k.table, k.around.trans h.around⟩

theorem Grows.allBound {c d : Checker} (h : c.Grows d) (hd : d.AllBound) : c.AllBound :=
  fun x hx => hd x (h.diagnostics.subset hx)

end Checker

namespace Check

open Checker

variable {α β : Type}

/-- A step turns the visible names into what `next` says, unless it reports a name that means
nothing. -/
def Resolves (m : Check α) (next : List String → Option (List String)) : Prop :=
  ∀ c : Checker, WP m c (fun _ d => c.Grows d ∧ ∀ visible, c.scopes.Shows visible → d.AllBound →
    ∃ after, next visible = some after ∧ d.scopes.Shows after) fun _ => True

section

variable {m : Check α} {next later : List String → Option (List String)}

theorem Resolves.pure {a : α} : Resolves (Pure.pure a : Check α) some :=
  fun c => WP.pure ⟨.refl c, fun visible h _ => ⟨visible, rfl, h⟩⟩

theorem Resolves.throw {f : BindFault} : Resolves (MonadExcept.throw f : Check α) next :=
  fun _ => WP.throw trivial

/-- Nothing comes after a fault. -/
theorem Resolves.thrown {f : BindFault} {rest : α → Check β} :
    Resolves (MonadExcept.throw f >>= rest) next :=
  fun _ => WP.bind (WP.throw trivial)

theorem Resolves.bind {f : α → Check β} (hm : Resolves m next) (hf : ∀ a, Resolves (f a) later) :
    Resolves (m >>= f) fun visible => next visible >>= later := fun c => by
  refine WP.bind (WP.mono (hm c) fun a d ⟨grown, shown⟩ => ?_)
  refine WP.mono (hf a d) fun _ e ⟨grown', shown'⟩ => ⟨grown.trans grown', fun visible h he => ?_⟩
  obtain ⟨between, hb, h⟩ := shown visible h (grown'.allBound he)
  obtain ⟨after, ha, h⟩ := shown' between h he
  exact ⟨after, Option.bind_eq_some_iff.mpr ⟨between, hb, ha⟩, h⟩

/-- A step after one that leaves the names as they are. -/
theorem Resolves.after {f : α → Check β} (hm : Resolves m some) (hf : ∀ a, Resolves (f a) next) :
    Resolves (m >>= f) next :=
  hm.bind hf

/-- A step before one that leaves the names as they are. -/
theorem Resolves.before {f : α → Check β} (hm : Resolves m next) (hf : ∀ a, Resolves (f a) some) :
    Resolves (m >>= f) next := by
  have names : (fun visible => next visible >>= some) = next :=
    funext fun visible => Option.bind_fun_some (next visible)
  exact names ▸ hm.bind hf

theorem Resolves.map {f : α → β} (hm : Resolves m next) : Resolves (f <$> m) next := by
  rw [map_eq_pure_bind]
  exact hm.before fun _ => .pure

/-- A step that changes no scope. -/
theorem Resolves.modify {f : Checker → Checker}
    (hd : ∀ c, (f c).diagnostics = c.diagnostics) (ha : ∀ c, (f c).scopes.all = c.scopes.all)
    (ht : ∀ c, (f c).scopes.table.size = c.scopes.table.size) :
    Resolves (modify f : Check PUnit) some := fun c => by
  refine WP.modify ⟨⟨hd c ▸ List.prefix_rfl, Nat.le_of_eq (ht c).symm, by rw [ha]⟩, ?_⟩
  exact fun visible h _ => ⟨visible, rfl, h.congr (ha c) (Nat.le_of_eq (ht c).symm)⟩

theorem Resolves.get : Resolves (MonadState.get : Check Checker) some :=
  fun c => WP.get ⟨.refl c, fun visible h _ => ⟨visible, rfl, h⟩⟩

theorem Resolves.forIn {γ : Type} {f : γ → PUnit → Check (ForInStep PUnit)}
    (hf : ∀ a, Resolves (f a ⟨⟩) some) :
    ∀ as : List γ, Resolves (ForIn.forIn as PUnit.unit f) some
  | [] => .pure
  | a :: as => by
    rw [List.forIn_cons]
    refine (hf a).after fun step => ?_
    cases step with
    | done => exact .pure
    | yield => exact forIn hf as

end

/-! ## Reports and bindings -/

theorem report_resolves {f : Finding} {span : Option Span} : Resolves (report f span) some :=
  fun _ => WP.modify ⟨⟨List.prefix_append _ _, Nat.le_refl _, rfl⟩,
    fun visible h _ => ⟨visible, rfl, h⟩⟩

/-- After the report of a name that means nothing there is nothing to show. -/
theorem reportUnbound_resolves {name : String} {span : Option Span}
    {next : List String → Option (List String)} : Resolves (report (.unbound name) span) next :=
  fun _ => WP.modify ⟨⟨List.prefix_append _ _, Nat.le_refl _, rfl⟩, fun _ _ hd =>
    absurd rfl (hd _ (List.mem_append_right _ (List.mem_singleton_self _)))⟩

/-- Reporting something on a condition, before the rest. -/
theorem reportIf_resolves {p : Prop} [Decidable p] {f : Finding} {span : Option Span}
    {rest : PUnit → Check α} {next : List String → Option (List String)}
    (h : Resolves (rest ⟨⟩) next) :
    Resolves (if p then report f span >>= rest else rest ⟨⟩) next := by
  split_ifs
  · exact report_resolves.after fun _ => h
  · exact h

/-- Reporting something about every item that a condition holds of. -/
theorem reportEach_resolves {γ : Type} {p : γ → Prop} [DecidablePred p] {f : γ → Finding}
    {span : γ → Option Span} (as : List γ) :
    Resolves (ForIn.forIn as PUnit.unit fun a _ => do
      if p a then report (f a) (span a)
      return ForInStep.yield PUnit.unit) some := by
  refine Resolves.forIn (fun a => ?_) as
  dsimp only
  split_ifs
  · exact report_resolves.after fun _ => .pure
  · exact .pure

theorem mismatch_resolves {f : Finding} {span : Option Span} : Resolves (mismatch f span) some :=
  report_resolves.after fun _ => .pure

theorem modifyBinding_resolves (i : Nat) (f : Binding → Binding) :
    Resolves (modifyBinding i f) some :=
  .modify (fun _ => rfl) (fun _ => rfl) fun _ => by simp [Scopes.modify]

theorem define_resolves (name : String) (b : Binding) :
    Resolves (define name b) fun visible => some (name :: visible) := fun c => by
  refine ⟨⟨List.prefix_rfl, ?_, ?_⟩, fun visible h _ => ⟨_, rfl, h.define name b⟩⟩
  · exact (Scopes.size_define name b).symm ▸ Nat.le_succ _
  · obtain ⟨top, outer, hs, hd⟩ := c.scopes.all_define name b
    exact (congrArg List.tail hd).trans (congrArg List.tail hs).symm

theorem resolve_resolves (name : String) : Resolves (resolve name) some :=
  Resolves.get.after fun _ => .pure

/-- Going on with the binding that a name means: if it means one, it is visible. -/
theorem resolved_resolves {name : String} {rest : Option (Nat × Binding) → Check β}
    {next later : List String → Option (List String)} (hsome : ∀ p, Resolves (rest (some p)) later)
    (hl : ∀ visible, name ∈ visible → later visible = next visible)
    (hnone : Resolves (rest none) next) : Resolves (resolve name >>= rest) next := fun c => by
  refine WP.bind (WP.bind (WP.get (WP.pure ?_)))
  cases hn : (c.scopes.resolve name).bind fun i => (c.scopes.binding? i).map (i, ·) with
  | none => exact hnone c
  | some p =>
    refine WP.mono (hsome p c) fun _ d ⟨grown, shown⟩ => ⟨grown, fun visible h hd => ?_⟩
    obtain ⟨i, hi, -⟩ := Option.bind_eq_some_iff.mp hn
    rw [← hl visible ((h.names name).mpr (by rw [hi]; rfl))]
    exact shown visible h hd

/-! ## Scopes -/

/-- Leaving a scope reports, and changes nothing but the scopes. -/
theorem leaveScope_wp (c : Checker) :
    WP leaveScope c (fun _ d => ∃ fs : List (Finding × Option Span),
    (∀ f ∈ fs, f.1.code = .unusedName) ∧ d = { c with
      diagnostics := c.diagnostics ++ fs.map fun f => f.1.diagnostic f.2
      scopes := c.scopes.leave }) fun _ => True := by
  refine WP.bind (WP.get (WP.bind ?_))
  have reported : ∀ (bs : List (String × Binding)) (d : Checker), WP (ForIn.forIn bs PUnit.unit
      fun nb _ => do
        if nb.2.kind = .define ∧ ¬ nb.2.used ∧ nb.1.toList.head? ≠ some '_' then
          report (.unused nb.1) nb.2.span
        return ForInStep.yield PUnit.unit) d
      (fun _ e => ∃ fs : List (Finding × Option Span), (∀ f ∈ fs, f.1.code = .unusedName) ∧
        e = { d with diagnostics := d.diagnostics ++ fs.map fun f => f.1.diagnostic f.2 })
      fun _ => True := by
    intro bs
    induction bs with
    | nil => exact fun d => WP.pure ⟨[], nofun, by simp⟩
    | cons nb bs ih =>
      intro d
      rw [List.forIn_cons]
      dsimp only
      split_ifs
      · refine WP.bind (WP.bind (WP.modify (WP.pure (WP.mono (ih _) fun _ e h => ?_))))
        obtain ⟨fs, hfs, rfl⟩ := h
        exact ⟨(.unused nb.1, nb.2.span) :: fs, List.forall_mem_cons.mpr ⟨rfl, hfs⟩, by simp⟩
      · exact WP.bind (WP.pure (ih d))
  refine WP.mono (reported _ c) fun _ d ⟨fs, hfs, hd⟩ => WP.modify ⟨fs, hfs, ?_⟩
  rw [hd]

/-- What a scope shows is gone when it is left. -/
theorem inScope_resolves {m : Check α} {next : List String → Option (List String)}
    (hm : Resolves m next) :
    Resolves (inScope m) fun visible => (next visible).map fun _ => visible := fun c => by
  refine WP.bind (WP.modify (WP.bind (WP.mono (hm _) fun a d ⟨grown, shown⟩ => ?_)))
  refine WP.bind (WP.mono (leaveScope_wp d) fun _ e ⟨fs, _, he⟩ => WP.pure ?_)
  have hd : d.diagnostics <+: e.diagnostics := he ▸ List.prefix_append _ _
  have left : e.scopes.all = c.scopes.all := he ▸ Scopes.all_leave grown.around
  have table : c.scopes.table.size ≤ e.scopes.table.size := he ▸ grown.table
  refine ⟨⟨grown.diagnostics.trans hd, table, by rw [left]⟩, fun visible h bound => ?_⟩
  have entered : (c.scopes.enter).Shows visible := by
    refine ⟨fun name => ?_, fun scope hs => ?_⟩
    · rw [h.names]
      rfl
    · rcases List.mem_cons.mp hs with rfl | hs
      · exact fun _ _ => nofun
      · exact h.valid scope hs
  obtain ⟨after, ha, -⟩ := shown visible entered fun x hx => bound x (hd.subset hx)
  exact ⟨visible, by simp [ha], h.congr left table⟩

/-! ## Rules -/

theorem callType_resolves (callee : Ty) (args : List Ty) (span : Option Span) :
    Resolves (callType callee args span) some := by
  unfold callType
  split
  · dsimp only
    split_ifs
    · exact report_resolves.after fun _ => .pure
    · exact (reportEach_resolves _).after fun _ => .pure
  · exact .pure
  · exact .pure
  · exact mismatch_resolves

theorem binaryType_resolves (op : BinaryOperator) (left right : Ty) (span : Option Span) :
    Resolves (binaryType op left right span) some := by
  unfold binaryType
  split
  iterate 2 exact .pure
  iterate 2 exact (reportEach_resolves _).after fun _ => .pure
  iterate 4 exact reportIf_resolves .pure
  split_ifs
  iterate 4 exact .pure
  exact mismatch_resolves

theorem unaryType_resolves (op : UnaryOperator) (operand : Ty) (span : Option Span) :
    Resolves (unaryType op operand span) some := by
  unfold unaryType
  split
  · exact reportIf_resolves .pure
  · split_ifs
    · exact .pure
    · exact mismatch_resolves

theorem referenceType_resolves (name : String) (default : Option String)
    (span place : Option Span) :
    Resolves (referenceType name default span)
      fun visible => (Node.reference place name default).resolve? visible := by
  have used {t : Ty} (i : Nat) : Resolves (do use i; return t) some :=
    (modifyBinding_resolves _ _).after fun _ => .pure
  cases default with
  | none =>
    refine resolved_resolves (fun p => used p.1) (fun visible h => ?_) ?_
    · simp only [Node.resolve?, if_pos h]
    · exact reportUnbound_resolves.before fun _ => .pure
  | some d => exact resolved_resolves (fun p => used p.1) (fun _ _ => rfl) .pure

theorem defineType_resolves (name : String) (declared : Option Ty) (found : Ty)
    (span valueSpan : Option Span) :
    Resolves (defineType name declared found span valueSpan)
      fun visible => some (name :: visible) := by
  have defined : Resolves (do
      let _ ← define name ⟨declared.getD found, declared, .define, span, false⟩
      return declared.getD found) fun visible => some (name :: visible) :=
    (define_resolves _ _).before fun _ => .pure
  unfold defineType
  cases declared with
  | none => exact defined
  | some t => exact reportIf_resolves defined

theorem assignType_resolves (name : String) (found : Ty) (span valueSpan : Option Span) :
    Resolves (assignType name found span valueSpan)
      fun visible => if name ∈ visible then some visible else none := by
  refine resolved_resolves (fun p => ?_) (fun visible h => (if_pos h).symm) ?_
  · dsimp only
    split
    · exact reportIf_resolves .pure
    · exact (modifyBinding_resolves _ _).after fun _ => .pure
  · exact reportUnbound_resolves.before fun _ => .pure

theorem commandType_resolves (place : Nat) (target : Option Nat) (hasEnv : Bool) (args : List Ty)
    (span : Option Span) : Resolves (commandType place target hasEnv args span) some := by
  refine Resolves.get.after fun c => ?_
  dsimp only
  split
  · exact .pure
  · have called : Resolves (modify fun c =>
        { c with notes := c.notes.modify place ({ · with isCall := true }) } : Check PUnit) some :=
      .modify (fun _ => rfl) (fun _ => rfl) (fun _ => rfl)
    split_ifs
    · exact (modifyBinding_resolves _ _).after fun _ => called.after fun _ =>
        callType_resolves _ _ _
    · exact (modifyBinding_resolves _ _).after fun _ => .pure
    · exact .pure

/-! ## Nodes -/

theorem noted_resolves {kind : String} {span : Option Span} {infer : Nat → Check Ty}
    {next : List String → Option (List String)} (h : ∀ place, Resolves (infer place) next) :
    Resolves (noted kind span infer) next := by
  refine Resolves.get.after fun c => ?_
  refine Resolves.after (.modify (fun _ => rfl) (fun _ => rfl) (fun _ => rfl)) fun _ => ?_
  refine (h _).before fun t => Resolves.get.after fun d => ?_
  split
  · exact .throw
  · exact Resolves.after (.modify (fun _ => rfl) (fun _ => rfl) (fun _ => rfl)) fun _ => .pure

/-- The parameters of a function, then its body. -/
theorem params_resolves (params : List Param) :
    Resolves (ForIn.forIn params PUnit.unit fun p _ => do
      let t ← noted "Param" p.span fun _ => return p.declared.getD .dynamic
      let _ ← define p.name ⟨t, p.declared, .param, p.span, false⟩
      return ForInStep.yield PUnit.unit)
      fun visible => some ((params.map (·.name)).reverse ++ visible) := by
  induction params with
  | nil => exact .pure
  | cons p params ih =>
    simp only [List.forIn_cons, bind_assoc, pure_bind]
    have rest (visible : List String) : ((p :: params).map (·.name)).reverse ++ visible =
        (params.map (·.name)).reverse ++ p.name :: visible := by simp
    simp only [rest]
    exact (noted_resolves fun _ => .pure).after fun t => (define_resolves _ _).bind fun _ => ih

/-- The body of a function sees the parameters, and defines nothing outside. -/
theorem body_resolves (params : List Param) (bodySpan : Option Span) {m : Check Ty}
    {next : List String → Option (List String)} (hm : Resolves m next) :
    Resolves (inScope do
      for p in params do
        let t ← noted "Param" p.span fun _ => return p.declared.getD .dynamic
        let _ ← define p.name ⟨t, p.declared, .param, p.span, false⟩
      modify fun c => { c with returns := [] :: c.returns }
      let bodyType ← noted "Block" bodySpan fun _ => m
      let returned := (← get).returns.head?.getD []
      modify fun c => { c with returns := c.returns.drop 1 }
      return (bodyType, returned))
      fun visible => (next ((params.map (·.name)).reverse ++ visible)).map fun _ => visible := by
  have block : Resolves (do
      modify fun c => { c with returns := [] :: c.returns }
      let bodyType ← noted "Block" bodySpan fun _ => m
      let returned := (← get).returns.head?.getD []
      modify fun c => { c with returns := c.returns.drop 1 }
      return (bodyType, returned)) next := by
    refine Resolves.after (.modify (fun _ => rfl) (fun _ => rfl) (fun _ => rfl)) fun _ => ?_
    refine (noted_resolves fun _ => hm).before fun t => Resolves.get.after fun d => ?_
    exact Resolves.after (.modify (fun _ => rfl) (fun _ => rfl) (fun _ => rfl)) fun _ => .pure
  exact inScope_resolves ((params_resolves params).bind fun _ => block)

theorem ret_resolves {span : Option Span} {m : Check Ty} {next : List String → Option (List String)}
    (hm : Resolves m next) : Resolves (do
      if (← get).returns.isEmpty then
        report .returnOutside span
        throw (.returnOutside span)
      let found ← m
      modify fun c => { c with returns := (c.returns.head?.getD [] ++ [found]) :: c.returns.drop 1 }
      return found : Check Ty) next := by
  refine Resolves.get.after fun c => ?_
  dsimp only
  split_ifs
  · exact report_resolves.after fun _ => .thrown
  · refine hm.before fun t => ?_
    exact Resolves.after (.modify (fun _ => rfl) (fun _ => rfl) (fun _ => rfl)) fun _ => .pure

mutual

theorem node_resolves (n : Node) : Resolves (node n) n.resolve? := by
  cases n with
  | literal | parameter | blank => exact noted_resolves fun _ => .pure
  | reference => exact noted_resolves fun _ => referenceType_resolves _ _ _ _
  | interpolation span parts =>
    exact noted_resolves fun _ => (checkParts_resolves parts).before fun _ => .pure
  | substitution span body =>
    exact noted_resolves fun _ => (inScope_resolves (checkAll_resolves body)).before fun _ => .pure
  | binding b =>
    obtain ⟨span, name, value⟩ := b
    exact noted_resolves fun _ => (node_resolves value).before fun _ => .pure
  | command span env name args =>
    refine noted_resolves fun _ => (checkBindings_resolves env).bind fun _ => ?_
    refine (resolve_resolves name).after fun _ => (checkAll_resolves args).before fun _ => ?_
    exact commandType_resolves _ _ _ _ _
  | call span callee args =>
    refine noted_resolves fun _ => (node_resolves callee).bind fun _ => ?_
    exact (checkAll_resolves args).before fun _ => callType_resolves _ _ _
  | conditional span condition thenBranch elseBranch =>
    cases elseBranch with
    | none =>
      refine noted_resolves fun _ => (node_resolves condition).bind fun _ => reportIf_resolves ?_
      exact (node_resolves thenBranch).before fun _ => Resolves.pure.after fun _ => .pure
    | some e =>
      refine noted_resolves fun _ => (node_resolves condition).bind fun _ => reportIf_resolves ?_
      exact (node_resolves thenBranch).bind fun _ => (node_resolves e).before fun _ => .pure
  | block span body =>
    exact noted_resolves fun _ => (inScope_resolves (checkAll_resolves body)).before fun _ => .pure
  | function span name params returns bodySpan body =>
    have inside := body_resolves params bodySpan
      ((inScope_resolves (checkAll_resolves body)).before fun types => .pure (a := lastType types))
    simp only [Option.map_map, Function.comp_def] at inside
    refine noted_resolves fun _ => ?_
    dsimp only
    cases name
    case' none => refine Resolves.after .pure fun self => ?_
    case' some name =>
      refine @Resolves.bind _ _ _ (fun visible => some (name :: visible)) (fun outside =>
        (Node.resolveAll? ((params.map (·.name)).reverse ++ outside) body).map fun _ => outside) _
        (define_resolves name _).map fun self => ?_
    all_goals
      refine inside.before fun _ => ?_
      cases returns with
      | some t => exact (reportEach_resolves _).after fun _ => .pure
      | none =>
        cases self with
        | none => exact .pure
        | some i => exact (modifyBinding_resolves _ _).after fun _ => .pure
  | binary span op left right =>
    refine noted_resolves fun _ => (node_resolves left).bind fun _ => ?_
    exact (node_resolves right).before fun _ => binaryType_resolves _ _ _ _
  | unary span op operand =>
    exact noted_resolves fun _ => (node_resolves operand).before fun _ => unaryType_resolves _ _ _
  | ret span value =>
    cases value with
    | none => exact noted_resolves fun _ => ret_resolves .pure
    | some n => exact noted_resolves fun _ => ret_resolves (node_resolves n)
  | define span name declared value =>
    exact noted_resolves fun _ => (node_resolves value).bind fun _ => defineType_resolves _ _ _ _ _
  | assign span name value =>
    exact noted_resolves fun _ => (node_resolves value).bind fun _ => assignType_resolves _ _ _ _
  | program span body =>
    exact noted_resolves fun _ => (checkAll_resolves body).before fun _ => .pure

theorem checkAll_resolves :
    ∀ ns : List Node, Resolves (checkAll ns) fun visible => Node.resolveAll? visible ns
  | [] => .pure
  | n :: ns => (node_resolves n).bind fun _ => (checkAll_resolves ns).before fun _ => .pure

theorem checkBindings_resolves : ∀ bs : List EnvBinding,
    Resolves (checkBindings bs) fun visible => Node.resolveBindings? visible bs
  | [] => .pure
  | .mk _ _ value :: bs =>
    (noted_resolves fun _ => (node_resolves value).before fun _ => .pure).bind fun _ =>
      checkBindings_resolves bs

theorem checkParts_resolves :
    ∀ ps : List Part, Resolves (checkParts ps) fun visible => Node.resolveParts? visible ps
  | [] => .pure
  | .text _ :: ps => checkParts_resolves ps
  | .node n :: ps => (node_resolves n).bind fun _ => checkParts_resolves ps

end

end Check

/-- A tree that was checked without a report of a name that means nothing refers to visible names
alone. -/
theorem resolve?_of_check {n : Node} {t : Ty}
    (h : (check n Scopes.empty n.blankNotes).outcome = .ok t)
    (hd : ∀ d ∈ (check n Scopes.empty n.blankNotes).diagnostics, d.code ≠ .unboundName) :
    ∃ after, n.resolve? [] = some after := by
  have checked := Check.node_resolves n ⟨Scopes.empty, [], [], n.blankNotes, 0⟩
  unfold Check.WP at checked
  unfold check at h hd
  rcases e : (Check.node n).run ⟨Scopes.empty, [], [], n.blankNotes, 0⟩ with ⟨f | t, c⟩
  · rw [e] at h
    cases h
  · rw [e] at checked hd
    obtain ⟨after, ha, -⟩ := checked.2 [] Scopes.shows_empty hd
    exact ⟨after, ha⟩

end Sigil
