import Mathlib.Tactic.SplitIfs
import Sigil.Proofs.Node.Returns
import Sigil.Typing

/-!
# Returns and places in checking

Checking gives every node a place of its own (`Passes`), so that none is given
a type twice; and it stops exactly at a `return` outside of every function.
`check_cases` puts the two together: a tree that was checked without a fault
has no `return` outside of its functions.

A step of the checker is `Sound` if it takes the checker to where it may go;
the steps that a `return` may be among are marked by a flag. There is a rule
for each way of putting steps together, and a lemma for each form of node.
-/

namespace Sigil

namespace Checker

/-- The type noted at a place. -/
def typeAt (c : Checker) (i : Nat) : Option Ty :=
  c.notes[i]?.bind (·.type)

/-- No type is noted from the next place on. -/
def Blank (c : Checker) : Prop :=
  ∀ i, c.next ≤ i → c.typeAt i = none

/-- Checking may go from `c` to `d`: the types noted before stay, those after `d` are still to come,
and as many functions are around. -/
structure Passes (c d : Checker) : Prop where
  next : c.next ≤ d.next
  kept : ∀ i < c.next, d.typeAt i = c.typeAt i
  blank : d.Blank
  depth : d.returns.length = c.returns.length

theorem Passes.refl {c : Checker} (h : c.Blank) : c.Passes c :=
  ⟨Nat.le_refl _, fun _ _ => rfl, h, rfl⟩

theorem Passes.trans {c d e : Checker} (h : c.Passes d) (k : d.Passes e) : c.Passes e where
  next := Nat.le_trans h.next k.next
  kept i hi := (k.kept i (Nat.lt_of_lt_of_le hi h.next)).trans (h.kept i hi)
  blank := k.blank
  depth := k.depth.trans h.depth

theorem Passes.returns_eq_nil {c d : Checker} (h : c.Passes d) (hc : c.returns = []) :
    d.returns = [] :=
  List.length_eq_zero_iff.mp (by rw [h.depth, hc, List.length_nil])

/-- A change of scopes and diagnostics alone. -/
theorem Blank.passes {c d : Checker} (h : c.Blank) (hn : d.next = c.next)
    (ht : ∀ i, d.typeAt i = c.typeAt i) (hr : d.returns.length = c.returns.length) :
    c.Passes d where
  next := Nat.le_of_eq hn.symm
  kept i _ := ht i
  blank i hi := (ht i).trans (h i (hn ▸ hi))
  depth := hr

/-- A note is changed at its place alone. -/
theorem typeAt_modify (c : Checker) (place : Nat) (f : Note → Note) (i : Nat) :
    ({ c with notes := c.notes.modify place f } : Checker).typeAt i =
      if place = i then (c.notes[i]?.map f).bind (·.type) else c.typeAt i := by
  simp only [typeAt, Array.getElem?_modify]
  split_ifs <;> rfl

/-- That a command is a call is noted beside its type. -/
theorem typeAt_isCall (c : Checker) (place i : Nat) :
    ({ c with notes := c.notes.modify place ({ · with isCall := true }) } : Checker).typeAt i =
      c.typeAt i := by
  rw [typeAt_modify, typeAt]
  split_ifs
  · cases c.notes[i]? <;> rfl
  · rfl

end Checker

namespace Check

open Checker

variable {α β : Type}

/-- How a step of the checker goes on from a state: with a result as `Q` says, or it stops as `E`
says. -/
def WP (m : Check α) (c : Checker) (Q : α → Checker → Prop) (E : BindFault → Prop) : Prop :=
  match m.run c with
  | (.ok a, d) => Q a d
  | (.error f, _) => E f

section

variable {m : Check α} {c : Checker} {Q : α → Checker → Prop} {E : BindFault → Prop}

theorem WP.mono {R : α → Checker → Prop} (h : WP m c Q E) (hQ : ∀ a d, Q a d → R a d) :
    WP m c R E := by
  unfold WP at h ⊢
  split <;> rename_i e <;> rw [e] at h
  · exact hQ _ _ h
  · exact h

theorem WP.pure {a : α} (h : Q a c) : WP (Pure.pure a) c Q E := h

theorem WP.throw {f : BindFault} (h : E f) : WP (MonadExcept.throw f : Check α) c Q E := h

theorem WP.bind {f : α → Check β} {R : β → Checker → Prop}
    (h : WP m c (fun a d => WP (f a) d R E) E) : WP (m >>= f) c R E := by
  rcases hm : m.run c with ⟨r, d⟩
  have run : (m >>= f).run c = ExceptT.bindCont f r d := by
    change ExceptT.bindCont f (m.run c).1 (m.run c).2 = _
    rw [hm]
  unfold WP at h ⊢
  rw [hm] at h
  rw [run]
  cases r <;> exact h

theorem WP.get {Q : Checker → Checker → Prop} (h : Q c c) :
    WP (MonadState.get : Check Checker) c Q E := h

theorem WP.modify {Q : PUnit → Checker → Prop} {f : Checker → Checker} (h : Q ⟨⟩ (f c)) :
    WP (modify f : Check PUnit) c Q E := h

end

/-! ## Sound steps -/

/-- The fault of a `return` outside of every function. -/
def IsMisplaced (f : BindFault) : Prop :=
  ∃ span, f = .returnOutside span

/-- A step keeps to its places and stops only at a misplaced `return`; `returns` says that a
`return` belongs to a function around it, so that there has to be one. -/
def Sound (returns : Bool) (m : Check α) : Prop :=
  ∀ c : Checker, c.Blank →
    WP m c (fun _ d => c.Passes d ∧ (c.returns = [] → returns = false)) IsMisplaced

variable {m : Check α} {r s : Bool}

theorem Sound.pure {a : α} : Sound false (Pure.pure a : Check α) :=
  fun _ hc => WP.pure ⟨.refl hc, fun _ => rfl⟩

theorem Sound.bind {f : α → Check β} (hm : Sound r m) (hf : ∀ a, Sound s (f a)) :
    Sound (r || s) (m >>= f) := fun c hc => by
  refine WP.bind (WP.mono (hm c hc) fun a d hd => ?_)
  refine WP.mono (hf a d hd.1.blank) fun _ e he => ⟨hd.1.trans he.1, fun h => ?_⟩
  rw [hd.2 h, he.2 (hd.1.returns_eq_nil h), Bool.or_self]

/-- A step after one without a `return`. -/
theorem Sound.after {m : Check α} {f : α → Check β} (hm : Sound false m)
    (hf : ∀ a, Sound r (f a)) : Sound r (m >>= f) :=
  Bool.false_or r ▸ hm.bind hf

/-- A step before one without a `return`. -/
theorem Sound.before {f : α → Check β} (hm : Sound r m) (hf : ∀ a, Sound false (f a)) :
    Sound r (m >>= f) :=
  Bool.or_false r ▸ hm.bind hf

theorem Sound.map {f : α → β} (hm : Sound r m) : Sound r (f <$> m) := by
  rw [map_eq_pure_bind]
  exact hm.before fun _ => .pure

/-- A step that changes scopes and diagnostics alone. -/
theorem Sound.modify {f : Checker → Checker} (hn : ∀ c, (f c).next = c.next)
    (ht : ∀ c i, (f c).typeAt i = c.typeAt i) (hr : ∀ c, (f c).returns = c.returns) :
    Sound false (modify f : Check PUnit) :=
  fun c hc => WP.modify ⟨hc.passes (hn c) (ht c) (by rw [hr]), fun _ => rfl⟩

theorem Sound.get : Sound false (MonadState.get : Check Checker) :=
  fun _ hc => WP.get ⟨.refl hc, fun _ => rfl⟩

theorem Sound.forIn {γ : Type} {f : γ → PUnit → Check (ForInStep PUnit)}
    (hf : ∀ a, Sound false (f a ⟨⟩)) :
    ∀ as : List γ, Sound false (ForIn.forIn as PUnit.unit f)
  | [] => .pure
  | a :: as => by
    rw [List.forIn_cons]
    refine (hf a).after fun step => ?_
    cases step with
    | done => exact .pure
    | yield => exact forIn hf as

theorem report_sound (f : Finding) (span : Option Span) : Sound false (report f span) :=
  .modify (fun _ => rfl) (fun _ _ => rfl) (fun _ => rfl)

/-- Reporting something on a condition, before the rest. -/
theorem reportIf_sound {p : Prop} [Decidable p] {f : Finding} {span : Option Span}
    {rest : PUnit → Check α} (h : Sound r (rest ⟨⟩)) :
    Sound r (if p then report f span >>= rest else rest ⟨⟩) := by
  split_ifs
  · exact (report_sound f span).after fun _ => h
  · exact h

/-- Reporting something about every item that a condition holds of. -/
theorem reportEach_sound {γ : Type} {p : γ → Prop} [DecidablePred p] {f : γ → Finding}
    {span : Option Span} (as : List γ) :
    Sound false (ForIn.forIn as PUnit.unit fun a _ => do
      if p a then report (f a) span
      return ForInStep.yield PUnit.unit) := by
  refine Sound.forIn (fun a => ?_) as
  dsimp only
  split_ifs
  · exact (report_sound _ _).after fun _ => .pure
  · exact .pure

theorem mismatch_sound (f : Finding) (span : Option Span) : Sound false (mismatch f span) :=
  (report_sound f span).after fun _ => .pure

theorem resolve_sound (name : String) : Sound false (resolve name) :=
  Sound.get.after fun _ => .pure

theorem modifyBinding_sound (i : Nat) (f : Binding → Binding) : Sound false (modifyBinding i f) :=
  .modify (fun _ => rfl) (fun _ _ => rfl) (fun _ => rfl)

theorem define_sound (name : String) (b : Binding) : Sound false (define name b) :=
  fun _ hc => ⟨hc.passes rfl (fun _ => rfl) rfl, fun _ => rfl⟩

theorem leaveScope_sound : Sound false leaveScope := by
  refine Sound.get.after fun c => (Sound.forIn (fun a => ?_) _).after fun _ =>
    .modify (fun _ => rfl) (fun _ _ => rfl) (fun _ => rfl)
  obtain ⟨name, b⟩ := a
  dsimp only
  split_ifs
  · exact (report_sound _ _).after fun _ => .pure
  · exact .pure

theorem inScope_sound (hm : Sound r m) : Sound r (inScope m) := by
  have entered : Sound false (modify fun c => { c with scopes := c.scopes.enter } : Check PUnit) :=
    .modify (fun _ => rfl) (fun _ _ => rfl) (fun _ => rfl)
  exact entered.after fun _ => hm.before fun _ => leaveScope_sound.after fun _ => .pure

/-! ## Rules -/

theorem callType_sound (callee : Ty) (args : List Ty) (span : Option Span) :
    Sound false (callType callee args span) := by
  unfold callType
  split
  · dsimp only
    split_ifs
    · exact (report_sound _ _).after fun _ => .pure
    · exact (reportEach_sound _).after fun _ => .pure
  · exact .pure
  · exact .pure
  · exact mismatch_sound _ _

theorem binaryType_sound (op : BinaryOperator) (left right : Ty) (span : Option Span) :
    Sound false (binaryType op left right span) := by
  unfold binaryType
  split
  iterate 2 exact .pure
  iterate 2 exact (reportEach_sound _).after fun _ => .pure
  iterate 4 exact reportIf_sound .pure
  split
  · exact .pure
  · split
    · exact .pure
    · split
      · exact .pure
      · exact mismatch_sound _ _

theorem unaryType_sound (op : UnaryOperator) (operand : Ty) (span : Option Span) :
    Sound false (unaryType op operand span) := by
  unfold unaryType
  split
  · exact reportIf_sound .pure
  · split_ifs
    · exact .pure
    · exact mismatch_sound _ _

theorem referenceType_sound (name : String) (default : Option String) (span : Option Span) :
    Sound false (referenceType name default span) := by
  refine (resolve_sound name).after fun b => ?_
  split
  · exact (modifyBinding_sound _ _).after fun _ => .pure
  · exact (modifyBinding_sound _ _).after fun _ => .pure
  · exact (report_sound _ _).after fun _ => .pure
  · exact .pure

theorem defineType_sound (name : String) (declared : Option Ty) (found : Ty)
    (span valueSpan : Option Span) :
    Sound false (defineType name declared found span valueSpan) := by
  have defined : Sound false (do
      let _ ← define name ⟨declared.getD found, declared, .define, span, false⟩
      return declared.getD found) :=
    (define_sound _ _).after fun _ => .pure
  unfold defineType
  cases declared with
  | none => exact defined
  | some t => exact reportIf_sound defined

theorem assignType_sound (name : String) (found : Ty) (span valueSpan : Option Span) :
    Sound false (assignType name found span valueSpan) := by
  refine (resolve_sound name).after fun b => ?_
  dsimp only
  split
  · exact (report_sound _ _).after fun _ => .pure
  · split
    · exact reportIf_sound .pure
    · exact (modifyBinding_sound _ _).after fun _ => .pure

theorem commandType_sound (place : Nat) (target : Option Nat) (hasEnv : Bool) (args : List Ty)
    (span : Option Span) : Sound false (commandType place target hasEnv args span) := by
  refine Sound.get.after fun c => ?_
  dsimp only
  split
  · exact .pure
  · have called : Sound false (modify fun c =>
        { c with notes := c.notes.modify place ({ · with isCall := true }) } : Check PUnit) :=
      .modify (fun _ => rfl) (fun c i => typeAt_isCall c place i) fun _ => rfl
    split_ifs
    · exact (modifyBinding_sound _ _).after fun _ => called.after fun _ => callType_sound _ _ _
    · exact (modifyBinding_sound _ _).after fun _ => .pure
    · exact .pure

/-! ## Nodes -/

/-- A node has no type before its own is found, since its place is passed when the nodes below it
are checked. -/
theorem noted_sound {kind : String} {span : Option Span} {infer : Nat → Check Ty}
    (h : ∀ place, Sound r (infer place)) : Sound r (noted kind span infer) := fun c hc => by
  refine WP.bind (WP.get (WP.bind (WP.modify (WP.bind ?_))))
  have started : ({ c with next := c.next + 1 } : Checker).Blank :=
    fun i hi => hc i (Nat.le_of_succ_le hi)
  refine WP.mono (h c.next _ started) fun t d ⟨hd, hr⟩ => WP.bind (WP.get ?_)
  have place : d.typeAt c.next = none :=
    (hd.kept c.next (Nat.lt_succ_self _)).trans (hc c.next (Nat.le_refl _))
  rw [typeAt] at place
  rw [place]
  refine WP.bind (WP.modify (WP.pure ⟨?_, hr⟩))
  have past : c.next < d.next := hd.next
  refine ⟨Nat.le_of_lt past, fun i hi => ?_, fun i hi => ?_, hd.depth⟩
  · rw [typeAt_modify, if_neg (Nat.ne_of_gt hi)]
    exact hd.kept i (Nat.lt_succ_of_lt hi)
  · rw [typeAt_modify, if_neg (Nat.ne_of_lt (Nat.lt_of_lt_of_le past hi))]
    exact hd.blank i hi

/-- Within a function there is one to return from, whatever its body holds. -/
theorem body_sound {m : Check Ty} (hm : Sound r m) : Sound false (do
    modify fun c => { c with returns := [] :: c.returns }
    let bodyType ← m
    let returned := (← get).returns.head?.getD []
    modify fun c => { c with returns := c.returns.drop 1 }
    return (bodyType, returned)) := fun c hc => by
  refine WP.bind (WP.modify (WP.bind ?_))
  refine WP.mono (hm { c with returns := [] :: c.returns } hc) fun t d ⟨hd, _⟩ => ?_
  refine WP.bind (WP.get (WP.bind (WP.modify (WP.pure ⟨?_, fun _ => rfl⟩))))
  have depth : d.returns.length = c.returns.length + 1 := hd.depth
  exact ⟨hd.next, hd.kept, hd.blank, by simp [depth]⟩

theorem ret_sound {span : Option Span} {m : Check Ty} (hm : Sound r m) : Sound true (do
    if (← get).returns.isEmpty then
      report .returnOutside span
      throw (.returnOutside span)
    let found ← m
    modify fun c => { c with returns := (c.returns.head?.getD [] ++ [found]) :: c.returns.drop 1 }
    return found : Check Ty) := fun c hc => by
  refine WP.bind (WP.get ?_)
  dsimp only
  split_ifs with hr
  · exact WP.bind (WP.modify (WP.bind (WP.throw ⟨span, rfl⟩)))
  · have some_ : c.returns ≠ [] := fun e => hr (by rw [e]; rfl)
    refine WP.bind (WP.mono (hm c hc) fun t d ⟨hd, _⟩ => ?_)
    refine WP.bind (WP.modify (WP.pure ⟨⟨hd.next, hd.kept, hd.blank, ?_⟩, fun e => absurd e some_⟩))
    have := List.length_pos_iff.mpr some_
    have := hd.depth
    simp only [List.length_cons, List.length_drop]
    omega

mutual

theorem node_sound (n : Node) : Sound n.outerReturn (node n) := by
  cases n with
  | literal | parameter | blank => exact noted_sound fun _ => .pure
  | reference => exact noted_sound fun _ => referenceType_sound _ _ _
  | interpolation span parts =>
    exact noted_sound fun _ => (checkParts_sound parts).before fun _ => .pure
  | substitution span body =>
    exact noted_sound fun _ => (inScope_sound (checkAll_sound body)).before fun _ => .pure
  | binding b =>
    obtain ⟨span, name, value⟩ := b
    exact noted_sound fun _ => (node_sound value).before fun _ => .pure
  | command span env name args =>
    refine noted_sound fun _ => (checkBindings_sound env).bind fun _ => ?_
    refine (resolve_sound name).after fun _ => (checkAll_sound args).before fun _ => ?_
    exact commandType_sound _ _ _ _ _
  | call span callee args =>
    refine noted_sound fun _ => (node_sound callee).bind fun _ => ?_
    exact (checkAll_sound args).before fun _ => callType_sound _ _ _
  | conditional span condition thenBranch elseBranch =>
    cases elseBranch with
    | none =>
      refine noted_sound fun _ => (node_sound condition).bind fun _ => reportIf_sound ?_
      exact (node_sound thenBranch).before fun _ => Sound.pure.after fun _ => .pure
    | some elseBranch =>
      rw [Node.outerReturn, Bool.or_assoc]
      refine noted_sound fun _ => (node_sound condition).bind fun _ => reportIf_sound ?_
      exact (node_sound thenBranch).bind fun _ => (node_sound elseBranch).before fun _ => .pure
  | block span body =>
    exact noted_sound fun _ => (inScope_sound (checkAll_sound body)).before fun _ => .pure
  | function span name params returns bodySpan body =>
    refine noted_sound fun _ => ?_
    dsimp only
    cases name
    case' none => refine Sound.after .pure fun self => ?_
    case' some => refine Sound.after (define_sound _ _).map fun self => ?_
    all_goals
      refine Sound.after (inScope_sound ?_) fun _ => ?_
      · refine (Sound.forIn (fun p => ?_) params).after fun _ => ?_
        · exact (noted_sound fun _ => .pure).after fun _ => (define_sound _ _).after fun _ => .pure
        · exact body_sound (noted_sound fun _ =>
            (inScope_sound (checkAll_sound body)).before fun _ => .pure)
      · cases returns with
        | some t => exact (reportEach_sound _).after fun _ => .pure
        | none =>
          cases self with
          | none => exact .pure
          | some i => exact (modifyBinding_sound _ _).after fun _ => .pure
  | binary span op left right =>
    refine noted_sound fun _ => (node_sound left).bind fun _ => ?_
    exact (node_sound right).before fun _ => binaryType_sound _ _ _ _
  | unary span op operand =>
    exact noted_sound fun _ => (node_sound operand).before fun _ => unaryType_sound _ _ _
  | ret span value =>
    cases value with
    | none => exact noted_sound fun _ => ret_sound .pure
    | some n => exact noted_sound fun _ => ret_sound (node_sound n)
  | define span name declared value =>
    exact noted_sound fun _ => (node_sound value).before fun _ => defineType_sound _ _ _ _ _
  | assign span name value =>
    exact noted_sound fun _ => (node_sound value).before fun _ => assignType_sound _ _ _ _
  | program span body =>
    exact noted_sound fun _ => (checkAll_sound body).before fun _ => .pure

theorem checkAll_sound : ∀ ns : List Node, Sound (Node.outerReturnAny ns) (checkAll ns)
  | [] => .pure
  | n :: ns => (node_sound n).bind fun _ => (checkAll_sound ns).before fun _ => .pure

theorem checkBindings_sound :
    ∀ bs : List EnvBinding, Sound (Node.outerReturnBindings bs) (checkBindings bs)
  | [] => .pure
  | .mk _ _ value :: bs =>
    (noted_sound fun _ => (node_sound value).before fun _ => .pure).bind fun _ =>
      checkBindings_sound bs

theorem checkParts_sound : ∀ ps : List Part, Sound (Node.outerReturnParts ps) (checkParts ps)
  | [] => .pure
  | .text _ :: ps => checkParts_sound ps
  | .node n :: ps => (node_sound n).bind fun _ => checkParts_sound ps

end

end Check

theorem Node.typeAt_blankNotes (n : Node) (i : Nat) :
    n.blankNotes[i]?.bind (·.type) = none := by
  rw [blankNotes, Array.getElem?_replicate]
  split <;> rfl

/-- Checking a tree stops only at a `return` outside of every function, and it does so if there is
one. -/
theorem check_cases (n : Node) (scopes : Scopes) :
    match (check n scopes n.blankNotes).outcome with
    | .ok _ => n.outerReturn = false
    | .error f => Check.IsMisplaced f := by
  have h := Check.node_sound n ⟨scopes, [], [], n.blankNotes, 0⟩ fun i _ => n.typeAt_blankNotes i
  unfold Check.WP at h
  unfold check
  rcases e : (Check.node n).run ⟨scopes, [], [], n.blankNotes, 0⟩ with ⟨f | t, c⟩
  · rw [e] at h
    exact h
  · rw [e] at h
    exact h.2 rfl

end Sigil
