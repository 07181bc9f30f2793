import Sigil.Proofs.Typing.Events

/-!
# Checking is complete

Checking goes through all nodes of a tree in the order of `Node.walk`. It comes
to each node once, when its place is the next one and has no type yet, and notes
there the type that it finds for it (`Checker.Visits`). On the way it reports
warnings only, and the one thing that stops it is a return that lies in the body
of no function of the tree, which it reports last (`check_complete`).

A step of the checker `Covers` some nodes if it goes through them in this way;
there is a rule for each way of putting steps together, and a lemma for each
form of node. What a step may stop at is said by a property of spans, which
grows from the nodes below a node to the node (`Node.Misplaces.below`).
-/

namespace Sigil

/-! ## Misplaced returns -/

namespace Node

/-- The body of a function. -/
def functionBody? : Node → Option Node
  | function _ _ _ _ bodySpan body => some (block bodySpan body)
  | _ => none

/-- `m` lies in a tree, and in the body of none of its functions. -/
inductive LiesOutside (m : Node) : Node → Prop
  | self : LiesOutside m m
  | inside {n child : Node} (h : child ∈ n.children) (hb : n.functionBody? ≠ some child)
      (hm : LiesOutside m child) : LiesOutside m n

/-- A return with the span lies in the body of no function of the tree. -/
def Misplaces (n : Node) (span : Option Span) : Prop :=
  ∃ value, (ret span value).LiesOutside n

theorem Misplaces.below {n child : Node} {span : Option Span} (h : child.Misplaces span)
    (hc : child ∈ n.children) (hb : n.functionBody? = none := by rfl) : n.Misplaces span :=
  h.imp fun _ => .inside hc (hb ▸ nofun)

/-- What lies outside of the functions of a node below lies outside of those of the node. -/
theorem outerReturn_of_child {n child : Node} (hc : child ∈ n.children)
    (hb : n.functionBody? ≠ some child) (h : child.outerReturn) : n.outerReturn := by
  cases n with
  | literal | reference | parameter | blank => cases hc
  | substitution _ body | block _ body | program _ body => exact outerReturnAny_of_mem hc h
  | interpolation _ parts =>
    obtain ⟨part, hp, e⟩ := List.mem_filterMap.mp hc
    cases part with
    | text s => cases e
    | node n =>
      cases e
      exact outerReturnParts_of_mem hp h
  | binding b =>
    obtain ⟨span, name, value⟩ := b
    obtain rfl := List.mem_singleton.mp hc
    exact h
  | command _ env _ args =>
    rw [outerReturn, Bool.or_eq_true]
    rcases List.mem_append.mp hc with hc | hc
    · obtain ⟨⟨span, name, value⟩, there, rfl⟩ := List.mem_map.mp hc
      exact .inl (outerReturnBindings_of_mem there h)
    · exact .inr (outerReturnAny_of_mem hc h)
  | call _ callee args =>
    rw [outerReturn, Bool.or_eq_true]
    rcases List.mem_cons.mp hc with rfl | hc
    · exact .inl h
    · exact .inr (outerReturnAny_of_mem hc h)
  | conditional _ condition thenBranch elseBranch =>
    cases elseBranch <;> simp only [children, Option.toList, List.mem_cons, List.not_mem_nil,
      or_false] at hc <;> rcases hc with rfl | rfl | rfl <;> simp [outerReturn, h]
  | function _ _ params _ bodySpan body =>
    rcases List.mem_append.mp hc with hc | hc
    · obtain ⟨p, -, rfl⟩ := List.mem_map.mp hc
      cases h
    · exact absurd (congrArg some (List.mem_singleton.mp hc).symm) hb
  | binary _ _ left right =>
    rw [outerReturn, Bool.or_eq_true]
    rcases List.mem_cons.mp hc with rfl | hc
    · exact .inl h
    · exact .inr (List.mem_singleton.mp hc ▸ h)
  | ret => rfl
  | unary | define | assign => exact List.mem_singleton.mp hc ▸ h

theorem LiesOutside.outerReturn {n m : Node} (h : m.LiesOutside n) (hm : m.outerReturn) :
    n.outerReturn := by
  induction h with
  | self => exact hm
  | inside hc hb _ ih => exact outerReturn_of_child hc hb ih

end Node

/-! ## Steps of the checker -/

namespace Checker

/-- The checker came to a node when `i` was the next place and had no type, and found the type. -/
def Finds (n : Node) (i : Nat) (t : Ty) : Prop :=
  ∃ c : Checker, c.next = i ∧ c.typeAt i = none ∧ ((Check.node n).run c).1 = .ok t

/-- Warnings were reported, and maybe something after them. -/
def Warns (c d : Checker) (last : List Diagnostic) : Prop :=
  ∃ ws, d.diagnostics = c.diagnostics ++ ws ++ last ∧ ∀ w ∈ ws, w.severity = .warning

/-- On the way from `c` to `d` the checker went through some nodes: each has got the place that it
has among them, and the type that was found for it is noted there. -/
structure Visits (ns : List Node) (c d : Checker) : Prop where
  passes : c.Passes d
  count : d.next = c.next + ns.length
  size : d.notes.size = c.notes.size
  typed : ∀ j m, ns[j]? = some m → ∃ t, d.typeAt (c.next + j) = some t ∧ Finds m (c.next + j) t
  warns : c.Warns d []

variable {ns ms : List Node} {c d e : Checker} {last : List Diagnostic}

theorem Warns.trans (h : c.Warns d []) (k : d.Warns e last) : c.Warns e last := by
  obtain ⟨ws, hd, hw⟩ := h
  obtain ⟨vs, he, hv⟩ := k
  refine ⟨ws ++ vs, ?_, fun w hw' => (List.mem_append.mp hw').elim (hw w) (hv w)⟩
  rw [he, hd]
  simp only [List.append_assoc, List.nil_append]

theorem warns_of_eq (h : d.diagnostics = c.diagnostics) : c.Warns d [] :=
  ⟨[], by rw [h]; simp, nofun⟩

theorem Visits.trans (h : c.Visits ns d) (k : d.Visits ms e) : c.Visits (ns ++ ms) e where
  passes := h.passes.trans k.passes
  count := by rw [k.count, h.count, List.length_append, Nat.add_assoc]
  size := k.size.trans h.size
  typed j m hm := by
    by_cases first : j < ns.length
    · rw [List.getElem?_append_left first] at hm
      obtain ⟨t, ht, found⟩ := h.typed j m hm
      have passed : c.next + j < d.next := h.count ▸ Nat.add_lt_add_left first _
      exact ⟨t, (k.passes.kept _ passed).trans ht, found⟩
    · have later : ns.length ≤ j := Nat.le_of_not_lt first
      rw [List.getElem?_append_right later] at hm
      have place : d.next + (j - ns.length) = c.next + j := by rw [h.count]; omega
      exact place ▸ k.typed _ m hm
  warns := h.warns.trans k.warns

/-- No node is gone through by what changes neither places nor types. -/
theorem visits_nil (passes : c.Passes d) (next : d.next = c.next)
    (size : d.notes.size = c.notes.size) (warns : c.Warns d []) : c.Visits [] d :=
  ⟨passes, next, size, nofun, warns⟩

end Checker

namespace Check

open Checker

variable {α β : Type}

/-- A step goes through some nodes, or stops at a misplaced return with a span as `P` says, which is
then reported last. -/
def Covers (ns : List Node) (P : Option Span → Prop) (m : Check α) : Prop :=
  ∀ c : Checker, c.Blank → c.next + ns.length ≤ c.notes.size →
    Meets m c (fun _ d => c.Visits ns d) fun f d => ∃ span, f = .returnOutside span ∧ P span ∧
      c.returns = [] ∧ c.Warns d [Finding.returnOutside.diagnostic span]

variable {m : Check α} {ns ms : List Node} {P Q : Option Span → Prop}

theorem Covers.mono (h : Covers ns P m) (hP : ∀ span, P span → Q span) : Covers ns Q m :=
  fun c hc room => Meets.mono (h c hc room) (fun _ _ => id) fun _ _ =>
    .imp fun span => .imp id (.imp (hP span) id)

theorem Covers.pure {a : α} : Covers [] P (Pure.pure a : Check α) :=
  fun _ hc _ => visits_nil (.refl hc) rfl rfl (warns_of_eq rfl)

theorem Covers.bind {f : α → Check β} (hm : Covers ns P m) (hf : ∀ a, Covers ms P (f a)) :
    Covers (ns ++ ms) P (m >>= f) := fun c hc room => by
  rw [List.length_append, ← Nat.add_assoc] at room
  refine Meets.bind (Meets.mono (hm c hc (Nat.le_of_add_right_le room)) (fun a d hd => ?_)
    fun _ _ => id)
  have left : d.next + ms.length ≤ d.notes.size := by rw [hd.count, hd.size]; exact room
  refine Meets.mono (hf a d hd.passes.blank left) (fun _ _ he => hd.trans he) ?_
  rintro x e ⟨span, rfl, hs, outside, warns⟩
  refine ⟨span, rfl, hs, ?_, hd.warns.trans warns⟩
  exact List.length_eq_zero_iff.mp (by rw [← hd.passes.depth, outside]; rfl)

/-- A step after one that goes through no node. -/
theorem Covers.after {f : α → Check β} (hm : Covers [] P m) (hf : ∀ a, Covers ns P (f a)) :
    Covers ns P (m >>= f) :=
  hm.bind hf

/-- A step before one that goes through no node. -/
theorem Covers.before {f : α → Check β} (hm : Covers ns P m) (hf : ∀ a, Covers [] P (f a)) :
    Covers ns P (m >>= f) :=
  List.append_nil ns ▸ hm.bind hf

theorem Covers.map {f : α → β} (hm : Covers ns P m) : Covers ns P (f <$> m) := by
  rw [map_eq_pure_bind]
  exact hm.before fun _ => .pure

/-- A step that changes neither places nor types, and reports nothing. -/
theorem Covers.modify {f : Checker → Checker} (hn : ∀ c, (f c).next = c.next)
    (ht : ∀ c i, (f c).typeAt i = c.typeAt i) (hs : ∀ c, (f c).notes.size = c.notes.size)
    (hr : ∀ c, (f c).returns = c.returns) (hd : ∀ c, (f c).diagnostics = c.diagnostics) :
    Covers [] P (modify f : Check PUnit) := fun c hc _ =>
  visits_nil (hc.passes (hn c) (ht c) (by rw [hr])) (hn c) (hs c) (warns_of_eq (hd c))

theorem Covers.get : Covers [] P (MonadState.get : Check Checker) :=
  fun _ hc _ => visits_nil (.refl hc) rfl rfl (warns_of_eq rfl)

/-- A loop goes through the nodes of each turn. -/
theorem Covers.forIn {γ : Type} {f : γ → PUnit → Check (ForInStep PUnit)} {nodes : γ → List Node}
    (turn : γ → Check PUnit) (hf : ∀ a, f a ⟨⟩ = do turn a; return .yield ⟨⟩)
    (ht : ∀ a, Covers (nodes a) P (turn a)) :
    ∀ as : List γ, Covers (as.flatMap nodes) P (ForIn.forIn as PUnit.unit f)
  | [] => .pure
  | a :: as => by
    rw [List.forIn_cons, List.flatMap_cons, hf, bind_assoc]
    exact (ht a).bind fun _ => forIn turn hf ht as

/-- A loop that goes through no node. -/
theorem Covers.forIn_nil {γ : Type} {f : γ → PUnit → Check (ForInStep PUnit)}
    (turn : γ → Check PUnit) (hf : ∀ a, f a ⟨⟩ = do turn a; return .yield ⟨⟩)
    (ht : ∀ a, Covers [] P (turn a)) (as : List γ) :
    Covers [] P (ForIn.forIn as PUnit.unit f) := by
  have none : as.flatMap (fun _ => ([] : List Node)) = [] :=
    List.flatMap_eq_nil_iff.mpr fun _ _ => rfl
  have loop : Covers (as.flatMap fun _ => []) P (ForIn.forIn as PUnit.unit f) :=
    Covers.forIn turn hf ht as
  rwa [none] at loop

/-! ## Reports and bindings -/

/-- Reporting anything but a misplaced return. -/
theorem report_covers {f : Finding} {span : Option Span} (h : f.severity = .warning) :
    Covers [] P (report f span) := fun _ hc _ =>
  visits_nil (hc.passes rfl (fun _ => rfl) rfl) rfl rfl
    ⟨[f.diagnostic span], (List.append_nil _).symm, List.forall_mem_singleton.mpr h⟩

/-- Reporting something on a condition, before the rest. -/
theorem reportIf_covers {p : Prop} [Decidable p] {f : Finding} {span : Option Span}
    {rest : PUnit → Check α} (hf : f.severity = .warning) (h : Covers ns P (rest ⟨⟩)) :
    Covers ns P (if p then report f span >>= rest else rest ⟨⟩) := by
  split_ifs
  · exact (report_covers hf).after fun _ => h
  · exact h

/-- Reporting something about every item that a condition holds of. -/
theorem reportEach_covers {γ : Type} {p : γ → Prop} [DecidablePred p] {f : γ → Finding}
    {span : γ → Option Span} (hf : ∀ a, (f a).severity = .warning) (as : List γ) :
    Covers [] P (ForIn.forIn as PUnit.unit fun a _ => do
      if p a then report (f a) (span a)
      return ForInStep.yield PUnit.unit) := by
  refine Covers.forIn_nil (fun a => if p a then report (f a) (span a) else Pure.pure ⟨⟩)
    (fun a => ?_) (fun a => ?_) as
  · dsimp only
    split_ifs
    · rfl
    · rw [pure_bind]
  · split_ifs
    · exact report_covers (hf a)
    · exact .pure

theorem mismatch_covers {f : Finding} {span : Option Span} (h : f.severity = .warning) :
    Covers [] P (mismatch f span) :=
  (report_covers h).after fun _ => .pure

theorem resolve_covers (name : String) : Covers [] P (resolve name) :=
  Covers.get.after fun _ => .pure

theorem modifyBinding_covers (i : Nat) (f : Binding → Binding) :
    Covers [] P (modifyBinding i f) :=
  .modify (fun _ => rfl) (fun _ _ => rfl) (fun _ => rfl) (fun _ => rfl) fun _ => rfl

theorem define_covers (name : String) (b : Binding) : Covers [] P (define name b) :=
  fun _ hc _ => visits_nil (hc.passes rfl (fun _ => rfl) rfl) rfl rfl (warns_of_eq rfl)

theorem leaveScope_covers : Covers [] P leaveScope := by
  have left : Covers [] P (modify fun c => { c with scopes := c.scopes.leave } : Check PUnit) :=
    .modify (fun _ => rfl) (fun _ _ => rfl) (fun _ => rfl) (fun _ => rfl) fun _ => rfl
  refine Covers.get.after fun c => ?_
  exact (reportEach_covers (f := fun (r : String × Binding) => .unused r.1) (fun _ => rfl) _).after
    fun _ => left

theorem inScope_covers (hm : Covers ns P m) : Covers ns P (inScope m) := by
  have entered : Covers [] P
      (modify fun c => { c with scopes := c.scopes.enter } : Check PUnit) :=
    .modify (fun _ => rfl) (fun _ _ => rfl) (fun _ => rfl) (fun _ => rfl) fun _ => rfl
  exact entered.after fun _ => hm.before fun _ => leaveScope_covers.after fun _ => .pure

/-! ## Rules -/

theorem callType_covers (callee : Ty) (args : List Ty) (span : Option Span) :
    Covers [] P (callType callee args span) := by
  unfold callType
  split
  · dsimp only
    split_ifs
    · exact (report_covers rfl).after fun _ => .pure
    · exact (reportEach_covers (fun _ => rfl) _).after fun _ => .pure
  · exact .pure
  · exact .pure
  · exact mismatch_covers rfl

theorem binaryType_covers (op : BinaryOperator) (left right : Ty) (span : Option Span) :
    Covers [] P (binaryType op left right span) := by
  unfold binaryType
  split
  iterate 2 exact .pure
  iterate 2 exact (reportEach_covers (fun _ => rfl) _).after fun _ => .pure
  iterate 4 exact reportIf_covers rfl .pure
  split_ifs
  iterate 4 exact .pure
  exact mismatch_covers rfl

theorem unaryType_covers (op : UnaryOperator) (operand : Ty) (span : Option Span) :
    Covers [] P (unaryType op operand span) := by
  unfold unaryType
  split
  · exact reportIf_covers rfl .pure
  · split_ifs
    · exact .pure
    · exact mismatch_covers rfl

theorem referenceType_covers (name : String) (default : Option String) (span : Option Span) :
    Covers [] P (referenceType name default span) := by
  refine (resolve_covers name).after fun b => ?_
  split
  · exact (modifyBinding_covers _ _).after fun _ => .pure
  · exact (modifyBinding_covers _ _).after fun _ => .pure
  · exact (report_covers rfl).after fun _ => .pure
  · exact .pure

theorem defineType_covers (name : String) (declared : Option Ty) (found : Ty)
    (span valueSpan : Option Span) :
    Covers [] P (defineType name declared found span valueSpan) := by
  have defined : Covers [] P (do
      let _ ← define name ⟨declared.getD found, declared, .define, span, false⟩
      return declared.getD found) :=
    (define_covers _ _).after fun _ => .pure
  unfold defineType
  cases declared with
  | none => exact defined
  | some t => exact reportIf_covers rfl defined

theorem assignType_covers (name : String) (found : Ty) (span valueSpan : Option Span) :
    Covers [] P (assignType name found span valueSpan) := by
  refine (resolve_covers name).after fun b => ?_
  dsimp only
  split
  · exact (report_covers rfl).after fun _ => .pure
  · split
    · exact reportIf_covers rfl .pure
    · exact (modifyBinding_covers _ _).after fun _ => .pure

theorem commandType_covers (place : Nat) (target : Option Nat) (hasEnv : Bool) (args : List Ty)
    (span : Option Span) : Covers [] P (commandType place target hasEnv args span) := by
  refine Covers.get.after fun c => ?_
  dsimp only
  split
  · exact .pure
  · have called : Covers [] P (modify fun c =>
        { c with notes := c.notes.modify place ({ · with isCall := true }) } : Check PUnit) :=
      .modify (fun _ => rfl) (fun c i => typeAt_isCall c place i) (fun _ => Array.size_modify)
        (fun _ => rfl) fun _ => rfl
    split_ifs
    · exact (modifyBinding_covers _ _).after fun _ => called.after fun _ => callType_covers _ _ _
    · exact (modifyBinding_covers _ _).after fun _ => .pure
    · exact .pure

/-! ## Nodes -/

/-- A node is gone through before the nodes below it; its type is noted after theirs. -/
theorem noted_meets (kind : String) (span : Option Span) {infer : Nat → Check Ty}
    (h : ∀ place, Covers ns P (infer place)) {c : Checker} (hc : c.Blank)
    (room : c.next + (ns.length + 1) ≤ c.notes.size) :
    Meets (noted kind span infer) c
      (fun t e => ∃ d, Visits ns { c with next := c.next + 1 } d ∧
        e = { d with notes := d.notes.modify c.next ({ · with type := some t }) })
      fun f d => ∃ span, f = .returnOutside span ∧ P span ∧
        c.returns = [] ∧ c.Warns d [Finding.returnOutside.diagnostic span] := by
  have started : ({ c with next := c.next + 1 } : Checker).Blank :=
    fun i hi => hc i (Nat.le_of_succ_le hi)
  refine Meets.bind (Meets.bind (Meets.bind ?_))
  refine Meets.mono (h c.next _ started (by simp only; omega)) (fun t d hd => ?_) fun _ _ => id
  have place : d.typeAt c.next = none :=
    (hd.passes.kept c.next (Nat.lt_succ_self _)).trans (hc c.next (Nat.le_refl _))
  refine Meets.bind (Meets.get ?_)
  rw [show d.notes[c.next]?.bind (·.type) = none from place]
  exact ⟨d, hd, rfl⟩

theorem noted_covers {n : Node} {kind : String} {span : Option Span} {infer : Nat → Check Ty}
    (hn : node n = noted kind span infer) (h : ∀ place, Covers ns P (infer place)) :
    Covers (n :: ns) P (node n) := fun c hc room => by
  rw [List.length_cons] at room
  have met := noted_meets kind span h hc room
  rw [← hn] at met
  unfold Meets at met ⊢
  rcases run : (node n).run c with ⟨f | t, e⟩ <;> rw [run] at met
  · exact met
  · obtain ⟨d, hd, rfl⟩ := met
    have past : c.next < d.next := hd.passes.next
    have size : d.notes.size = c.notes.size := hd.size
    have elsewhere {i : Nat} (hi : c.next ≠ i) :
        ({ d with notes := d.notes.modify c.next ({ · with type := some t }) } : Checker).typeAt i =
          d.typeAt i := by
      rw [typeAt_modify, if_neg hi]
    refine ⟨⟨Nat.le_of_lt past, fun i hi => ?_, fun i hi => ?_, hd.passes.depth⟩, ?_, ?_, ?_, hd.warns⟩
    · rw [elsewhere (Nat.ne_of_gt hi)]
      exact hd.passes.kept i (Nat.lt_succ_of_lt hi)
    · rw [elsewhere (Nat.ne_of_lt (Nat.lt_of_lt_of_le past hi))]
      exact hd.passes.blank i hi
    · rw [List.length_cons]
      have count : d.next = c.next + 1 + ns.length := hd.count
      simp only
      omega
    · exact Array.size_modify.trans size
    · intro j m hm
      cases j with
      | zero =>
        cases hm
        have here : c.next < d.notes.size := by omega
        refine ⟨t, ?_, c, rfl, hc _ (Nat.le_refl _), by rw [run]⟩
        rw [Nat.add_zero, typeAt_modify, if_pos rfl, Array.getElem?_eq_getElem here]
        rfl
      | succ j =>
        have place : c.next + 1 + j = c.next + (j + 1) := by omega
        obtain ⟨u, hu, found⟩ := hd.typed j m hm
        refine ⟨u, ?_, place ▸ found⟩
        rw [elsewhere (by omega), ← place]
        exact hu

/-- Within a function no return is misplaced, whatever its body holds. -/
theorem body_covers {m : Check Ty} (hm : Covers ns P m) : Covers ns Q (do
    modify fun c => { c with returns := [] :: c.returns }
    let bodyType ← m
    let returned := (← get).returns.head?.getD []
    modify fun c => { c with returns := c.returns.drop 1 }
    return (bodyType, returned)) := fun c hc room => by
  refine Meets.bind (Meets.bind ?_)
  refine Meets.mono (hm { c with returns := [] :: c.returns } hc room) (fun t d hd => ?_) ?_
  · have depth : d.returns.length = c.returns.length + 1 := hd.passes.depth
    refine ⟨⟨hd.passes.next, hd.passes.kept, hd.passes.blank, ?_⟩, hd.count, hd.size, hd.typed,
      hd.warns⟩
    rw [List.length_drop, depth, Nat.add_sub_cancel]
  · rintro f d ⟨span, -, -, outside, -⟩
    cases outside

theorem ret_covers {span : Option Span} {m : Check Ty} (hm : Covers ns P m) (here : P span) :
    Covers ns P (do
      if (← get).returns.isEmpty then
        report .returnOutside span
        throw (.returnOutside span)
      let found ← m
      modify fun c => { c with returns := (c.returns.head?.getD [] ++ [found]) :: c.returns.drop 1 }
      return found : Check Ty) := fun c hc room => by
  refine Meets.bind ?_
  show Meets (if c.returns.isEmpty then _ else _) c _ _
  split_ifs with hr
  · exact ⟨span, rfl, here, List.isEmpty_iff.mp hr, [], by simp, nofun⟩
  · have within : c.returns ≠ [] := fun e => hr (by rw [e]; rfl)
    refine Meets.bind (Meets.mono (hm c hc room) (fun t d hd => ?_) fun _ _ => id)
    refine ⟨⟨hd.passes.next, hd.passes.kept, hd.passes.blank, ?_⟩, hd.count, hd.size, hd.typed,
      hd.warns⟩
    have := List.length_pos_iff.mpr within
    have := hd.passes.depth
    simp only [List.length_cons, List.length_drop]
    omega

/-- The parameters of a function, each with its own definition. -/
theorem params_covers (ps : List Param) : Covers (ps.map Node.parameter) P
    (ForIn.forIn ps PUnit.unit fun p _ => do
      let t ← noted "Param" p.span fun _ => return p.declared.getD .dynamic
      let _ ← define p.name ⟨t, p.declared, .param, p.span, false⟩
      return ForInStep.yield PUnit.unit) := by
  have nodes : ps.map Node.parameter = ps.flatMap fun p => [.parameter p] := by
    rw [List.map_eq_flatMap]
  have one (p : Param) : Covers [.parameter p] P (node (.parameter p)) :=
    noted_covers (by rw [node]) fun _ => .pure
  rw [nodes]
  refine Covers.forIn (fun p => do
    let t ← node (.parameter p)
    let _ ← define p.name ⟨t, p.declared, .param, p.span, false⟩) (fun p => ?_) (fun p => ?_) ps
  · rw [node, bind_assoc]
    rfl
  · exact (one p).before fun _ => (define_covers _ _).map

/-- The body of a function is a block of its own. -/
theorem functionBody_covers (span : Option Span) {body : List Node}
    (h : Covers ns P (checkAll body)) : Covers (.block span body :: ns) P
      (noted "Block" span fun _ => do return lastType (← inScope (checkAll body))) := by
  have block : Covers (.block span body :: ns) P (node (.block span body)) :=
    noted_covers (by rw [node]) fun _ => (inScope_covers h).before fun _ => .pure
  rwa [node] at block

mutual

theorem node_covers (n : Node) : Covers n.walk n.Misplaces (node n) := by
  cases n with
  | literal | parameter | blank => exact noted_covers (by rw [node]) fun _ => .pure
  | reference => exact noted_covers (by rw [node]) fun _ => referenceType_covers _ _ _
  | interpolation span parts =>
    refine noted_covers (by rw [node]) fun _ => ((checkParts_covers parts).mono ?_).before
      fun _ => .pure
    rintro place ⟨n, hn, h⟩
    exact h.below (List.mem_filterMap.mpr ⟨.node n, hn, rfl⟩)
  | substitution span body =>
    refine noted_covers (by rw [node]) fun _ =>
      (inScope_covers ((checkAll_covers body).mono ?_)).before fun _ => .pure
    rintro place ⟨n, hn, h⟩
    exact h.below hn
  | binding b =>
    obtain ⟨span, name, value⟩ := b
    refine noted_covers (by rw [node]) fun _ => ((node_covers value).mono fun _ h => ?_).before
      fun _ => .pure
    exact h.below (List.mem_singleton_self _)
  | command span env name args =>
    refine noted_covers (by rw [node]) fun _ => ((checkBindings_covers env).mono ?_).bind fun _ =>
      (resolve_covers name).after fun _ => ((checkAll_covers args).mono ?_).before fun _ =>
        commandType_covers _ _ _ _ _
    · rintro place ⟨b, hb, h⟩
      exact h.below (List.mem_append_left _ (List.mem_map_of_mem hb))
    · rintro place ⟨n, hn, h⟩
      exact h.below (List.mem_append_right _ hn)
  | call span callee args =>
    refine noted_covers (by rw [node]) fun _ => ((node_covers callee).mono fun _ h => ?_).bind
      fun _ => ((checkAll_covers args).mono ?_).before fun _ => callType_covers _ _ _
    · exact h.below List.mem_cons_self
    · rintro place ⟨n, hn, h⟩
      exact h.below (List.mem_cons_of_mem _ hn)
  | conditional span condition thenBranch elseBranch =>
    cases elseBranch with
    | none =>
      refine noted_covers (by rw [node]) fun _ => ((node_covers condition).mono fun _ h => ?_).bind
        fun _ => reportIf_covers rfl (((node_covers thenBranch).mono fun _ h => ?_).before fun _ =>
          Covers.pure.after fun _ => .pure)
      · exact h.below (by simp [Node.children])
      · exact h.below (by simp [Node.children])
    | some elseBranch =>
      rw [Node.walk, List.append_assoc]
      refine noted_covers (by rw [node]) fun _ => ((node_covers condition).mono fun _ h => ?_).bind
        fun _ => reportIf_covers rfl (((node_covers thenBranch).mono fun _ h => ?_).bind fun _ =>
          ((node_covers elseBranch).mono fun _ h => ?_).before fun _ => .pure)
      · exact h.below (by simp [Node.children])
      · exact h.below (by simp [Node.children])
      · exact h.below (by simp [Node.children])
  | block span body =>
    refine noted_covers (by rw [node]) fun _ =>
      (inScope_covers ((checkAll_covers body).mono ?_)).before fun _ => .pure
    rintro place ⟨n, hn, h⟩
    exact h.below hn
  | function span name params returns bodySpan body =>
    rw [Node.walk]
    refine noted_covers (by rw [node]) fun _ => ?_
    dsimp only
    cases name
    case' none => refine Covers.after .pure fun self => ?_
    case' some => refine Covers.after (define_covers _ _).map fun self => ?_
    all_goals
      refine Covers.before (inScope_covers (.bind (params_covers params) fun _ => ?_)) fun _ => ?_
      · exact body_covers (functionBody_covers bodySpan (checkAll_covers body))
      · cases returns with
        | some t => exact (reportEach_covers (fun _ => rfl) _).after fun _ => .pure
        | none =>
          cases self with
          | none => exact .pure
          | some i => exact (modifyBinding_covers _ _).after fun _ => .pure
  | binary span op left right =>
    refine noted_covers (by rw [node]) fun _ => ((node_covers left).mono fun _ h => ?_).bind
      fun _ => ((node_covers right).mono fun _ h => ?_).before fun _ => binaryType_covers _ _ _ _
    · exact h.below (by simp [Node.children])
    · exact h.below (by simp [Node.children])
  | unary span op operand =>
    refine noted_covers (by rw [node]) fun _ => ((node_covers operand).mono fun _ h => ?_).before
      fun _ => unaryType_covers _ _ _
    exact h.below (List.mem_singleton_self _)
  | ret span value =>
    have here (value : Option Node) : (Node.ret span value).Misplaces span := ⟨value, .self⟩
    cases value with
    | none => exact noted_covers (by rw [node]) fun _ => ret_covers .pure (here none)
    | some n =>
      refine noted_covers (by rw [node]) fun _ =>
        ret_covers ((node_covers n).mono fun _ h => ?_) (here n)
      exact h.below (List.mem_singleton_self _)
  | define span name declared value =>
    refine noted_covers (by rw [node]) fun _ => ((node_covers value).mono fun _ h => ?_).before
      fun _ => defineType_covers _ _ _ _ _
    exact h.below (List.mem_singleton_self _)
  | assign span name value =>
    refine noted_covers (by rw [node]) fun _ => ((node_covers value).mono fun _ h => ?_).before
      fun _ => assignType_covers _ _ _ _
    exact h.below (List.mem_singleton_self _)
  | program span body =>
    refine noted_covers (by rw [node]) fun _ => ((checkAll_covers body).mono ?_).before
      fun _ => .pure
    rintro place ⟨n, hn, h⟩
    exact h.below hn

theorem checkAll_covers : ∀ ns : List Node,
    Covers (Node.walkAll ns) (fun span => ∃ n ∈ ns, n.Misplaces span) (checkAll ns)
  | [] => .pure
  | n :: ns => by
    refine ((node_covers n).mono fun span h => ⟨n, List.mem_cons_self, h⟩).bind fun _ => ?_
    refine ((checkAll_covers ns).mono fun span => ?_).before fun _ => .pure
    exact .imp fun m => .imp_left (List.mem_cons_of_mem n)

theorem checkBindings_covers : ∀ bs : List EnvBinding,
    Covers (Node.walkBindings bs) (fun span => ∃ b ∈ bs, (Node.binding b).Misplaces span)
      (checkBindings bs)
  | [] => .pure
  | .mk span name value :: bs => by
    have one : Covers (.binding (.mk span name value) :: value.walk)
        (Node.binding (.mk span name value)).Misplaces (node (.binding (.mk span name value))) := by
      refine noted_covers (by rw [node]) fun _ => ((node_covers value).mono fun _ h => ?_).before
        fun _ => .pure
      exact h.below (List.mem_singleton_self _)
    rw [node] at one
    refine (one.mono fun span h => ⟨_, List.mem_cons_self, h⟩).bind fun _ => ?_
    refine (checkBindings_covers bs).mono fun span => ?_
    exact .imp fun b => .imp_left (List.mem_cons_of_mem _)

theorem checkParts_covers : ∀ ps : List Part,
    Covers (Node.walkParts ps) (fun span => ∃ n, .node n ∈ ps ∧ n.Misplaces span) (checkParts ps)
  | [] => .pure
  | .text _ :: ps => (checkParts_covers ps).mono fun _ => .imp fun _ =>
    .imp_left (List.mem_cons_of_mem _)
  | .node n :: ps => by
    refine ((node_covers n).mono fun span h => ⟨n, List.mem_cons_self, h⟩).bind fun _ => ?_
    refine (checkParts_covers ps).mono fun span => ?_
    exact .imp fun m => .imp_left (List.mem_cons_of_mem _)

end

end Check

/-- Checking a tree stops exactly if a return lies in the body of none of its functions, and such a
return is what it reports last. Else it reports warnings only, and notes a type for every node of the
tree: the one that it found when it came to the node, which had no type until then. -/
theorem check_complete (n : Node) (scopes : Scopes) :
    let c := check n scopes n.blankNotes
    ((∃ f, c.outcome = .error f) ↔ ∃ span, n.Misplaces span) ∧
      (∀ f, c.outcome = .error f → ∃ span, n.Misplaces span ∧ f = .returnOutside span ∧
        c.diagnostics.getLast? = some (Finding.returnOutside.diagnostic span)) ∧
      ∀ t, c.outcome = .ok t → (∀ d ∈ c.diagnostics, d.severity = .warning) ∧
        c.notes.size = n.walk.length ∧ ∀ i m, n.walk[i]? = some m →
          ∃ t, c.notes[i]?.bind (·.type) = some t ∧ Checker.Finds m i t := by
  have blank : n.blankNotes.size = n.walk.length := Array.size_replicate
  have covered := Check.node_covers n ⟨scopes, [], [], n.blankNotes, 0⟩
    (fun i _ => n.typeAt_blankNotes i) (by simp only [blank, Nat.zero_add, Nat.le_refl])
  have stops := check_cases n scopes
  unfold Check.Meets at covered
  rcases run : (Check.node n).run ⟨scopes, [], [], n.blankNotes, 0⟩ with ⟨r, d⟩
  have checked : check n scopes n.blankNotes =
      ⟨r, d.diagnostics, d.notes, d.scopes.leaveAll⟩ := by
    rw [check, run]
  rw [run] at covered
  rw [checked] at stops ⊢
  cases r with
  | error f =>
    obtain ⟨span, rfl, misplaced, -, ws, reports, -⟩ := covered
    refine ⟨⟨fun _ => ⟨span, misplaced⟩, fun _ => ⟨_, rfl⟩⟩, ?_, nofun⟩
    rintro f ⟨⟩
    exact ⟨span, misplaced, rfl, by rw [reports, List.getLast?_concat]⟩
  | ok t =>
    have none : ¬ ∃ span, n.Misplaces span := by
      rintro ⟨span, value, outside⟩
      exact Bool.false_ne_true (stops.symm.trans (outside.outerReturn rfl))
    refine ⟨⟨nofun, fun h => absurd h none⟩, nofun, fun _ _ => ?_⟩
    obtain ⟨ws, reports, warnings⟩ := covered.warns
    refine ⟨fun w hw => warnings w ?_, covered.size.trans blank, fun i m hm => ?_⟩
    · rw [reports] at hw
      simpa using hw
    · have typed := covered.typed i m hm
      simp only [Nat.zero_add] at typed
      exact typed

end Sigil
