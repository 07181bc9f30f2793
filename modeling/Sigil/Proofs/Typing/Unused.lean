import Sigil.Proofs.Typing.Complete
import Sigil.Proofs.Typing.Histories

/-!
# Names that are never used

The checker reports a `let` whose scope ends without a use of its name. The
uses that it counts are those of the history (`NameHistory.uses`): references,
and commands that may call what their word means. What it looks at when a scope
ends are the names of the scope, so that of several definitions of a name in one
scope only the latest is reported (`check_unused`).

A step of the checker `Follows` some events if it does to its scopes what they
say; there is a rule for each way of putting steps together, and a lemma for
each form of node.
-/

namespace Sigil

open NameHistory

namespace Checker

/-- The checker has done what the events so far say, and has reported the definitions that were
found unused on the way. -/
structure Tracks (types : Nat → Ty) (base : Nat) (past : NameHistory) (c : Checker) : Prop where
  scopes : c.scopes.Tracks types base past
  reports : c.diagnostics.filter (·.code = .unusedName) =
    (unused types past).map Definition.report

/-- The types that the checker has noted are given ones, and no definition was made twice. -/
structure Fair (types : Nat → Ty) (past : NameHistory) (c : Checker) : Prop where
  types : ∀ i t, c.typeAt i = some t → types i = t
  distinct : (made past).Nodup

variable {types : Nat → Ty} {past later : NameHistory} {c d : Checker}

theorem Fair.before (h : d.Fair types (later ++ past)) (blank : c.Blank) (passes : c.Passes d) :
    c.Fair types past where
  types i t ht := by
    refine h.types i t ?_
    have early : i < c.next := by
      refine Nat.lt_of_not_le fun late => ?_
      rw [blank i late] at ht
      cases ht
    rw [passes.kept i early, ht]
  distinct := by
    have all := h.distinct
    rw [made_append] at all
    exact (List.sublist_append_right _ _).nodup all

end Checker

namespace Check

open Checker

variable {α β : Type} {types : Nat → Ty} {base : Nat} {φ : Prop} {past : NameHistory}
  {c : Checker} {ns ms : List Node} {es fs : List NameEvent} {m : Check α}
  {P : Option Span → Prop} {ψ : α → Prop} {χ : β → Prop}

theorem Meets.and {Q R : α → Checker → Prop} {E F : BindFault → Checker → Prop}
    (h : Meets m c Q E) (k : Meets m c R F) :
    Meets m c (fun a d => Q a d ∧ R a d) fun f d => E f d ∧ F f d := by
  unfold Meets at h k ⊢
  split <;> rename_i e <;> rw [e] at h k <;> exact ⟨h, k⟩

theorem Meets.pure {a : α} {Q : α → Checker → Prop} {E : BindFault → Checker → Prop}
    (h : Q a c) : Meets (Pure.pure a) c Q E :=
  h

theorem Meets.modify {f : Checker → Checker} {Q : PUnit → Checker → Prop}
    {E : BindFault → Checker → Prop} (h : Q ⟨⟩ (f c)) : Meets (modify f : Check PUnit) c Q E :=
  h

/-! ## Steps that do nothing to names -/

/-- A step leaves the scopes as they are and reports no name to be unused. -/
def Quiet (m : Check α) : Prop :=
  ∀ c, Meets m c (fun _ d => d.scopes = c.scopes ∧
    d.diagnostics.filter (·.code = .unusedName) = c.diagnostics.filter (·.code = .unusedName))
    fun _ _ => True

theorem Quiet.pure {a : α} : Quiet (Pure.pure a : Check α) :=
  fun _ => ⟨rfl, rfl⟩

theorem Quiet.bind {f : α → Check β} (hm : Quiet m) (hf : ∀ a, Quiet (f a)) : Quiet (m >>= f) :=
  fun c => Meets.bind (Meets.mono (hm c) (fun a d hd => Meets.mono (hf a d)
    (fun _ _ he => ⟨he.1.trans hd.1, he.2.trans hd.2⟩) fun _ _ => id) fun _ _ => id)

theorem Quiet.modify {f : Checker → Checker} (hs : ∀ c, (f c).scopes = c.scopes)
    (hd : ∀ c, (f c).diagnostics = c.diagnostics) : Quiet (modify f : Check PUnit) :=
  fun c => ⟨hs c, by rw [hd]⟩

theorem report_quiet {f : Finding} {span : Option Span} (h : f.code ≠ .unusedName) :
    Quiet (report f span) := fun c => by
  refine ⟨rfl, ?_⟩
  have other : [f.diagnostic span].filter (·.code = .unusedName) = [] :=
    List.filter_cons_of_neg fun same => h (of_decide_eq_true same)
  show (c.diagnostics ++ [f.diagnostic span]).filter (·.code = .unusedName) = _
  rw [List.filter_append, other, List.append_nil]

/-- Reporting something on a condition, before the rest. -/
theorem reportIf_quiet {p : Prop} [Decidable p] {f : Finding} {span : Option Span}
    {rest : PUnit → Check β} (hf : f.code ≠ .unusedName) (h : Quiet (rest ⟨⟩)) :
    Quiet (if p then report f span >>= rest else rest ⟨⟩) := by
  split_ifs
  · exact (report_quiet hf).bind fun _ => h
  · exact h

/-- Reporting something about every item that a condition holds of. -/
theorem reportEach_meets {γ : Type} (p : γ → Prop) [DecidablePred p] (f : γ → Finding)
    (span : γ → Option Span) (as : List γ) (c : Checker) :
    Meets (ForIn.forIn as PUnit.unit fun a _ => do
        if p a then report (f a) (span a)
        return ForInStep.yield PUnit.unit) c
      (fun _ d => d = { c with
        diagnostics := c.diagnostics ++ (as.filter p).map fun a => (f a).diagnostic (span a) })
      fun _ _ => True := by
  induction as generalizing c with
  | nil =>
    show c = _
    rw [List.filter_nil, List.map_nil, List.append_nil]
  | cons a as ih =>
    rw [List.forIn_cons]
    dsimp only
    split_ifs with h
    · refine Meets.bind (Meets.bind (Meets.modify (Meets.pure (Meets.mono (ih _)
        (fun _ d hd => ?_) fun _ _ => id))))
      have kept : (a :: as).filter (fun b => decide (p b)) = a :: as.filter fun b => decide (p b) :=
        List.filter_cons_of_pos (decide_eq_true h)
      rw [hd, kept, List.map_cons, List.append_assoc]
      rfl
    · refine Meets.bind (Meets.pure (Meets.mono (ih c) (fun _ d hd => ?_) fun _ _ => id))
      have passed : (a :: as).filter (fun b => decide (p b)) = as.filter fun b => decide (p b) :=
        List.filter_cons_of_neg fun e => h (of_decide_eq_true e)
      rw [hd, passed]

theorem reportEach_quiet {γ : Type} {p : γ → Prop} [DecidablePred p] {f : γ → Finding}
    {span : γ → Option Span} (hf : ∀ a, (f a).code ≠ .unusedName) (as : List γ) :
    Quiet (ForIn.forIn as PUnit.unit fun a _ => do
      if p a then report (f a) (span a)
      return ForInStep.yield PUnit.unit) := fun c => by
  refine Meets.mono (reportEach_meets p f span as c) (fun _ d hd => ?_) fun _ _ => id
  subst hd
  refine ⟨rfl, ?_⟩
  have none : ((as.filter p).map fun a => (f a).diagnostic (span a)).filter
      (·.code = .unusedName) = [] := by
    refine List.filter_eq_nil_iff.mpr fun r hr same => ?_
    obtain ⟨a, -, rfl⟩ := List.mem_map.mp hr
    exact hf a (of_decide_eq_true same)
  show (c.diagnostics ++ _).filter _ = _
  rw [List.filter_append, none, List.append_nil]

theorem mismatch_quiet {f : Finding} {span : Option Span} (h : f.code ≠ .unusedName) :
    Quiet (mismatch f span) :=
  (report_quiet h).bind fun _ => .pure

theorem callType_quiet (callee : Ty) (args : List Ty) (span : Option Span) :
    Quiet (callType callee args span) := by
  unfold callType
  split
  · dsimp only
    split_ifs
    · exact (report_quiet (fun h => by cases h)).bind fun _ => .pure
    · exact (reportEach_quiet (fun _ h => by cases h) _).bind fun _ => .pure
  · exact .pure
  · exact .pure
  · exact mismatch_quiet (fun h => by cases h)

theorem binaryType_quiet (op : BinaryOperator) (left right : Ty) (span : Option Span) :
    Quiet (binaryType op left right span) := by
  unfold binaryType
  split
  iterate 2 exact .pure
  iterate 2 exact (reportEach_quiet (fun _ h => by cases h) _).bind fun _ => .pure
  iterate 4 exact reportIf_quiet (fun h => by cases h) .pure
  split_ifs
  iterate 4 exact .pure
  exact mismatch_quiet (fun h => by cases h)

theorem unaryType_quiet (op : UnaryOperator) (operand : Ty) (span : Option Span) :
    Quiet (unaryType op operand span) := by
  unfold unaryType
  split
  · exact reportIf_quiet (fun h => by cases h) .pure
  · split_ifs
    · exact .pure
    · exact mismatch_quiet (fun h => by cases h)

/-! ## Steps and events -/

/-- A step goes through some nodes from a given state, and does to the scopes what some events say:
what the checker has made of a history before it has made of the longer one after. Under `φ` the
result is as `ψ` says. -/
def Follows (types : Nat → Ty) (base : Nat) (φ : Prop) (past : NameHistory) (c : Checker)
    (ns : List Node) (es : List NameEvent) (m : Check α) (ψ : α → Prop) : Prop :=
  c.Blank → c.next + ns.length ≤ c.notes.size →
    Meets m c (fun a d => c.Visits ns d ∧ (φ → d.Fair types (es.reverse ++ past) →
      c.Tracks types base past → ψ a ∧ d.Tracks types base (es.reverse ++ past))) fun _ _ => True

theorem Follows.mono {ψ' : α → Prop} {φ' : Prop} (h : Follows types base φ past c ns es m ψ)
    (hφ : φ' → φ) (hψ : ∀ a, ψ a → ψ' a) : Follows types base φ' past c ns es m ψ' :=
  fun blank room => Meets.mono (h blank room) (fun _ _ ⟨visits, kept⟩ =>
    ⟨visits, fun hφ' fair tracks => (kept (hφ hφ') fair tracks).imp_left (hψ _)⟩) fun _ _ => id

theorem Follows.weaken {p : Prop} (h : Follows types base φ past c ns es m ψ) :
    Follows types base (φ ∧ p) past c ns es m ψ :=
  h.mono And.left fun _ => id

theorem Follows.first {p : α → Prop} (h : Follows types base φ past c ns es m fun a => ψ a ∧ p a) :
    Follows types base φ past c ns es m ψ :=
  h.mono id fun _ => And.left

theorem Follows.pure {a : α} (h : φ → ψ a) :
    Follows types base φ past c [] [] (Pure.pure a) ψ :=
  fun blank _ => ⟨visits_nil (.refl blank) rfl rfl (warns_of_eq rfl),
    fun hφ _ tracks => ⟨h hφ, tracks⟩⟩

theorem Follows.done {a : α} : Follows types base φ past c [] [] (Pure.pure a) fun _ => φ :=
  .pure id

theorem Follows.done_left {p : Prop} {a : α} :
    Follows types base (φ ∧ p) past c [] [] (Pure.pure a) fun _ => φ :=
  .pure And.left

theorem Follows.bind {f : α → Check β} (hm : Follows types base φ past c ns es m ψ)
    (hf : ∀ a d, d.next = c.next + ns.length →
      Follows types base (ψ a) (es.reverse ++ past) d ms fs (f a) χ) :
    Follows types base φ past c (ns ++ ms) (es ++ fs) (m >>= f) χ := fun blank room => by
  rw [List.length_append] at room
  refine Meets.bind (Meets.mono (hm blank (by omega)) (fun a d ⟨visits, kept⟩ => ?_) fun _ _ => id)
  have left : d.next + ms.length ≤ d.notes.size := by
    rw [visits.count, visits.size]
    omega
  refine Meets.mono (hf a d visits.count visits.passes.blank left)
    (fun b e ⟨visits', kept'⟩ => ⟨visits.trans visits', fun hφ fair tracks => ?_⟩) fun _ _ => id
  rw [List.reverse_append, List.append_assoc] at fair ⊢
  obtain ⟨ha, between⟩ :=
    kept hφ (fair.before visits.passes.blank visits'.passes) tracks
  exact kept' ha fair between

/-- A step after one that goes through no node and of which no event tells. -/
theorem Follows.after {f : α → Check β} (hm : Follows types base φ past c [] [] m ψ)
    (hf : ∀ a d, d.next = c.next → Follows types base (ψ a) past d ns es (f a) χ) :
    Follows types base φ past c ns es (m >>= f) χ :=
  hm.bind hf

/-- A step before one that goes through no node. -/
theorem Follows.ends {f : α → Check β} (hm : Follows types base φ past c ns es m ψ)
    (hf : ∀ a d, Follows types base (ψ a) (es.reverse ++ past) d [] fs (f a) χ) :
    Follows types base φ past c ns (es ++ fs) (m >>= f) χ :=
  List.append_nil ns ▸ hm.bind fun a d _ => hf a d

/-- A step before one that goes through no node and of which no event tells. -/
theorem Follows.before {f : α → Check β} (hm : Follows types base φ past c ns es m ψ)
    (hf : ∀ a d, Follows types base (ψ a) (es.reverse ++ past) d [] [] (f a) χ) :
    Follows types base φ past c ns es (m >>= f) χ :=
  List.append_nil es ▸ hm.ends hf

theorem Follows.get {f : Checker → Check β} {χ : β → Prop}
    (hf : Follows types base φ past c ns es (f c) χ) :
    Follows types base φ past c ns es (MonadState.get >>= f) χ :=
  fun blank room => Meets.bind (hf blank room)

/-- An event that is over before a step. -/
theorem Follows.event {e : NameEvent}
    (now : φ → (made (e :: past)).Nodup → c.scopes.Tracks types base past →
      c.scopes.Tracks types base (e :: past))
    (hu : unused types (e :: past) = unused types past)
    (hm : Follows types base φ (e :: past) c ns es m ψ) :
    Follows types base φ past c ns (e :: es) m ψ := fun blank room => by
  refine Meets.mono (hm blank room) (fun a d ⟨visits, kept⟩ => ⟨visits, fun hφ fair tracks => ?_⟩)
    fun _ _ => id
  rw [List.reverse_cons, List.append_assoc, List.singleton_append] at fair ⊢
  exact kept hφ fair ⟨now hφ (fair.before blank visits.passes).distinct tracks.scopes,
    hu ▸ tracks.reports⟩

/-- A step of which it is known what nodes it goes through. -/
theorem Follows.of_meets (hv : Covers ns P m) (hm : c.Blank → c.next + ns.length ≤ c.notes.size →
      Meets m c (fun a d => φ → d.Fair types (es.reverse ++ past) → c.Tracks types base past →
        ψ a ∧ d.Tracks types base (es.reverse ++ past)) fun _ _ => True) :
    Follows types base φ past c ns es m ψ := fun blank room =>
  Meets.mono (Meets.and (hv c blank room) (hm blank room)) (fun _ _ => id) fun _ _ _ => trivial

/-- A step that does nothing to names. -/
theorem Quiet.follows (hq : Quiet m) (hv : Covers ns P m) :
    Follows types base φ past c ns [] m fun _ => φ :=
  .of_meets hv fun _ _ => Meets.mono (hq c) (fun _ _ ⟨scopes, reports⟩ hφ _ tracks =>
    ⟨hφ, scopes ▸ tracks.scopes, reports.trans tracks.reports⟩) fun _ _ => id

/-- Reporting something on a condition, before the rest. -/
theorem reportIf_follows {p : Prop} [Decidable p] {f : Finding} {span : Option Span}
    {rest : PUnit → Check β} (hf : f.code ≠ .unusedName) (hw : f.severity = .warning)
    (h : ∀ d : Checker, d.next = c.next → Follows types base φ past d ns es (rest ⟨⟩) χ) :
    Follows types base φ past c ns es (if p then report f span >>= rest else rest ⟨⟩) χ := by
  split_ifs
  · exact ((report_quiet hf).follows (P := fun _ => True) (report_covers hw)).after fun _ d hd =>
      h d hd
  · exact h c rfl

/-! ### Bindings -/

theorem modifyBinding_follows {e : NameEvent} {i : Nat} {f : Binding → Binding}
    (h : φ → (made (e :: past)).Nodup → c.scopes.Tracks types base past →
      (c.scopes.modify i f).Tracks types base (e :: past))
    (hu : unused types (e :: past) = unused types past) :
    Follows types base φ past c [] [e] (modifyBinding i f) fun _ => φ :=
  .of_meets (P := fun _ => True) (modifyBinding_covers i f) fun _ _ hφ fair tracks =>
    ⟨hφ, h hφ fair.distinct tracks.scopes, hu ▸ tracks.reports⟩

/-- What was found of a name when it was looked up. -/
structure Found (types : Nat → Ty) (base : Nat) (past : NameHistory) (name : String)
    (found : Option (Nat × Binding)) : Prop where
  aims : Aims base past name (found.map (·.1))
  fits : ∀ i b, found = some (i, b) → ∀ d, Stored base past i d → Fits types past b d

theorem resolve_follows (name : String) :
    Follows types base φ past c [] [] (resolve name) fun r => φ ∧ Found types base past name r := by
  refine .of_meets (P := fun _ => True) (resolve_covers name) fun _ _ hφ _ tracks => ?_
  refine ⟨⟨hφ, tracks.scopes.aims name, fun i b means d hd => ?_⟩, tracks⟩
  obtain ⟨b', hb', fit⟩ := tracks.scopes.fits i d hd
  obtain ⟨j, -, there⟩ := Option.bind_eq_some_iff.mp means
  obtain ⟨b'', hb, same⟩ := Option.map_eq_some_iff.mp there
  cases same
  cases hb'.symm.trans hb
  exact fit

theorem define_follows {d : Definition} {b : Binding}
    (fit : φ → (made (.defines d :: past)).Nodup → Fits types (.defines d :: past) b d) :
    Follows types base φ past c [] [.defines d] (define d.name b) fun i =>
      φ ∧ Stored base (.defines d :: past) i d := by
  refine .of_meets (P := fun _ => True) (define_covers _ _) fun _ _ hφ fair tracks => ?_
  refine ⟨⟨hφ, ?_⟩, tracks.scopes.define (fit hφ fair.distinct) fair.distinct, tracks.reports⟩
  show Stored base (.defines d :: past) (c.scopes.define d.name b).1 d
  rw [Scopes.fst_define, tracks.scopes.size]
  exact stored_new base past d

/-- A definition by something else than a `let`. -/
theorem defineOther_follows {d : Definition} {b : Binding} (hb : b.kind = d.kind)
    (other : d.kind ≠ .define) :
    Follows types base φ past c [] [.defines d] (define d.name b) fun i =>
      φ ∧ Stored base (.defines d :: past) i d :=
  define_follows fun _ _ => ⟨hb, fun isLet => absurd isLet other⟩

theorem leaveScope_follows (within : (opened past).inner ≠ []) :
    Follows types base φ past c [] [.closes] leaveScope fun _ => φ := by
  refine .of_meets (P := fun _ => True) leaveScope_covers fun _ _ => ?_
  have reported := reportEach_meets (fun nb : String × Binding => nb.2.kind = .define ∧
    ¬ nb.2.used ∧ nb.1.toList.head? ≠ some '_') (.unused ·.1) (·.2.span) c.scopes.bindings c
  refine Meets.bind (Meets.get (Meets.bind (Meets.mono reported
    (fun _ d hd => Meets.modify ?_) fun _ _ => id)))
  subst hd
  intro hφ _ tracks
  refine ⟨hφ, tracks.scopes.leave, ?_⟩
  show (c.diagnostics ++ _).filter _ = _
  rw [tracks.scopes.reported within, List.filter_append, tracks.reports]
  have all {ds : List Definition} : (ds.map Definition.report).filter (·.code = .unusedName) =
      ds.map Definition.report :=
    List.filter_eq_self.mpr fun r hr => by
      obtain ⟨d, -, rfl⟩ := List.mem_map.mp hr
      rfl
  rw [all, ← List.map_append]
  rfl

/-- A step in a scope of its own. -/
theorem inScope_follows (paired : Paired es)
    (hm : ∀ d : Checker, d.next = c.next → Follows types base φ (.opens :: past) d ns es m ψ) :
    Follows types base φ past c ns (NameEvent.enclose es) (inScope m) ψ := by
  have entered : Follows types base φ past c [] [.opens]
      (modify fun c => { c with scopes := c.scopes.enter } : Check PUnit) fun _ => φ :=
    .of_meets (P := fun _ => True)
      (.modify (fun _ => rfl) (fun _ _ => rfl) (fun _ => rfl) (fun _ => rfl) fun _ => rfl)
      fun _ _ hφ _ tracks => ⟨hφ, tracks.scopes.enter, tracks.reports⟩
  obtain ⟨ds, hds⟩ := paired.opened (.opens :: past)
  have within : (opened (es.reverse ++ .opens :: past)).inner ≠ [] := by
    rw [hds]
    exact List.cons_ne_nil _ _
  have run := entered.bind fun _ d hd => (hm d hd).bind
    fun a _ _ => (leaveScope_follows within).before fun _ _ => .pure id
  rwa [List.nil_append, List.append_nil] at run

/-! ### Rules -/

theorem referenceType_follows (name : String) (default : Option String) (span : Option Span) :
    Follows types base φ past c [] [.refers name] (referenceType name default span)
      fun _ => φ := by
  have used {t : Ty} {d : Checker} {i : Nat} {b : Binding} :
      Follows types base (φ ∧ Found types base past name (some (i, b))) past d [] [.refers name]
        (do use i; return t) fun _ => φ :=
    (modifyBinding_follows (fun h distinct tracks => tracks.refers distinct h.2.aims) rfl).before
      fun _ _ => .done_left
  have unknown {d : Checker} {m : Check Ty} (hm : Follows types base (φ ∧
      Found types base past name none) (.refers name :: past) d [] [] m fun _ => φ) :
      Follows types base (φ ∧ Found types base past name none) past d [] [.refers name] m
        fun _ => φ :=
    .event (fun h distinct tracks => tracks.refers_none distinct h.2.aims) rfl hm
  refine (resolve_follows name).after fun r d _ => ?_
  split
  · exact used
  · exact used
  · exact unknown (((report_quiet (fun h => by cases h)).follows (P := fun _ => True)
      (report_covers rfl)).after fun _ _ _ => .done_left)
  · exact unknown .done_left

theorem defineType_follows {d : Definition} {found : Ty} {valueSpan : Option Span}
    (isLet : d.kind = .define) (hφ : φ → found = types (d.place + 1)) :
    Follows types base φ past c [] [.defines d]
      (defineType d.name d.declared found d.span valueSpan) fun _ => φ := by
  have defined {e : Checker} : Follows types base φ past e [] [.defines d] (do
      let _ ← define d.name ⟨d.declared.getD found, d.declared, .define, d.span, false⟩
      return d.declared.getD found) fun _ => φ := by
    refine (define_follows fun h distinct => ⟨isLet.symm, fun _ => ?_⟩).before
      fun _ _ => .done_left
    -- No earlier event can use it: what is used was defined before, and nothing is defined twice.
    have fresh : uses types d (.defines d :: past) = false :=
      Bool.eq_false_iff.mpr fun used =>
        (List.nodup_cons.mp distinct).1 (mem_made_of_uses (show uses types d past from used))
    rw [typeOf, if_pos rfl, fresh, hφ h]
  unfold defineType
  obtain ⟨place, kind, name, declared, span⟩ := d
  cases declared with
  | none => exact defined
  | some t => exact reportIf_follows (fun h => by cases h) rfl fun _ _ => defined

theorem assignType_follows {place : Nat} {name : String} {found : Ty}
    {span valueSpan : Option Span} (hφ : φ → found = types place) :
    Follows types base φ past c [] [.assigns name place]
      (assignType name found span valueSpan) fun _ => φ := by
  refine (resolve_follows name).after fun r d _ => ?_
  cases r with
  | none =>
    refine .event (fun h distinct tracks => tracks.assigns_fixed distinct h.2.aims
      (fun j d e => by cases e) place) rfl ?_
    exact ((report_quiet (fun h => by cases h)).follows (P := fun _ => True)
      (report_covers rfl)).after fun _ _ _ => .done_left
  | some r =>
    obtain ⟨i, b⟩ := r
    have declares (h : Found types base past name (some (i, b))) {e : Definition}
        (he : Stored base past i e) (isLet : e.kind = .define) : b.declared = e.declared := by
      rw [(h.fits i b rfl e he).eq isLet]
    cases declared : b.declared with
    | some t =>
      simp only [declared]
      refine .event (fun h distinct tracks => tracks.assigns_fixed distinct h.2.aims ?_ place) rfl
        (reportIf_follows (fun h => by cases h) rfl fun _ _ => .done_left)
      rintro j e ⟨⟩ he isLet
      rw [← declares h.2 he isLet, declared]
      exact Option.some_ne_none t
    | none =>
      simp only [declared]
      refine (modifyBinding_follows (fun h distinct tracks => ?_) rfl).before
        fun _ _ => .done_left
      rw [hφ h.1]
      exact tracks.assigns distinct h.2.aims
        (fun e he isLet => (declares h.2 he isLet).symm.trans declared) place

/-- A function is given its type. -/
theorem retype_follows {i : Nat} {t : Ty}
    (h : φ → ∃ d, Stored base past i d ∧ d.kind ≠ .define) :
    Follows types base φ past c [] [] (modifyBinding i ({ · with type := t })) fun _ => φ :=
  .of_meets (P := fun _ => True) (modifyBinding_covers _ _) fun _ _ hφ _ tracks => by
    obtain ⟨d, hd, other⟩ := h hφ
    exact ⟨hφ, tracks.scopes.retype hd other t, tracks.reports⟩

/-- The word of a command was looked up before its arguments. -/
theorem commandType_follows {alone : Bool} {later : NameHistory} {place since : Nat}
    {target : Option Nat} {name : String} {args : List Ty} {span : Option Span}
    (hs : later.length = since) (hφ : φ → Aims base past name target) :
    Follows types base φ (later ++ past) c [] (if alone then [.commands name since] else [])
      (commandType place target (!alone) args span) fun _ => φ := by
  subst hs
  unfold commandType
  refine .get ?_
  cases alone with
  | false => exact .done
  | true =>
  simp only [Bool.not_true, Bool.false_eq_true, if_false, if_true]
  have idle {m : Check Ty} (passed : ∀ i b, target = some i → c.scopes.binding? i = some b →
        b.kind = .define → ¬ mayCall b.type)
      (hm : Follows types base φ (.commands name later.length :: (later ++ past)) c [] [] m
        fun _ => φ) :
      Follows types base φ (later ++ past) c [] [.commands name later.length] m fun _ => φ :=
    .event (fun h distinct tracks => tracks.commands_none distinct (hφ h) passed) rfl hm
  -- The type that decides is the one that the binding has after the arguments.
  cases found : target.bind fun i => (c.scopes.binding? i).map (i, ·) with
  | none =>
    refine idle (fun i b ht hb => ?_) .done
    rw [ht, Option.bind_some, hb] at found
    cases found
  | some r =>
    obtain ⟨i, b⟩ := r
    obtain ⟨j, ht, there⟩ := Option.bind_eq_some_iff.mp found
    obtain ⟨b', hb, same⟩ := Option.map_eq_some_iff.mp there
    cases same
    have marked (called : b.kind = .define → mayCall b.type) :
        Follows types base φ (later ++ past) c [] [.commands name later.length] (use i)
          fun _ => φ :=
      modifyBinding_follows (fun h distinct tracks => tracks.commands distinct (ht ▸ hφ h)
        fun b' hb' => by
          cases hb.symm.trans hb'
          exact called) rfl
    have noted : Quiet (modify fun c =>
        { c with notes := c.notes.modify place ({ · with isCall := true }) } : Check PUnit) :=
      .modify (fun _ => rfl) fun _ => rfl
    dsimp only
    split_ifs with isFunction isDynamic
    · refine (marked fun isLet => ?_).before fun _ _ => ?_
      · rw [isLet] at isFunction
        cases type : b.type with
        | fn => rfl
        | _ =>
          rw [type] at isFunction
          cases isFunction
      · refine ((noted.bind fun _ => callType_quiet _ _ _).follows (P := fun _ => True)
          (Covers.after ?_ fun _ => callType_covers _ _ _))
        exact .modify (fun _ => rfl) (fun c i => typeAt_isCall c place i)
          (fun _ => Array.size_modify) (fun _ => rfl) fun _ => rfl
    · refine (marked fun _ => ?_).before fun _ _ => .done
      cases type : b.type with
      | fn => rfl
      | _ =>
        rw [type] at isDynamic
        exact isDynamic
    · refine idle (fun j b' ht' hb' isLet may => ?_) .done
      cases ht.symm.trans ht'
      cases hb.symm.trans hb'
      cases type : b.type with
      | fn =>
        rw [type] at isFunction
        exact isFunction rfl
      | _ =>
        rw [type] at isDynamic may
        exact isDynamic may

/-! ### Nodes -/

/-- The type that is found for a node is the given one of its place. -/
theorem noted_follows {n : Node} {kind : String} {span : Option Span} {infer : Nat → Check Ty}
    {ψ : Ty → Prop} (hn : node n = noted kind span infer) (hw : n.walk = n :: ns)
    (hi : ∀ d : Checker, d.next = c.next + 1 →
      Follows types base φ past d ns es (infer c.next) ψ) :
    Follows types base φ past c n.walk es (node n) fun t => ψ t ∧ t = types c.next := by
  refine .of_meets (node_covers n) fun blank room => ?_
  rw [hw, List.length_cons] at room
  rw [hn]
  have started : ({ c with next := c.next + 1 } : Checker).Blank :=
    fun i hi => blank i (Nat.le_of_succ_le hi)
  refine Meets.bind (Meets.bind (Meets.bind (Meets.mono
    (hi { c with next := c.next + 1 } rfl started (by simp only; omega))
    (fun t d ⟨visits, kept⟩ => ?_) fun _ _ => id)))
  have place : d.typeAt c.next = none :=
    (visits.passes.kept c.next (Nat.lt_succ_self _)).trans (blank c.next (Nat.le_refl _))
  refine Meets.bind (Meets.get ?_)
  rw [show d.notes[c.next]?.bind (·.type) = none from place]
  refine Meets.bind (Meets.modify (Meets.pure fun hφ fair tracks => ?_))
  have here : c.next < d.notes.size := by
    rw [visits.size]
    simp only
    omega
  have noted : types c.next = t := by
    refine fair.types c.next t ?_
    rw [typeAt_modify, if_pos rfl, Array.getElem?_eq_getElem here]
    rfl
  have before : d.Fair types (es.reverse ++ past) := by
    refine ⟨fun i u hu => fair.types i u ?_, fair.distinct⟩
    rw [typeAt_modify, if_neg]
    · exact hu
    · rintro rfl
      rw [place] at hu
      cases hu
  obtain ⟨ht, after⟩ := kept hφ before ⟨tracks.scopes, tracks.reports⟩
  exact ⟨⟨ht, noted.symm⟩, after.scopes, after.reports⟩

theorem ret_follows {span : Option Span} {m : Check Ty} {ψ : Ty → Prop}
    (hv : Covers ns (fun _ => True) m) (hm : Follows types base φ past c ns es m ψ) :
    Follows types base φ past c ns es (do
      if (← get).returns.isEmpty then
        report .returnOutside span
        throw (.returnOutside span)
      let found ← m
      modify fun c => { c with returns := (c.returns.head?.getD [] ++ [found]) :: c.returns.drop 1 }
      return found : Check Ty) ψ := by
  refine .of_meets (ret_covers hv trivial) fun blank room => Meets.bind ?_
  show Meets (if c.returns.isEmpty then _ else _) c _ _
  split_ifs
  · trivial
  · refine Meets.bind (Meets.mono (hm blank room) (fun t d ⟨_, kept⟩ => ?_) fun _ _ => id)
    refine Meets.bind (Meets.modify (Meets.pure fun hφ fair tracks => ?_))
    obtain ⟨ht, after⟩ := kept hφ ⟨fair.types, fair.distinct⟩ tracks
    exact ⟨ht, after.scopes, after.reports⟩

/-- The returns of a function are gathered beside what its body does to names. -/
theorem body_follows {m : Check Ty} (hv : Covers ns (fun _ => True) m)
    (hm : ∀ d : Checker, d.next = c.next → Follows types base φ past d ns es m fun _ => φ) :
    Follows types base φ past c ns es (do
      modify fun c => { c with returns := [] :: c.returns }
      let bodyType ← m
      let returned := (← get).returns.head?.getD []
      modify fun c => { c with returns := c.returns.drop 1 }
      return (bodyType, returned)) fun _ => φ := by
  refine .of_meets (body_covers (Q := fun _ => True) hv) fun blank room => ?_
  refine Meets.bind (Meets.modify (Meets.bind (Meets.mono
    (hm { c with returns := [] :: c.returns } rfl blank room) (fun t d ⟨_, kept⟩ => ?_)
    fun _ _ => id)))
  refine Meets.bind (Meets.get (Meets.bind (Meets.modify (Meets.pure fun hφ fair tracks => ?_))))
  obtain ⟨ht, after⟩ :=
    kept hφ ⟨fair.types, fair.distinct⟩ ⟨tracks.scopes, tracks.reports⟩
  exact ⟨ht, after.scopes, after.reports⟩

/-- The parameters of a function, each with its own definition. -/
theorem params_follows (ps : List Param) {place : Nat} (hp : c.next = place) :
    Follows types base φ past c (ps.map Node.parameter)
      ((Node.parameterDefinitions place ps).map .defines)
      (ForIn.forIn ps PUnit.unit fun p _ => do
        let t ← noted "Param" p.span fun _ => return p.declared.getD .dynamic
        let _ ← define p.name ⟨t, p.declared, .param, p.span, false⟩
        return ForInStep.yield PUnit.unit) fun _ => φ := by
  subst hp
  induction ps generalizing past c with
  | nil => exact .done
  | cons p ps ih =>
    have first : Follows types base φ past c [.parameter p] [] (node (.parameter p)) fun _ => φ :=
      (noted_follows (n := .parameter p) (by rw [node]) rfl fun _ _ => .done).first
    rw [node] at first
    rw [List.forIn_cons, bind_assoc]
    refine first.bind fun t d hd => ?_
    rw [bind_assoc]
    refine (defineOther_follows (d := ⟨c.next, .param, p.name, p.declared, p.span⟩) rfl
      (fun h => by cases h)).bind fun _ e he => ?_
    have place : e.next = c.next + 1 := he.trans hd
    exact place ▸ ih.weaken

/-- The body of a function is a block of its own. -/
theorem functionBody_follows {span : Option Span} {body : List Node} {place : Nat}
    (hp : c.next = place)
    (h : ∀ {past : NameHistory} {c : Checker}, c.next = place + 1 →
      Follows types base φ past c (Node.walkAll body) (Node.nameEventsAll (place + 1) body)
        (checkAll body) fun _ => φ) :
    Follows types base φ past c (.block span body :: Node.walkAll body)
      (NameEvent.enclose (Node.nameEventsAll (place + 1) body))
      (noted "Block" span fun _ => do return lastType (← inScope (checkAll body)))
      fun _ => φ := by
  subst hp
  have block : Follows types base φ past c (Node.block span body).walk
      (NameEvent.enclose (Node.nameEventsAll (c.next + 1) body)) (node (.block span body))
      fun _ => φ :=
    (noted_follows (n := .block span body) (by rw [node]) rfl fun d hd => (inScope_follows
      (Node.paired_nameEventsAll _ body) fun e he => h (he.trans hd)).before fun _ _ => .done).first
  rwa [node] at block

/-- What a function defines in a scope of its own, around its body. -/
theorem functionScope_follows {params : List Param} {span : Option Span} {body : List Node}
    {place : Nat} (hp : c.next = place)
    (h : ∀ {past : NameHistory} {c : Checker}, c.next = place + params.length + 1 →
      Follows types base φ past c (Node.walkAll body)
        (Node.nameEventsAll (place + params.length + 1) body) (checkAll body) fun _ => φ) :
    Follows types base φ past c (params.map Node.parameter ++ .block span body :: Node.walkAll body)
      (NameEvent.enclose ((Node.parameterDefinitions place params).map .defines ++
        NameEvent.enclose (Node.nameEventsAll (place + params.length + 1) body)))
      (inScope do
        for p in params do
          let t ← noted "Param" p.span fun _ => return p.declared.getD .dynamic
          let _ ← define p.name ⟨t, p.declared, .param, p.span, false⟩
        modify fun c => { c with returns := [] :: c.returns }
        let bodyType ← noted "Block" span fun _ => do return lastType (← inScope (checkAll body))
        let returned := (← get).returns.head?.getD []
        modify fun c => { c with returns := c.returns.drop 1 }
        return (bodyType, returned)) fun _ => φ := by
  have inside := (Node.paired_map_defines (Node.parameterDefinitions place params)).append
    (Node.paired_nameEventsAll (place + params.length + 1) body).scope
  refine inScope_follows inside fun d hd =>
    (params_follows params (hd.trans hp)).bind fun _ e he => ?_
  have covered := functionBody_covers span
    ((checkAll_covers body).mono (Q := fun _ => True) fun _ _ => trivial)
  refine body_follows covered fun f hf => functionBody_follows ?_ h
  rw [hf, he, hd, hp, List.length_map]

/-- What is found of a function when its body is done with. -/
theorem signature_follows {self : Option Nat} {returns : Option Ty} {results : List Ty}
    {declared inferred : Ty} {span : Option Span}
    (h : φ → ∀ i ∈ self, ∃ d, Stored base past i d ∧ d.kind ≠ .define) :
    Follows types base φ past c [] [] (do
      match returns with
      | some t =>
        for result in results do
          if !t.accepts result then report (.result result t) span
        return declared
      | none =>
        if let some i := self then modifyBinding i ({ · with type := inferred })
        return inferred) fun _ => φ := by
  cases returns with
  | some t =>
    exact ((reportEach_quiet (fun _ h => by cases h) results).follows (P := fun _ => True)
      (reportEach_covers (fun _ => rfl) results)).before fun _ _ => .done
  | none =>
    cases self with
    | none => exact .done
    | some i => exact (retype_follows fun hφ => h hφ i rfl).before fun _ _ => .done

mutual

theorem node_follows (n : Node) : ∀ {φ : Prop} {past : NameHistory} {c : Checker} {place : Nat},
    c.next = place → Follows types base φ past c n.walk (n.nameEvents place) (node n)
      fun t => φ ∧ t = types place := by
  rintro φ past c _ rfl
  cases n with
  | literal | parameter | blank =>
    exact noted_follows (by rw [node]) rfl fun _ _ => .done
  | reference =>
    exact noted_follows (by rw [node]) rfl fun _ _ => referenceType_follows _ _ _
  | interpolation span parts =>
    exact noted_follows (by rw [node]) rfl fun _ hd =>
      (checkParts_follows parts hd).before fun _ _ => .done
  | substitution span body =>
    refine noted_follows (by rw [node]) rfl fun d hd => ?_
    exact (inScope_follows (Node.paired_nameEventsAll _ body) fun e he =>
      checkAll_follows body (he.trans hd)).before fun _ _ => .done
  | binding b =>
    obtain ⟨span, name, value⟩ := b
    exact noted_follows (by rw [node]) rfl fun _ hd =>
      (node_follows value hd).before fun _ _ => .done_left
  | command span env name args =>
    refine noted_follows (by rw [node]) rfl fun d hd => ?_
    refine (checkBindings_follows env hd).bind fun _ e he => ?_
    refine (resolve_follows name).after fun target f hf => ?_
    exact ((checkAll_follows args (by omega)).ends fun _ _ =>
      (commandType_follows List.length_reverse fun h => h.2.aims).first)
  | call span callee args =>
    refine noted_follows (by rw [node]) rfl fun d hd => ?_
    refine (node_follows callee hd).bind fun _ e he => ?_
    exact ((checkAll_follows args (by omega)).before fun _ _ =>
      (callType_quiet _ _ _).follows (P := fun _ => True) (callType_covers _ _ _)).weaken
  | conditional span condition thenBranch elseBranch =>
    cases elseBranch with
    | none =>
      refine noted_follows (by rw [node]) rfl fun d hd => ?_
      refine (node_follows condition hd).first.bind fun _ e he => ?_
      refine reportIf_follows (fun h => by cases h) rfl fun f hf => ?_
      exact (node_follows thenBranch (by omega)).first.before fun _ _ =>
        Follows.done.after fun _ _ _ => .done
    | some elseBranch =>
      refine noted_follows (by rw [node]) (by rw [Node.walk, List.append_assoc]) fun d hd => ?_
      refine (node_follows condition hd).first.bind fun _ e he => ?_
      refine reportIf_follows (fun h => by cases h) rfl fun f hf => ?_
      refine (node_follows thenBranch (by omega)).first.bind fun _ g hg => ?_
      exact (node_follows elseBranch (by omega)).first.before fun _ _ => .done
  | block span body =>
    refine noted_follows (by rw [node]) rfl fun d hd => ?_
    exact (inScope_follows (Node.paired_nameEventsAll _ body) fun e he =>
      checkAll_follows body (he.trans hd)).before fun _ _ => .done
  | function span name params returns bodySpan body =>
    refine noted_follows (by rw [node]) rfl fun d hd => ?_
    dsimp only
    -- A name is defined before the scope of the parameters is entered; the rest is the same with
    -- a name and without one.
    cases name
    case' none =>
      have first : Follows types base φ past d [] [] (Pure.pure none : Check (Option Nat))
          fun self => φ ∧ ∀ i ∈ self, ∃ e, Stored base past i e ∧ e.kind ≠ .define :=
        .pure fun h => ⟨h, by rintro _ ⟨⟩⟩
      refine first.after fun self e he => ?_
    case' some name =>
      have first (b : Binding) (hb : b.kind = .function) : Follows types base φ past d []
          [.defines ⟨c.next, .function, name, none, span⟩] (some <$> define name b)
          fun self => φ ∧ ∀ i ∈ self, ∃ e, Stored base
            (.defines ⟨c.next, .function, name, none, span⟩ :: past) i e ∧ e.kind ≠ .define := by
        rw [map_eq_pure_bind]
        refine (defineOther_follows (d := ⟨c.next, .function, name, none, span⟩) hb
          (fun h => by cases h)).before fun i _ => .pure fun h => ⟨h.1, ?_⟩
        rintro _ ⟨⟩
        exact ⟨_, h.2, fun h => by cases h⟩
      refine (first _ rfl).bind fun self e he => ?_
    all_goals
      refine (functionScope_follows (he.trans hd) (checkAll_follows body)).before fun r g => ?_
      refine (signature_follows fun h i hi => ?_).first
      obtain ⟨d, stored, other⟩ := h.2 i hi
      exact ⟨d, stored.append _, other⟩
  | binary span op left right =>
    refine noted_follows (by rw [node]) rfl fun d hd => ?_
    refine (node_follows left hd).bind fun _ e he => ?_
    exact ((node_follows right (by omega)).before fun _ _ =>
      ((binaryType_quiet _ _ _ _).follows (P := fun _ => True)
        (binaryType_covers _ _ _ _)).weaken).weaken
  | unary span op operand =>
    refine noted_follows (by rw [node]) rfl fun d hd => ?_
    exact (node_follows operand hd).before fun _ _ =>
      ((unaryType_quiet _ _ _).follows (P := fun _ => True)
        (unaryType_covers _ _ _)).weaken
  | ret span value =>
    cases value with
    | none => exact noted_follows (by rw [node]) rfl fun _ _ => ret_follows .pure .done
    | some n =>
      exact noted_follows (by rw [node]) rfl fun _ hd =>
        ret_follows ((node_covers n).mono fun _ _ => trivial)
          (node_follows n hd).first
  | define span name declared value =>
    refine noted_follows (by rw [node]) rfl fun d hd => ?_
    exact (node_follows value hd).ends fun _ _ =>
      (defineType_follows (d := ⟨c.next, .define, name, declared, span⟩) rfl And.right).first
  | assign span name value =>
    refine noted_follows (by rw [node]) rfl fun d hd => ?_
    exact (node_follows value hd).ends fun _ _ =>
      (assignType_follows And.right).first
  | program span body =>
    exact noted_follows (by rw [node]) rfl fun _ hd =>
      (checkAll_follows body hd).before fun _ _ => .done

theorem checkAll_follows (ns : List Node) :
    ∀ {φ : Prop} {past : NameHistory} {c : Checker} {place : Nat}, c.next = place →
      Follows types base φ past c (Node.walkAll ns) (Node.nameEventsAll place ns) (checkAll ns)
        fun _ => φ := by
  rintro φ past c _ rfl
  cases ns with
  | nil => exact .done
  | cons n ns =>
    refine (node_follows n rfl).bind fun t d hd => ?_
    exact (checkAll_follows ns hd).weaken.before fun _ _ => .done

theorem checkBindings_follows (bs : List EnvBinding) :
    ∀ {φ : Prop} {past : NameHistory} {c : Checker} {place : Nat}, c.next = place →
      Follows types base φ past c (Node.walkBindings bs) (Node.nameEventsBindings place bs)
        (checkBindings bs) fun _ => φ := by
  rintro φ past c _ rfl
  cases bs with
  | nil => exact .done
  | cons b bs =>
    obtain ⟨span, name, value⟩ := b
    have one : Follows types base φ past c (Node.binding (.mk span name value)).walk
        (Node.nameEvents (c.next + 1) value) (node (.binding (.mk span name value))) fun _ => φ :=
      (noted_follows (n := .binding (.mk span name value)) (by rw [node]) rfl fun _ hd =>
        (node_follows value hd).before fun _ _ => .done_left).first
    rw [node] at one
    exact one.bind fun _ d hd => checkBindings_follows bs hd

theorem checkParts_follows (ps : List Part) :
    ∀ {φ : Prop} {past : NameHistory} {c : Checker} {place : Nat}, c.next = place →
      Follows types base φ past c (Node.walkParts ps) (Node.nameEventsParts place ps)
        (checkParts ps) fun _ => φ := by
  rintro φ past c _ rfl
  rcases ps with _ | ⟨_ | n, ps⟩
  · exact .done
  · exact checkParts_follows ps rfl
  · exact (node_follows n rfl).first.bind fun _ d hd => checkParts_follows ps hd

end

end Check

/-! ## Whole trees -/

/-- The type that was noted for the node at a place. -/
def Checked.typeAt (c : Checked) (i : Nat) : Ty :=
  (c.notes[i]?.bind (·.type)).getD .unknown

variable {n : Node} {scopes : Scopes} {t : Ty}

/-- In the end the checker has done what the tree does with names. -/
theorem check_tracks (inner : scopes.inner = []) (proper : scopes.Proper)
    (ok : (check n scopes n.blankNotes).outcome = .ok t) :
    ∃ d : Checker, d.Tracks (check n scopes n.blankNotes).typeAt scopes.table.size n.history ∧
      (check n scopes n.blankNotes).diagnostics = d.diagnostics ∧
      (check n scopes n.blankNotes).scopes = d.scopes.leaveAll := by
  have blank : n.blankNotes.size = n.walk.length := Array.size_replicate
  have followed : Check.Follows (check n scopes n.blankNotes).typeAt scopes.table.size True []
      ⟨scopes, [], [], n.blankNotes, 0⟩ n.walk (n.nameEvents 0) (Check.node n) _ :=
    Check.node_follows n rfl
  have met := followed (fun i _ => n.typeAt_blankNotes i)
    (by simp only [blank, Nat.zero_add, Nat.le_refl])
  unfold Check.Meets at met
  rcases run : (Check.node n).run ⟨scopes, [], [], n.blankNotes, 0⟩ with ⟨r, d⟩
  have checked : check n scopes n.blankNotes =
      ⟨r, d.diagnostics, d.notes, d.scopes.leaveAll⟩ := by
    rw [check, run]
  rw [run] at met
  rw [checked] at ok met ⊢
  cases r with
  | error => cases ok
  | ok u =>
    have fair : d.Fair (Checked.typeAt ⟨.ok u, d.diagnostics, d.notes, d.scopes.leaveAll⟩)
        ((n.nameEvents 0).reverse ++ []) := by
      refine ⟨fun i v hv => ?_, ?_⟩
      · rw [Checker.typeAt] at hv
        rw [Checked.typeAt, hv]
        rfl
      · rw [List.append_nil]
        exact n.nodup_made_history
    have ended := (met.2 trivial fair ⟨Scopes.tracks_nil inner proper, rfl⟩).2
    rw [List.append_nil] at ended
    exact ⟨d, ended, rfl, rfl⟩

/-- The names that are reported are those whose definitions are found unused when their scopes
end. -/
theorem check_reports (inner : scopes.inner = []) (proper : scopes.Proper)
    (ok : (check n scopes n.blankNotes).outcome = .ok t) :
    (check n scopes n.blankNotes).diagnostics.filter (·.code = .unusedName) =
      (unused (check n scopes n.blankNotes).typeAt n.history).map Definition.report := by
  obtain ⟨d, tracks, diagnostics, -⟩ := check_tracks inner proper ok
  rw [diagnostics]
  exact tracks.reports

/-- Which names are reported to be unused, in scopes of which only the root is open. No `let` in the
root scope is. One in another scope is reported once, at its own place, if nothing refers to it, no
command may call it, its name does not start with an underscore, and no later definition in the same
scope took its name: that one is looked at instead when the scope ends. -/
theorem check_unused (inner : scopes.inner = []) (proper : scopes.Proper)
    (ok : (check n scopes n.blankNotes).outcome = .ok t) :
    let c := check n scopes n.blankNotes
    ∃ reported : List Definition, reported.Nodup ∧
      c.diagnostics.filter (·.code = .unusedName) = reported.map Definition.report ∧
      (∀ d ∈ reported, d ∈ Node.lets 0 n.walk) ∧
      ∀ d ∈ Node.lets 0 n.walk,
        (d ∈ (opened n.history).root ∧ d ∉ reported) ∨
          ∃ s ∈ ended n.history, d ∈ s ∧
            (d ∈ reported ↔ uses c.typeAt d n.history = false ∧
              d.name.toList.head? ≠ some '_' ∧ s.find? (·.name = d.name) = some d) := by
  intro c
  have steady := n.steady_history
  have distinct := n.nodup_made_history
  have found (d : Definition) : d ∈ unused c.typeAt n.history ↔
      (∃ s ∈ ended n.history, s.find? (·.name = d.name) = some d) ∧
        isUnused c.typeAt n.history d :=
    mem_unused steady distinct
  refine ⟨unused c.typeAt n.history, nodup_unused steady distinct, check_reports inner proper ok,
    fun d hd => ?_, fun d hd => ?_⟩
  · obtain ⟨⟨s, hs, last⟩, free⟩ := (found d).mp hd
    refine Node.mem_lets_iff.mpr ⟨(perm_made _).mem_iff.mpr (List.mem_append_right _ ?_),
      (isUnused_iff.mp free).1⟩
    exact List.mem_flatten.mpr ⟨s, hs, List.mem_of_find?_eq_some last⟩
  · have isLet := (Node.mem_lets_iff.mp hd).2
    rcases Node.mem_root_or_ended hd with root | ⟨s, hs, there⟩
    · refine .inl ⟨root, fun reported => ?_⟩
      obtain ⟨⟨s, hs, last⟩, -⟩ := (found d).mp reported
      exact not_mem_all_of_ended distinct hs (List.mem_of_find?_eq_some last)
        (List.mem_append_right _ root)
    · refine .inr ⟨s, hs, there, ?_⟩
      rw [found, isUnused_iff]
      constructor
      · rintro ⟨⟨s', hs', last⟩, -, unused, plain⟩
        obtain rfl := ended_unique distinct hs hs' there (List.mem_of_find?_eq_some last)
        exact ⟨unused, plain, last⟩
      · rintro ⟨unused, plain, last⟩
        exact ⟨⟨s, hs, last⟩, isLet, unused, plain⟩

/-- `{ let $x = 1; let $x = 2; $x }`, where the first `$x` is never used and another takes its
place. -/
def replacedSample : Node :=
  .program none [.block none [
    .define none "x" none (.literal none (.int 1)),
    .define none "x" none (.literal none (.int 2)),
    .reference none "x" none]]

/-- The first `$x` is not reported. -/
theorem check_unused_replacedSample :
    let c := check replacedSample .empty replacedSample.blankNotes
    (∃ t, c.outcome = .ok t) ∧ ∃ reported : List Definition,
      c.diagnostics.filter (·.code = .unusedName) = reported.map Definition.report ∧
      ⟨2, .define, "x", none, none⟩ ∈ Node.lets 0 replacedSample.walk ∧
      uses c.typeAt ⟨2, .define, "x", none, none⟩ replacedSample.history = false ∧
      ⟨2, .define, "x", none, none⟩ ∉ reported := by
  intro c
  have accepted : c.outcome.toOption.isSome := by decide +kernel
  have isLet : ⟨2, .define, "x", none, none⟩ ∈ Node.lets 0 replacedSample.walk := by
    decide +kernel
  have unused : uses c.typeAt ⟨2, .define, "x", none, none⟩ replacedSample.history = false := by
    decide +kernel
  have scopes : ended replacedSample.history =
      [[⟨4, .define, "x", none, none⟩, ⟨2, .define, "x", none, none⟩]] := by
    decide +kernel
  cases outcome : c.outcome with
  | error => simp [outcome, Except.toOption] at accepted
  | ok t =>
    obtain ⟨reported, -, reports, -, each⟩ := check_unused rfl Scopes.proper_empty outcome
    refine ⟨⟨t, rfl⟩, reported, reports, isLet, unused, ?_⟩
    obtain ⟨-, absent⟩ | ⟨s, hs, -, last⟩ := each _ isLet
    · exact absent
    · rw [scopes, List.mem_singleton] at hs
      subst hs
      intro there
      cases (last.mp there).2.2

end Sigil
