import Sigil.Node.Printer
import Sigil.Proofs.Node.Grammar
import Sigil.Proofs.Node.Relabelled

/-!
# Trees without spans

A tree with all its spans left out (`Node.erase`). How a tree is written
(`Node.source_erase`) and whether two trees that scripts can say are the same
(`Node.same_of_erase_eq`) depend on nothing else. Relabelling that keeps the types
changes nothing else (`Node.erase_relabel`).
-/

namespace Sigil

/-- A parameter without its span. -/
def Param.erase (p : Param) : Param := { p with span := none }

theorem Param.erase_relabel {r : Relabel} (typed : r.typed) (p : Param) :
    (p.relabel r).erase = p.erase := by
  rw [relabel, Relabel.type_of_typed typed]
  rfl

namespace Node

mutual

/-- A tree without its spans. -/
def erase : Node → Node
  | literal _ value => literal none value
  | reference _ name default => reference none name default
  | substitution _ body => substitution none (eraseAll body)
  | interpolation _ parts => interpolation none (eraseParts parts)
  | binding (.mk _ name value) => binding (.mk none name (erase value))
  | command _ env name args => command none (eraseBindings env) name (eraseAll args)
  | call _ callee args => call none (erase callee) (eraseAll args)
  | conditional _ condition thenBranch none =>
    conditional none (erase condition) (erase thenBranch) none
  | conditional _ condition thenBranch (some elseBranch) =>
    conditional none (erase condition) (erase thenBranch) (some (erase elseBranch))
  | block _ body => block none (eraseAll body)
  | parameter p => parameter p.erase
  | function _ name params returns _ body =>
    function none name (params.map Param.erase) returns none (eraseAll body)
  | binary _ op left right => binary none op (erase left) (erase right)
  | unary _ op operand => unary none op (erase operand)
  | ret _ none => ret none none
  | ret _ (some value) => ret none (some (erase value))
  | define _ name declared value => define none name declared (erase value)
  | assign _ name value => assign none name (erase value)
  | program _ body => program none (eraseAll body)
  | blank _ => blank none

@[inherit_doc erase]
def eraseAll : List Node → List Node
  | [] => []
  | n :: ns => erase n :: eraseAll ns

@[inherit_doc erase]
def eraseBindings : List EnvBinding → List EnvBinding
  | [] => []
  | .mk _ name value :: bs => .mk none name (erase value) :: eraseBindings bs

@[inherit_doc erase]
def eraseParts : List Part → List Part
  | [] => []
  | .text s :: ps => .text s :: eraseParts ps
  | .node n :: ps => .node (erase n) :: eraseParts ps

end

theorem eraseAll_eq_map (ns : List Node) : eraseAll ns = ns.map erase := by
  induction ns with
  | nil => rfl
  | cons n ns ih => rw [eraseAll, ih, List.map_cons]

/-! ## Writing -/

theorem standsAsOperand_erase (n : Node) : n.erase.standsAsOperand = n.standsAsOperand := by
  cases n with
  | binding b => cases b; rfl
  | conditional _ _ _ elseBranch => cases elseBranch <;> rfl
  | ret _ value => cases value <;> rfl
  | _ => rfl

theorem standsAsArgument_erase (n : Node) : n.erase.standsAsArgument = n.standsAsArgument := by
  cases n with
  | binding b => cases b; rfl
  | conditional _ _ _ elseBranch => cases elseBranch <;> rfl
  | ret _ value => cases value <;> rfl
  | _ => rfl

theorem standsAsCallee_erase (n : Node) : n.erase.standsAsCallee = n.standsAsCallee := by
  cases n with
  | binding b => cases b; rfl
  | conditional _ _ _ elseBranch => cases elseBranch <;> rfl
  | ret _ value => cases value <;> rfl
  | _ => rfl

theorem standsAfterSign_erase (n : Node) : n.erase.standsAfterSign = n.standsAfterSign := by
  cases n with
  | literal _ value => cases value <;> rfl
  | binding b => cases b; rfl
  | conditional _ _ _ elseBranch => cases elseBranch <;> rfl
  | ret _ value => cases value <;> rfl
  | _ => rfl

theorem kind_erase (n : Node) : n.erase.kind = n.kind := by
  cases n with
  | binding b => cases b; rfl
  | conditional _ _ _ elseBranch => cases elseBranch <;> rfl
  | ret _ value => cases value <;> rfl
  | _ => rfl

theorem isPart_erase (n : Node) : n.erase.isPart = n.isPart := by
  cases n with
  | binding b => cases b; rfl
  | conditional _ _ _ elseBranch => cases elseBranch <;> rfl
  | ret _ value => cases value <;> rfl
  | _ => rfl

/-- No other node has a text within a string. -/
theorem sourceParts_of_not_isPart {n : Node} (h : n.isPart = false) (ps : List Part) :
    sourceParts (.node n :: ps) = .error (.notAPart n.kind) := by
  cases n <;> first | rfl | cases h

theorem isEmpty_eraseAll (ns : List Node) : (eraseAll ns).isEmpty = ns.isEmpty := by
  cases ns <;> rfl

mutual

/-- How a tree is written does not depend on its spans. -/
theorem source_erase (n : Node) : n.erase.source = n.source := by
  cases n with
  | literal | reference | blank => rfl
  | parameter p => rfl
  | substitution span body => simp only [erase, source, sourceEntries_eraseAll body]
  | interpolation span parts => simp only [erase, source, sourceParts_eraseParts parts]
  | binding b =>
    obtain ⟨span, name, value⟩ := b
    simp only [erase, source, source_erase value, standsAsArgument_erase]
  | command span env name args =>
    simp only [erase, source, sourceBindings_eraseBindings env, sourceArguments_eraseAll args]
  | call span callee args =>
    simp only [erase, source, source_erase callee, sourceAll_eraseAll args, standsAsCallee_erase]
  | conditional span condition thenBranch elseBranch =>
    cases elseBranch with
    | none =>
      simp only [erase, source, source_erase condition, source_erase thenBranch,
        standsAsOperand_erase]
    | some n =>
      simp only [erase, source, source_erase condition, source_erase thenBranch, source_erase n,
        standsAsOperand_erase]
  | block span body => simp only [erase, source, sourceEntries_eraseAll body, isEmpty_eraseAll]
  | function span name params returns bodySpan body =>
    have head : headSource name (params.map Param.erase) returns =
        headSource name params returns := by
      delta headSource
      rw [List.map_map]
      rfl
    simp only [erase, source, head, sourceEntries_eraseAll body, isEmpty_eraseAll]
  | binary span op left right =>
    simp only [erase, source, source_erase left, source_erase right, standsAsOperand_erase]
  | unary span op operand => simp only [erase, source, source_erase operand, standsAfterSign_erase]
  | ret span value =>
    cases value with
    | none => rfl
    | some n => simp only [erase, source, source_erase n]
  | define span name declared value => simp only [erase, source, source_erase value]
  | assign span name value => simp only [erase, source, source_erase value]
  | program span body => simp only [erase, source, sourceEntries_eraseAll body]

theorem sourceEntries_eraseAll : ∀ ns : List Node, sourceEntries (eraseAll ns) = sourceEntries ns
  | [] => rfl
  | [n] => source_erase n
  | n :: m :: ns => by
    have rest := sourceEntries_eraseAll (m :: ns)
    rw [eraseAll] at rest
    simp only [eraseAll, sourceEntries, source_erase n, rest]

theorem sourceAll_eraseAll : ∀ ns : List Node, sourceAll (eraseAll ns) = sourceAll ns
  | [] => rfl
  | n :: ns => by simp only [eraseAll, sourceAll, source_erase n, sourceAll_eraseAll ns]

theorem sourceArguments_eraseAll :
    ∀ ns : List Node, sourceArguments (eraseAll ns) = sourceArguments ns
  | [] => rfl
  | n :: ns => by
    simp only [eraseAll, sourceArguments, source_erase n, standsAsArgument_erase,
      sourceArguments_eraseAll ns]

theorem sourceBindings_eraseBindings :
    ∀ bs : List EnvBinding, sourceBindings (eraseBindings bs) = sourceBindings bs
  | [] => rfl
  | .mk _ _ value :: bs => by
    simp only [eraseBindings, sourceBindings, source_erase value, standsAsArgument_erase,
      sourceBindings_eraseBindings bs]

theorem sourceParts_eraseParts : ∀ ps : List Part, sourceParts (eraseParts ps) = sourceParts ps
  | [] => rfl
  | .text s :: ps => by simp only [eraseParts, sourceParts, sourceParts_eraseParts ps]
  | .node n :: ps => by
    cases h : n.isPart with
    | false =>
      rw [eraseParts, sourceParts_of_not_isPart h,
        sourceParts_of_not_isPart (isPart_erase n ▸ h), kind_erase]
    | true =>
      cases n <;> try cases h
      case reference.refl => simp only [eraseParts, erase, sourceParts, sourceParts_eraseParts ps]
      case substitution.refl span body =>
        simp only [eraseParts, erase, sourceParts, sourceEntries_eraseAll body,
          sourceParts_eraseParts ps]

end

/-! ## Comparing -/

/-- A float that scripts can write is equal to itself, since it is a number. -/
theorem same_spoken {x : Float} (h : Number.isSpoken x) : Number.equal (.float x) (.float x) := by
  unfold Number.isSpoken at h
  split at h
  · next hx => simp [Number.equal, Number.compare?, Number.place, hx, Number.Place.compare]
  · next hx => simp [Number.equal, Number.compare?, Number.place, hx, Number.Place.compare]
  · cases h

theorem same_datum {value : Datum} (h : value.isWritten) : value.same value := by
  cases value with
  | number n =>
    cases n with
    | int n => simp [Datum.same]
    | float x => exact same_spoken h
  | unit | bool | text | run => simp [Datum.same]

mutual

/-- Trees that differ in their spans alone are the same. -/
theorem same_of_erase_eq (n : Node) {m : Node} (h : n.erase = m.erase) (hw : n.isWritten) :
    n.same m := by
  have kinds : n.kind = m.kind := by rw [← kind_erase, h, kind_erase]
  cases n with
  | literal span value =>
    cases m <;> try (simp only [kind] at kinds; contradiction)
    cases h
    simp [same, same_datum hw]
  | reference span name default =>
    cases m <;> try (simp only [kind] at kinds; contradiction)
    cases h
    simp [same]
  | substitution span body =>
    cases m <;> try (simp only [kind] at kinds; contradiction)
    simp only [erase, substitution.injEq, true_and] at h
    simp [same, sameAll_of_eraseAll_eq body h hw]
  | interpolation span parts =>
    cases m <;> try (simp only [kind] at kinds; contradiction)
    simp only [erase, interpolation.injEq, true_and] at h
    simp only [isWritten, Bool.and_eq_true] at hw
    simp [same, sameParts_of_eraseParts_eq parts h hw.2]
  | command span env name args =>
    cases m <;> try (simp only [kind] at kinds; contradiction)
    simp only [erase, command.injEq, true_and] at h
    simp only [isWritten, Bool.and_eq_true] at hw
    simp [same, h.2.1, sameBindings_of_eraseBindings_eq env h.1 hw.1.2,
      sameAll_of_eraseAll_eq args h.2.2 hw.2]
  | call span callee args =>
    cases m <;> try (simp only [kind] at kinds; contradiction)
    simp only [erase, call.injEq, true_and] at h
    simp only [isWritten, Bool.and_eq_true] at hw
    simp [same, same_of_erase_eq callee h.1 hw.1, sameAll_of_eraseAll_eq args h.2 hw.2]
  | conditional span condition thenBranch elseBranch =>
    cases m <;> try (simp only [kind] at kinds; contradiction)
    next span' condition' thenBranch' elseBranch' =>
    cases elseBranch with
    | none =>
      cases elseBranch' with
      | none =>
        simp only [erase, conditional.injEq, true_and, and_true] at h
        simp only [isWritten, Bool.and_eq_true] at hw
        simp [same, same_of_erase_eq condition h.1 hw.1, same_of_erase_eq thenBranch h.2 hw.2]
      | some e' => simp [erase] at h
    | some e =>
      cases elseBranch' with
      | none => simp [erase] at h
      | some e' =>
        simp only [erase, conditional.injEq, true_and, Option.some.injEq] at h
        simp only [isWritten, Bool.and_eq_true] at hw
        simp [same, same_of_erase_eq condition h.1 hw.1.1,
          same_of_erase_eq thenBranch h.2.1 hw.1.2, same_of_erase_eq e h.2.2 hw.2]
  | block span body =>
    cases m <;> try (simp only [kind] at kinds; contradiction)
    simp only [erase, block.injEq, true_and] at h
    simp [same, sameAll_of_eraseAll_eq body h hw]
  | function span name params returns bodySpan body =>
    cases m <;> try (simp only [kind] at kinds; contradiction)
    next span' name' params' returns' bodySpan' body' =>
    simp only [erase, function.injEq, true_and] at h
    simp only [isWritten, Bool.and_eq_true] at hw
    have params_eq : params.map (fun p => (p.name, p.declared)) =
        params'.map (fun p => (p.name, p.declared)) := by
      have := congrArg (List.map fun p : Param => (p.name, p.declared)) h.2.1
      rw [List.map_map, List.map_map] at this
      exact this
    simp [same, h.1, params_eq, h.2.2.1, sameAll_of_eraseAll_eq body h.2.2.2 hw.2]
  | binary span op left right =>
    cases m <;> try (simp only [kind] at kinds; contradiction)
    simp only [erase, binary.injEq, true_and] at h
    simp only [isWritten, Bool.and_eq_true] at hw
    simp [same, h.1, same_of_erase_eq left h.2.1 hw.1.2, same_of_erase_eq right h.2.2 hw.2]
  | unary span op operand =>
    cases m <;> try (simp only [kind] at kinds; contradiction)
    simp only [erase, unary.injEq, true_and] at h
    simp only [isWritten, Bool.and_eq_true] at hw
    simp [same, h.1, same_of_erase_eq operand h.2 hw.2]
  | ret span value =>
    cases m <;> try (simp only [kind] at kinds; contradiction)
    next span' value' =>
    cases value with
    | none =>
      cases value' with
      | none => simp [same]
      | some n' => simp [erase] at h
    | some n =>
      cases value' with
      | none => simp [erase] at h
      | some n' =>
        simp only [erase, ret.injEq, true_and, Option.some.injEq] at h
        simp [same, same_of_erase_eq n h hw]
  | define span name declared value =>
    cases m <;> try (simp only [kind] at kinds; contradiction)
    simp only [erase, define.injEq, true_and] at h
    simp only [isWritten, Bool.and_eq_true] at hw
    simp [same, h.1, h.2.1, same_of_erase_eq value h.2.2 hw.2]
  | assign span name value =>
    cases m <;> try (simp only [kind] at kinds; contradiction)
    simp only [erase, assign.injEq, true_and] at h
    simp only [isWritten, Bool.and_eq_true] at hw
    simp [same, h.1, same_of_erase_eq value h.2 hw.2]
  | binding | parameter | program | blank => cases hw
termination_by structural n

theorem sameAll_of_eraseAll_eq : ∀ (ns : List Node) {ms : List Node}, eraseAll ns = eraseAll ms →
    areWritten ns → sameAll ns ms
  | [], [], _, _ => by simp [sameAll]
  | [], m :: ms, h, _ => by cases h
  | n :: ns, [], h, _ => by cases h
  | n :: ns, m :: ms, h, hw => by
    simp only [eraseAll, List.cons.injEq] at h
    simp only [areWritten, Bool.and_eq_true] at hw
    simp [sameAll, same_of_erase_eq n h.1 hw.1, sameAll_of_eraseAll_eq ns h.2 hw.2]
termination_by structural ns => ns

theorem sameBindings_of_eraseBindings_eq : ∀ (bs : List EnvBinding) {cs : List EnvBinding},
    eraseBindings bs = eraseBindings cs → areBindingsWritten bs → sameBindings bs cs
  | [], [], _, _ => by simp [sameBindings]
  | [], .mk .. :: cs, h, _ => by cases h
  | .mk .. :: bs, [], h, _ => by cases h
  | .mk span name value :: bs, .mk span' name' value' :: cs, h, hw => by
    simp only [eraseBindings, List.cons.injEq, EnvBinding.mk.injEq, true_and] at h
    simp only [areBindingsWritten, Bool.and_eq_true] at hw
    simp [sameBindings, sameBinding, h.1.1, same_of_erase_eq value h.1.2 hw.1.2,
      sameBindings_of_eraseBindings_eq bs h.2 hw.2]
termination_by structural bs => bs

theorem sameParts_of_eraseParts_eq : ∀ (ps : List Part) {qs : List Part} {afterText : Bool},
    eraseParts ps = eraseParts qs → arePartsWritten afterText ps → sameParts ps qs
  | [], [], _, _, _ => by simp [sameParts]
  | [], .text _ :: qs, _, h, _ | [], .node _ :: qs, _, h, _ => by cases h
  | .text _ :: ps, [], _, h, _ | .node _ :: ps, [], _, h, _ => by cases h
  | .text _ :: ps, .node _ :: qs, _, h, _ | .node _ :: ps, .text _ :: qs, _, h, _ => by
    simp [eraseParts] at h
  | .text s :: ps, .text t :: qs, _, h, hw => by
    simp only [eraseParts, List.cons.injEq, Part.text.injEq] at h
    simp only [arePartsWritten, Bool.and_eq_true] at hw
    simp [sameParts, h.1, sameParts_of_eraseParts_eq ps h.2 hw.2]
  | .node n :: ps, .node m :: qs, _, h, hw => by
    simp only [eraseParts, List.cons.injEq, Part.node.injEq] at h
    simp only [arePartsWritten, Bool.and_eq_true] at hw
    simp [sameParts, same_of_erase_eq n h.1 hw.1.2, sameParts_of_eraseParts_eq ps h.2 hw.2]
termination_by structural ps => ps

end

/-! ## Other spans -/

variable {r : Relabel}

mutual

/-- With other spans a tree is the same without them. -/
theorem erase_relabel (typed : r.typed) (n : Node) : (n.relabel r).erase = n.erase := by
  cases n with
  | literal | reference | blank => rfl
  | parameter p => simp only [relabel, erase, Param.erase_relabel typed]
  | substitution span body | block span body | program span body =>
    simp only [relabel, erase, eraseAll_relabelAll typed body]
  | interpolation span parts => simp only [relabel, erase, eraseParts_relabelParts typed parts]
  | binding b =>
    obtain ⟨span, name, value⟩ := b
    simp only [relabel, erase, erase_relabel typed value]
  | command span env name args =>
    simp only [relabel, erase, eraseBindings_relabelBindings typed env,
      eraseAll_relabelAll typed args]
  | call span callee args =>
    simp only [relabel, erase, erase_relabel typed callee, eraseAll_relabelAll typed args]
  | conditional span condition thenBranch elseBranch =>
    cases elseBranch with
    | none =>
      simp only [relabel, erase, erase_relabel typed condition, erase_relabel typed thenBranch]
    | some e =>
      simp only [relabel, erase, erase_relabel typed condition, erase_relabel typed thenBranch,
        erase_relabel typed e]
  | function span name params returns bodySpan body =>
    simp only [relabel, erase, eraseAll_relabelAll typed body, List.map_map, Function.comp_def,
      Param.erase_relabel typed, Relabel.type_of_typed typed]
  | binary span op left right =>
    simp only [relabel, erase, erase_relabel typed left, erase_relabel typed right]
  | unary span op operand => simp only [relabel, erase, erase_relabel typed operand]
  | ret span value =>
    cases value with
    | none => rfl
    | some n => simp only [relabel, erase, erase_relabel typed n]
  | define span name declared value =>
    simp only [relabel, erase, erase_relabel typed value, Relabel.type_of_typed typed]
  | assign span name value => simp only [relabel, erase, erase_relabel typed value]

theorem eraseAll_relabelAll (typed : r.typed) :
    ∀ ns : List Node, eraseAll (relabelAll r ns) = eraseAll ns
  | [] => rfl
  | n :: ns => by
    simp only [relabelAll, eraseAll, erase_relabel typed n, eraseAll_relabelAll typed ns]

theorem eraseBindings_relabelBindings (typed : r.typed) :
    ∀ bs : List EnvBinding, eraseBindings (relabelBindings r bs) = eraseBindings bs
  | [] => rfl
  | .mk span name value :: bs => by
    simp only [relabelBindings, eraseBindings, erase_relabel typed value,
      eraseBindings_relabelBindings typed bs]

theorem eraseParts_relabelParts (typed : r.typed) :
    ∀ ps : List Part, eraseParts (relabelParts r ps) = eraseParts ps
  | [] => rfl
  | .text s :: ps => by
    simp only [relabelParts, eraseParts, eraseParts_relabelParts typed ps]
  | .node n :: ps => by
    simp only [relabelParts, eraseParts, erase_relabel typed n, eraseParts_relabelParts typed ps]

end

end Node

end Sigil
