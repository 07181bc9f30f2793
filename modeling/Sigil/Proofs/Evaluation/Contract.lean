import Mathlib.Tactic.SplitIfs
import Sigil.Proofs.Evaluation.Rules
import Sigil.Proofs.Node.Events

/-!
# Contracts of evaluation

What is known of the world before an evaluation, and is known again when it
ends with a value, together with what is known of its other ends
(`Eval.Contract`). A contract says which nodes it admits in which frames, and
what it knows of values. It is stable if none of the single things that
evaluation does to the world breaks it (`Contract.Stable`): frames, slots,
closures and calls of the host. Then every evaluation of a node that it admits
obeys it, at any depth (`Contract.Stable.evaluate`).

The induction over evaluation is done here once. Whoever wants to know
something of all evaluations names a contract and shows that it is stable.
-/

namespace Sigil

/-- The fault that an answer of the host makes, unless the command ran and ended well. -/
def Reply.fault? (r : Reply) (call : Call) : Option RuntimeFault :=
  match r.outcome with
  | .failed reason => some (.hostFailure call.name reason)
  | .exited status output =>
    if status = commandNotFound then some (.notFound call.name output)
    else if status ≠ 0 then some (.exited call.name status output)
    else none

/-- The world after a host was asked to run a command. -/
def World.asked (h : Host) (call : Call) (w : World) : World :=
  { w with
    calls := w.calls ++ [call]
    interrupt := if (h.reply w.calls call).interrupts then some 0 else w.interrupt }

namespace Eval

/-- What is known before an evaluation and after it. -/
structure Contract where
  /-- What is known of the world, before an evaluation and after one that gave a value. -/
  holds : World → Prop
  /-- What is known of values. -/
  carries : Value → Prop
  /-- Which nodes may be evaluated in which frames. -/
  admits : Node → FrameId → Prop
  /-- What is known of the frames that are made on the way. -/
  fresh : FrameId → Prop
  /-- What errors may be about. -/
  blames : Option Span → Prop
  /-- What is known of the other ends. -/
  ends : Exit → World → Prop

namespace Contract

/-- A contract that no single step of evaluation breaks. -/
structure Stable (C : Contract) (host : Option Host) : Prop where
  direct {n m : Node} {f : FrameId} : C.admits n f → m ∈ n.direct → C.admits m f
  enclosed {n m : Node} {f g : FrameId} :
    C.admits n f → C.fresh g → m ∈ n.enclosed → C.admits m g
  body {c : Closure} {g : FrameId} :
    C.carries (.closure c) → C.fresh g → C.admits (.block c.bodySpan c.body) g
  datum (d : Datum) : C.carries (.datum d)
  found {w : World} {f : FrameId} {name : String} {v : Value} :
    C.holds w → w.store.lookup? f name = some v → C.carries v
  closure {span bodySpan : Option Span} {name : Option String} {params : List Param}
    {returns : Option Ty} {body : List Node} {f : FrameId} (id : Nat) :
    C.admits (.function span name params returns bodySpan body) f →
      C.carries (.closure ⟨id, name, params, returns, bodySpan, body, f⟩)
  pushed {w : World} (outer : FrameId) :
    C.holds w → C.holds { w with store := (w.store.push (some outer)).2 } ∧
      C.fresh w.store.frames.size
  counted {w : World} : C.holds w → C.holds { w with closures := w.closures + 1 }
  /-- A parameter, in the frame of its call. -/
  bound {w : World} {f : FrameId} {slot : Slot} (name : String) :
    C.holds w → C.fresh f → C.carries slot.value →
      C.holds { w with store := w.store.define f name slot }
  defined {w : World} {n : Node} {f : FrameId} {name : String} {slot : Slot} :
    C.holds w → C.admits n f → n.definedName? = some name → C.carries slot.value →
      C.holds { w with store := w.store.define f name slot }
  assigned {w : World} {v : Value} (f : FrameId) (name : String) :
    C.holds w → C.carries v → C.holds { w with store := w.store.assign f name v }
  answered {w : World} {h : Host} (call : Call) : host = some h → C.holds w →
    (h.reply w.calls call).fault? call = none → C.holds (w.asked h call)
  refused {w : World} {h : Host} (call : Call) (fault : RuntimeFault) (span : Option Span) :
    host = some h → C.holds w → (h.reply w.calls call).fault? call = some fault →
      C.blames span → C.ends (.error ⟨fault, span⟩) (w.asked h call)
  blamesNone : C.blames none
  blamesNode {n : Node} {f : FrameId} : C.admits n f → C.blames n.span
  fails {w : World} {span : Option Span} (fault : RuntimeFault) :
    C.holds w → C.blames span → C.ends (.error ⟨fault, span⟩) w
  returns {w : World} {v : Value} : C.holds w → C.carries v → C.ends (.returned v) w
  caught {w : World} {v : Value} : C.ends (.returned v) w → C.holds w ∧ C.carries v
  tooDeep {w : World} : C.holds w → C.ends .tooDeep w

/-- A step of evaluation, from a world of which the contract knows, ends as the contract says, with
a value only as `Q` says. -/
def Obeys {α : Type} (C : Contract) (m : Eval α) (Q : α → Prop) : Prop :=
  ∀ w, C.holds w → WP (fun _ => True) m w (fun a v => C.holds v ∧ Q a) C.ends

variable {α β : Type} {C : Contract} {m : Eval α} {Q : α → Prop} {R : β → Prop}

/-! ## Rules -/

namespace Obeys

theorem mono {P : α → Prop} (h : C.Obeys m P) (hQ : ∀ a, P a → Q a) : C.Obeys m Q :=
  fun w hw => (h w hw).mono fun a _ _ ⟨hv, ha⟩ => ⟨hv, hQ a ha⟩

theorem pure {a : α} (h : Q a) : C.Obeys (Pure.pure a) Q :=
  fun _ hw => WP.pure trivial ⟨hw, h⟩

theorem bind {f : α → Eval β} (h : C.Obeys m Q) (hf : ∀ a, Q a → C.Obeys (f a) R) :
    C.Obeys (m >>= f) R :=
  fun w hw => WP.bind ((h w hw).mono fun a v _ ⟨hv, ha⟩ => hf a ha v hv)

theorem get : C.Obeys (MonadState.get : Eval World) C.holds :=
  fun _ hw => WP.get trivial ⟨hw, hw⟩

theorem modify {f : World → World} (hf : ∀ w, C.holds w → C.holds (f w)) :
    C.Obeys (modify f : Eval PUnit) fun _ => True :=
  fun w hw => WP.modify trivial trivial ⟨hf w hw, trivial⟩

/-! ### Loops -/

theorem mapM {f : α → Eval β} :
    ∀ {as : List α}, (∀ a ∈ as, C.Obeys (f a) R) → C.Obeys (as.mapM f) fun bs => ∀ b ∈ bs, R b
  | [], _ => .pure nofun
  | a :: as, h => by
    rw [List.mapM_cons]
    refine bind (h a List.mem_cons_self) fun b hb => ?_
    refine bind (mapM fun a ha => h a (List.mem_cons_of_mem _ ha)) fun bs hbs => ?_
    exact .pure (List.forall_mem_cons.mpr ⟨hb, hbs⟩)

theorem foldlM {f : β → α → Eval β} :
    ∀ {as : List α} {b : β}, R b → (∀ a ∈ as, ∀ b, R b → C.Obeys (f b a) R) →
      C.Obeys (as.foldlM f b) R
  | [], _, hb, _ => .pure hb
  | a :: as, b, hb, h => by
    rw [List.foldlM_cons]
    refine bind (h a List.mem_cons_self b hb) fun c hc => ?_
    exact foldlM hc fun a ha => h a (List.mem_cons_of_mem _ ha)

theorem forIn {f : α → PUnit → Eval (ForInStep PUnit)} :
    ∀ {as : List α}, (∀ a ∈ as, C.Obeys (f a ⟨⟩) (· = .yield ⟨⟩)) →
      C.Obeys (ForIn.forIn as PUnit.unit f) fun _ => True
  | [], _ => .pure trivial
  | a :: as, h => by
    rw [List.forIn_cons]
    refine bind (h a List.mem_cons_self) ?_
    rintro _ rfl
    exact forIn fun a ha => h a (List.mem_cons_of_mem _ ha)

end Obeys

namespace Stable

variable {host : Option Host} (S : C.Stable host)
include S

/-! ## Operations -/

theorem fail (fault : RuntimeFault) {span : Option Span} (h : C.blames span) :
    C.Obeys (Eval.fail fault span) Q :=
  fun _ hw => WP.fail trivial (S.fails fault hw h)

/-- Failing on a condition, before the rest. -/
theorem failIf {p : Prop} [Decidable p] {fault : RuntimeFault} {span : Option Span}
    {rest : PUnit → Eval β} (h : C.blames span) (hr : C.Obeys (rest ⟨⟩) R) :
    C.Obeys (if p then Eval.fail fault span >>= rest else rest ⟨⟩) R := by
  split_ifs
  · exact (S.fail (Q := fun _ => True) fault h).bind fun _ _ => hr
  · exact hr

/-- What is looked up in the store is as the contract knows of values. -/
theorem store {f : Store → Eval β}
    (hf : ∀ s : Store, (∀ g name v, s.lookup? g name = some v → C.carries v) → C.Obeys (f s) R) :
    C.Obeys (Eval.store >>= f) R :=
  fun w hw => WP.bind (WP.store trivial (hf w.store (fun _ _ _ => S.found hw) w hw))

theorem newFrame (outer : FrameId) : C.Obeys (Eval.newFrame outer) C.fresh :=
  fun _ hw => WP.newFrame trivial trivial (S.pushed outer hw)

theorem parameter {f : FrameId} (name : String) {slot : Slot} (hf : C.fresh f)
    (hv : C.carries slot.value) : C.Obeys (modifyStore (·.define f name slot)) fun _ => True :=
  .modify fun _ hw => S.bound name hw hf hv

theorem define {n : Node} {f : FrameId} {name : String} {slot : Slot} (hn : C.admits n f)
    (hname : n.definedName? = some name) (hv : C.carries slot.value) :
    C.Obeys (modifyStore (·.define f name slot)) fun _ => True :=
  .modify fun _ hw => S.defined hw hn hname hv

theorem assign (f : FrameId) (name : String) {v : Value} (hv : C.carries v) :
    C.Obeys (modifyStore (·.assign f name v)) fun _ => True :=
  .modify fun _ hw => S.assigned f name hw hv

theorem argumentText (v : Value) : C.Obeys (Eval.argumentText v) fun _ => True := by
  unfold Eval.argumentText
  split
  · exact .pure trivial
  · exact S.fail _ S.blamesNone

theorem requireBool (symbol : String) (v : Value) {span : Option Span} (h : C.blames span) :
    C.Obeys (Eval.requireBool symbol v span) fun _ => True := by
  unfold Eval.requireBool
  split
  · exact .pure trivial
  · exact S.fail _ h

theorem operated {r : Except OperatorFault α} {span : Option Span} (h : C.blames span)
    (hr : ∀ a, r = .ok a → Q a) : C.Obeys (Eval.operated r span) Q := by
  unfold Eval.operated
  split
  · exact .pure (hr _ rfl)
  · exact S.fail _ h

theorem reference (name : String) (default : Option String) {span : Option Span} (f : FrameId)
    (h : C.blames span) : C.Obeys (Eval.reference name default span f) C.carries := by
  refine S.store fun s found => ?_
  split
  · next e => exact .pure (found f name _ e)
  · exact S.fail _ h
  · exact .pure (S.datum _)
  · next e =>
    refine .pure ?_
    split_ifs
    · exact S.datum _
    · exact found f name _ e

theorem runCommand (call : Call) {span : Option Span} (h : C.blames span) :
    C.Obeys (Eval.runCommand host call span) C.carries := by
  unfold Eval.runCommand
  cases host with
  | none => exact S.fail _ h
  | some asked =>
    intro w hw
    have good := S.answered call rfl hw
    have bad (fault : RuntimeFault) := S.refused call fault span rfl hw
    refine WP.bind (WP.get trivial (WP.bind (WP.set trivial trivial ?_)))
    change WP _ _ (w.asked asked call) _ _
    unfold Reply.fault? at good bad
    split
    · next reason e =>
      rw [e] at bad
      exact WP.fail trivial (bad _ rfl h)
    · next status output e =>
      rw [e] at good bad
      dsimp only at good bad
      split_ifs at good bad ⊢
      · exact WP.fail trivial (bad _ rfl h)
      · exact WP.fail trivial (bad _ rfl h)
      · exact WP.pure trivial ⟨good rfl, S.datum _⟩

/-! ## Forms -/

section

variable {eval : Node → FrameId → Eval Value}
  (heval : ∀ n f, C.admits n f → C.Obeys (eval n f) C.carries)
include heval

theorem entries {body : List Node} {f : FrameId} (h : ∀ n ∈ body, C.admits n f) :
    C.Obeys (Eval.entries eval body f) C.carries :=
  .foldlM (S.datum _) fun n hn _ _ => heval n f (h n hn)

omit S in
theorem arguments {args : List Node} {f : FrameId} (h : ∀ n ∈ args, C.admits n f) :
    C.Obeys (args.mapM (eval · f)) fun vs => ∀ v ∈ vs, C.carries v :=
  .mapM fun n hn => heval n f (h n hn)

theorem argumentOf {n : Node} {f : FrameId} (h : C.admits n f) :
    C.Obeys (eval n f >>= Eval.argumentText) fun _ => True :=
  (heval n f h).bind fun v _ => S.argumentText v

theorem applyClosure {c : Closure} {args : List Value} {span : Option Span}
    (hc : C.carries (.closure c)) (hargs : ∀ v ∈ args, C.carries v) (h : C.blames span) :
    C.Obeys (Eval.applyClosure eval c args span) C.carries := by
  unfold Eval.applyClosure
  refine S.failIf h (Obeys.bind (.forIn fun p _ => ?_) fun _ _ => ?_)
  · obtain ⟨⟨place, name, declared⟩, v⟩ := p
    cases declared with
    | none => exact .pure rfl
    | some t => exact S.failIf h (.pure rfl)
  refine (S.newFrame c.scope).bind fun f hf => ?_
  refine Obeys.bind (.forIn fun p hp => ?_) fun _ _ => Obeys.bind (Q := C.carries) ?_ fun v hv => ?_
  · exact (S.parameter _ hf (hargs p.2 (List.of_mem_zip hp).2)).bind fun _ _ => .pure rfl
  · -- the body may end with a return, which is a value here
    intro w hw
    refine WP.tryCatch (WP.exits (heval _ f (S.body hc hf) w hw) fun e v _ he => ?_)
    cases e with
    | returned a => exact WP.pure trivial (S.caught he)
    | error e => exact WP.throw trivial he
    | tooDeep => exact WP.throw trivial he
  · cases c.returns with
    | none => exact .pure hv
    | some t =>
      dsimp only
      split_ifs
      · exact .pure hv
      · exact S.fail _ h

theorem apply {callee : Value} {args : List Value} {span : Option Span} (hc : C.carries callee)
    (hargs : ∀ v ∈ args, C.carries v) (h : C.blames span) :
    C.Obeys (Eval.apply eval callee args span) C.carries := by
  unfold Eval.apply
  split
  · exact S.applyClosure heval hc hargs h
  · exact S.fail _ h

theorem command {span : Option Span} {env : List EnvBinding} {name : String} {args : List Node}
    {f : FrameId} (h : C.admits (.command span env name args) f) :
    C.Obeys (Eval.command host eval span env name args f) C.carries := by
  have blame : C.blames span := S.blamesNode h
  have ofArg (n : Node) (hn : n ∈ args) : C.admits n f :=
    S.direct h (List.mem_append_right _ hn)
  have ofEnv (b : EnvBinding) (hb : b ∈ env) : C.admits b.value f :=
    S.direct h (List.mem_append_left _ (List.mem_map_of_mem hb))
  refine S.store fun s found => ?_
  dsimp only
  split
  · next c e =>
    refine (arguments heval ofArg).bind fun vs hvs => S.applyClosure heval ?_ hvs blame
    split_ifs at e
    exact found f name _ e
  · refine Obeys.bind (Q := fun _ => True) (.foldlM trivial fun b hb _ _ => ?_) fun _ _ => ?_
    · refine (heval _ f (ofEnv b hb)).bind fun v _ => ?_
      exact (S.argumentText v).bind fun _ _ => .pure trivial
    · exact Obeys.bind (.mapM fun n hn => S.argumentOf heval (ofArg n hn)) fun _ _ =>
        S.runCommand _ blame

theorem binary {span : Option Span} {op : BinaryOperator} {left right : Node} {f : FrameId}
    (h : C.admits (.binary span op left right) f) :
    C.Obeys (Eval.binary eval span op left right f) C.carries := by
  have blame : C.blames span := S.blamesNode h
  have ofLeft : C.admits left f := S.direct h List.mem_cons_self
  have ofRight : C.admits right f := S.direct h (List.mem_cons_of_mem _ List.mem_cons_self)
  have logical : C.Obeys (do
      let b ← Eval.requireBool op.symbol (← eval left f) left.span
      if b = decide (op = .or) then return (Value.bool b)
      else return (Value.bool (← Eval.requireBool op.symbol (← eval right f) right.span)))
      C.carries := by
    refine (heval left f ofLeft).bind fun v _ => ?_
    refine (S.requireBool _ v (S.blamesNode ofLeft)).bind fun b _ => ?_
    split_ifs
    · exact .pure (S.datum _)
    · refine (heval right f ofRight).bind fun v _ => ?_
      exact (S.requireBool _ v (S.blamesNode ofRight)).bind fun _ _ => .pure (S.datum _)
  have operands {k : Value → Value → Eval Value} (hk : ∀ a b, C.Obeys (k a b) C.carries) :
      C.Obeys (do let a ← eval left f; let b ← eval right f; k a b) C.carries :=
    (heval left f ofLeft).bind fun a _ => (heval right f ofRight).bind fun b _ => hk a b
  have compared (a b : Value) :
      C.Obeys (do return Value.bool (← Eval.operated (a.compare op b) span)) C.carries :=
    (S.operated (Q := fun _ => True) blame fun _ _ => trivial).bind fun _ _ => .pure (S.datum _)
  unfold Eval.binary
  split
  iterate 2 exact logical
  iterate 6 exact operands compared
  refine operands fun a b => S.operated blame fun v hv => ?_
  obtain ⟨d, rfl⟩ := Value.arithmetic_datum hv
  exact S.datum d

theorem unary {span : Option Span} {op : UnaryOperator} {operand : Node} {f : FrameId}
    (h : C.admits (.unary span op operand) f) :
    C.Obeys (Eval.unary eval span op operand f) C.carries := by
  have blame : C.blames span := S.blamesNode h
  refine (heval operand f (S.direct h List.mem_cons_self)).bind fun v _ => ?_
  split
  · exact (S.requireBool _ _ blame).bind fun _ _ => .pure (S.datum _)
  · exact .pure (S.datum _)
  · exact S.fail _ blame

theorem interpolation {span : Option Span} {parts : List Part} {f : FrameId}
    (h : C.admits (.interpolation span parts) f) :
    C.Obeys (evaluateWith host eval (.interpolation span parts) f) C.carries := by
  refine Obeys.bind (Q := fun _ => True) ?_ fun _ _ => .pure (S.datum _)
  refine (Obeys.mapM (R := fun _ => True) fun p hp => ?_).mono fun _ _ => trivial
  cases p with
  | text s => exact .pure trivial
  | node n =>
    exact S.argumentOf heval (S.direct h (List.mem_filterMap.mpr ⟨.node n, hp, rfl⟩))

/-- A block evaluates its entries in a frame of its own. -/
theorem block {span : Option Span} {body : List Node} {f : FrameId}
    (h : C.admits (.block span body) f) :
    C.Obeys (evaluateWith host eval (.block span body) f) C.carries :=
  (S.newFrame f).bind fun _ hg => S.entries heval fun _ hn => S.enclosed h hg hn

/-- A substitution evaluates its entries in a frame of its own. -/
theorem substitution {span : Option Span} {body : List Node} {f : FrameId}
    (h : C.admits (.substitution span body) f) :
    C.Obeys (evaluateWith host eval (.substitution span body) f) C.carries := by
  refine (S.newFrame f).bind fun g hg => ?_
  refine (S.entries heval fun n hn => S.enclosed h hg hn).bind fun v _ => ?_
  split
  · exact .pure (S.datum _)
  · exact (S.argumentText _).bind fun _ _ => .pure (S.datum _)

theorem call {span : Option Span} {callee : Node} {args : List Node} {f : FrameId}
    (h : C.admits (.call span callee args) f) :
    C.Obeys (evaluateWith host eval (.call span callee args) f) C.carries := by
  refine (heval callee f (S.direct h List.mem_cons_self)).bind fun v hv => ?_
  refine (arguments heval fun n hn => S.direct h (List.mem_cons_of_mem _ hn)).bind fun vs hvs => ?_
  exact S.apply heval hv hvs (S.blamesNode h)

theorem conditional {span : Option Span} {condition thenBranch : Node} {elseBranch : Option Node}
    {f : FrameId} (h : C.admits (.conditional span condition thenBranch elseBranch) f) :
    C.Obeys (evaluateWith host eval (.conditional span condition thenBranch elseBranch) f)
      C.carries := by
  have ofCondition : C.admits condition f := S.direct h List.mem_cons_self
  refine (heval condition f ofCondition).bind fun v _ => ?_
  split
  · exact heval thenBranch f (S.direct h (List.mem_cons_of_mem _ List.mem_cons_self))
  · cases elseBranch with
    | none => exact .pure (S.datum _)
    | some n =>
      refine heval n f (S.direct h ?_)
      exact List.mem_cons_of_mem _ (List.mem_cons_of_mem _ List.mem_cons_self)
  · exact S.fail _ (S.blamesNode ofCondition)

omit heval in
theorem function {span bodySpan : Option Span} {name : Option String} {params : List Param}
    {returns : Option Ty} {body : List Node} {f : FrameId}
    (h : C.admits (.function span name params returns bodySpan body) f) :
    C.Obeys (evaluateWith host eval (.function span name params returns bodySpan body) f)
      C.carries := by
  refine Obeys.get.bind fun w _ => Obeys.bind (.modify fun _ => S.counted) fun _ _ => ?_
  have made := S.closure w.closures h
  cases name with
  | none => exact .pure made
  | some name => exact (S.define h rfl made).bind fun _ _ => .pure made

theorem ret {span : Option Span} {value : Option Node} {f : FrameId}
    (h : C.admits (.ret span value) f) :
    C.Obeys (evaluateWith host eval (.ret span value) f) C.carries := by
  have leave {v : Value} (hv : C.carries v) :
      C.Obeys (throw (.returned v) : Eval Value) C.carries :=
    fun w hw => WP.throw trivial (S.returns hw hv)
  cases value with
  | none => exact (Obeys.pure (S.datum _)).bind fun _ hv => leave hv
  | some n => exact (heval n f (S.direct h List.mem_cons_self)).bind fun _ hv => leave hv

theorem definition {span : Option Span} {name : String} {declared : Option Ty} {value : Node}
    {f : FrameId} (h : C.admits (.define span name declared value) f) :
    C.Obeys (evaluateWith host eval (.define span name declared value) f) C.carries := by
  refine (heval value f (S.direct h List.mem_cons_self)).bind fun v hv => ?_
  have defined : C.Obeys (do modifyStore (·.define f name ⟨v, declared⟩); return v) C.carries :=
    (S.define h rfl hv).bind fun _ _ => .pure hv
  cases declared with
  | none => exact defined
  | some t => exact S.failIf (S.blamesNode h) defined

theorem assignment {span : Option Span} {name : String} {value : Node} {f : FrameId}
    (h : C.admits (.assign span name value) f) :
    C.Obeys (evaluateWith host eval (.assign span name value) f) C.carries := by
  refine (heval value f (S.direct h List.mem_cons_self)).bind fun v hv => S.store fun s _ => ?_
  have assigned : C.Obeys (do modifyStore (·.assign f name v); return v) C.carries :=
    (S.assign f name hv).bind fun _ _ => .pure hv
  cases s.slot? f name with
  | none => exact S.fail _ (S.blamesNode h)
  | some slot =>
    obtain ⟨value, declared⟩ := slot
    cases declared with
    | none => exact assigned
    | some t => exact S.failIf (S.blamesNode h) assigned

/-- One step of evaluation, by what is known of the evaluations below. -/
theorem evaluateWith {n : Node} {f : FrameId} (h : C.admits n f) :
    C.Obeys (Eval.evaluateWith host eval n f) C.carries := by
  cases n with
  | literal => exact .pure (S.datum _)
  | reference => exact S.reference _ _ _ (S.blamesNode h)
  | interpolation => exact S.interpolation heval h
  | substitution => exact S.substitution heval h
  | binding | parameter | blank => exact S.fail _ (S.blamesNode h)
  | command => exact S.command heval h
  | call => exact S.call heval h
  | conditional => exact S.conditional heval h
  | block => exact S.block heval h
  | program => exact S.entries heval fun _ hn => S.direct h hn
  | function => exact S.function h
  | binary => exact S.binary heval h
  | unary => exact S.unary heval h
  | ret => exact S.ret heval h
  | define => exact S.definition heval h
  | assign => exact S.assignment heval h

end

/-- Evaluating a node that a stable contract admits obeys the contract. -/
theorem evaluate (depth : Nat) {n : Node} {f : FrameId} (h : C.admits n f) :
    C.Obeys (Eval.evaluate host depth n f) C.carries := by
  induction depth generalizing n f with
  | zero => exact fun _ hw => WP.throw trivial (S.tooDeep hw)
  | succ depth ih => exact S.evaluateWith (fun _ _ => ih) h

/-- What a stable contract says of the end of an evaluation. -/
theorem run_evaluate (depth : Nat) {n : Node} {f : FrameId} (h : C.admits n f) {w : World}
    (hw : C.holds w) :
    match (Eval.evaluate host depth n f).run w with
    | (.ok v, u) => C.holds u ∧ C.carries v
    | (.error e, u) => C.ends e u := by
  have ends := (wp_iff.mp (S.evaluate depth h w hw)).2
  rcases e : (Eval.evaluate host depth n f).run w with ⟨_ | _, u⟩ <;> rw [e] at ends <;> exact ends

end Stable

end Contract

end Eval

end Sigil
