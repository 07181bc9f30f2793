import Mathlib.Tactic.SplitIfs
import Sigil.Proofs.Evaluation.Rules
import Sigil.Proofs.Store.Relabelled

/-!
# Evaluation of relabelled trees

A tree with other labels is evaluated as the tree itself is, in worlds with
other labels (`evaluate_carries`). Where declared types stay, every end is the
same; where they are left out, nothing but the checks of types is, so that
evaluation goes on where such a check failed, and a value or a `return` is the
same.

Only the text of a closure tells what its labels are. So evaluation is
written for a given way of turning values into text (`evaluateBy`), which has
to be as good for the values with other labels (`CarriesText`).
-/

namespace Sigil

namespace Eval

/-! ## Evaluation by texts -/

/-- A value as text, for what text it has. -/
def textBy (text : Value → Option String) (v : Value) : Eval String :=
  match text v with
  | some s => return s
  | none => fail .integerTooLong none

section

variable (text : Value → Option String) (host : Option Host) (eval : Node → FrameId → Eval Value)

/-- Evaluates a command, with given texts for values. -/
def commandBy (span : Option Span) (env : List EnvBinding) (name : String) (args : List Node)
    (f : FrameId) : Eval Value := do
  let s ← store
  let named := if env.isEmpty then s.lookup? f name else none
  match named with
  | some (.closure c) =>
    let args ← args.mapM (eval · f)
    applyClosure eval c args span
  | _ =>
    let overrides ← env.foldlM (fun (t : Names String) b => do
      return t.insert b.name (← textBy text (← eval b.value f))) []
    let args ← args.mapM fun n => do textBy text (← eval n f)
    runCommand host ⟨name, args, if overrides.isEmpty then none else some overrides⟩ span

/-- Evaluates a node, given how to evaluate the nodes below it and what text values have. -/
def evaluateWithBy (n : Node) (f : FrameId) : Eval Value :=
  match n with
  | .interpolation _ parts => do
    let texts ← parts.mapM fun
      | .text s => return s
      | .node n => do textBy text (← eval n f)
    return .string (String.join texts)
  | .substitution _ body => do
    match ← entries eval body (← newFrame f) with
    | .unit => return .string ""
    | v => return .string (← textBy text v)
  | .command span env name args => commandBy text host eval span env name args f
  | n => evaluateWith host eval n f

end

/-- Evaluates a node, at most so deep, with given texts for values. -/
def evaluateBy (text : Value → Option String) (host : Option Host) :
    Nat → Node → FrameId → Eval Value
  | 0, _, _ => throw .tooDeep
  | depth + 1, n, f => evaluateWithBy text host (evaluateBy text host depth) n f

/-- The texts that values have as arguments of commands are those of evaluation. -/
theorem evaluateBy_argument? (host : Option Host) (depth : Nat) :
    evaluateBy Value.argument? host depth = evaluate host depth := by
  induction depth with
  | zero => rfl
  | succ depth ih =>
    funext n f
    rw [evaluateBy, evaluate, ih]
    cases n <;> rfl

/-! ## Carried evaluation -/

/-- The ends other than a value that stay with other labels: a `return` always, an error only where
errors are said to stay. -/
def Stays (errors : Prop) (e : Exit) : Prop :=
  errors ∨ ∃ v, e = .returned v

/-- Evaluation is carried over to other labels: in a world with other labels it ends with the other
labels as well, for an end that stays. -/
def Carries {α β : Type} (r : Relabel) (errors : Prop) (g : α → β) (m : Eval α) (m' : Eval β) :
    Prop :=
  ∀ w : World, match m.run w with
    | (.ok a, v) => m'.run (w.relabel r) = (.ok (g a), v.relabel r)
    | (.error e, v) => Stays errors e → m'.run (w.relabel r) = (.error (e.relabel r), v.relabel r)

section

variable {α β γ δ : Type} {r : Relabel} {errors : Prop} {g : α → β} {h : γ → δ} {m : Eval α}
  {m' : Eval β}

theorem Carries.pure {a : α} : Carries r errors g (Pure.pure a) (Pure.pure (g a)) :=
  fun _ => rfl

theorem Carries.fail {fault : RuntimeFault} {span : Option Span}
    (hm : errors → m' = Eval.fail fault (r.span span)) :
    Carries r errors g (Eval.fail fault span) m' := by
  intro w hs
  rcases hs with stays | ⟨v, e⟩
  · rw [hm stays]
    rfl
  · cases e

theorem Carries.returned {v : Value} : Carries r errors g (throw (.returned v))
    (throw (.returned (v.relabel r))) :=
  fun _ _ => rfl

theorem Carries.tooDeep : Carries r errors g (throw .tooDeep) (throw .tooDeep) :=
  fun _ _ => rfl

theorem Carries.bind {f : α → Eval γ} {f' : β → Eval δ} (hm : Carries r errors g m m')
    (hf : ∀ a, Carries r errors h (f a) (f' (g a))) : Carries r errors h (m >>= f) (m' >>= f') := by
  intro w
  have first := hm w
  rw [run_bind, run_bind]
  rcases e : m.run w with ⟨x | a, v⟩ <;> rw [e] at first
  · intro hs
    rw [first hs]
  · rw [first]
    exact hf a v

/-- A `return` is taken by a call. -/
theorem Carries.takeReturn {m m' : Eval Value} (hm : Carries r errors (Value.relabel r) m m') :
    Carries r errors (Value.relabel r)
      (tryCatch m fun
        | .returned v => return v
        | e => throw e)
      (tryCatch m' fun
        | .returned v => return v
        | e => throw e) := by
  intro w
  have first := hm w
  rw [run_tryCatch, run_tryCatch]
  rcases e : m.run w with ⟨x | a, v⟩ <;> rw [e] at first
  · cases x with
    | returned v =>
      rw [first (.inr ⟨v, rfl⟩)]
      rfl
    | error e =>
      intro hs
      rw [first hs]
      rfl
    | tooDeep =>
      intro hs
      rw [first hs]
      rfl
  · rw [first]

theorem Carries.mapM {k : γ → δ} {f : γ → Eval α} {f' : δ → Eval β} {as : List γ}
    (hf : ∀ a ∈ as, Carries r errors g (f a) (f' (k a))) :
    Carries r errors (List.map g) (as.mapM f) ((as.map k).mapM f') := by
  induction as with
  | nil => exact .pure
  | cons a as ih =>
    rw [List.map_cons, List.mapM_cons, List.mapM_cons]
    refine (hf a List.mem_cons_self).bind fun b => ?_
    exact (ih fun a ha => hf a (List.mem_cons_of_mem _ ha)).bind fun bs => .pure

theorem Carries.foldlM {k : γ → δ} {f : α → γ → Eval α} {f' : β → δ → Eval β} {as : List γ}
    (hf : ∀ b, ∀ a ∈ as, Carries r errors g (f b a) (f' (g b) (k a))) (b : α) :
    Carries r errors g (as.foldlM f b) ((as.map k).foldlM f' (g b)) := by
  induction as generalizing b with
  | nil => exact .pure
  | cons a as ih =>
    rw [List.map_cons, List.foldlM_cons, List.foldlM_cons]
    refine (hf b a List.mem_cons_self).bind fun c => ?_
    exact ih (fun b a ha => hf b a (List.mem_cons_of_mem _ ha)) c

theorem Carries.forIn {k : γ → δ} {f : γ → PUnit → Eval (ForInStep PUnit)}
    {f' : δ → PUnit → Eval (ForInStep PUnit)} {as : List γ}
    (hf : ∀ a ∈ as, Carries r errors id (f a ⟨⟩) (f' (k a) ⟨⟩)) :
    Carries r errors id (ForIn.forIn as PUnit.unit f) (ForIn.forIn (as.map k) PUnit.unit f') := by
  induction as with
  | nil => exact .pure
  | cons a as ih =>
    rw [List.map_cons, List.forIn_cons, List.forIn_cons]
    refine (hf a List.mem_cons_self).bind fun step => ?_
    cases step with
    | done => exact .pure
    | yield => exact ih fun a ha => hf a (List.mem_cons_of_mem _ ha)

/-! ## The world -/

theorem Carries.get : Carries r errors (World.relabel r) MonadState.get MonadState.get :=
  fun _ => rfl

theorem Carries.store : Carries r errors (Store.relabel r) Eval.store Eval.store :=
  fun _ => rfl

theorem Carries.set {w : World} :
    Carries r errors id (MonadStateOf.set w : Eval PUnit) (MonadStateOf.set (w.relabel r)) :=
  fun _ => rfl

theorem Carries.modify {f f' : World → World}
    (hf : ∀ w, f' (w.relabel r) = (f w).relabel r) :
    Carries r errors id (modify f : Eval PUnit) (modify f') := by
  intro w
  exact congrArg (Prod.mk (Except.ok PUnit.unit)) (hf w)

theorem Carries.modifyStore {f f' : Store → Store}
    (hf : ∀ s, f' (s.relabel r) = (f s).relabel r) :
    Carries r errors id (Eval.modifyStore f) (Eval.modifyStore f') :=
  .modify fun w => by
    simp only [World.relabel, hf]

theorem Carries.newFrame {f : FrameId} :
    Carries r errors id (Eval.newFrame f) (Eval.newFrame f) := by
  intro w
  have size : (w.relabel r).store.frames.size = w.store.frames.size := Store.size_relabel r w.store
  have push := Store.relabel_push r w.store (some f)
  refine Prod.ext (congrArg Except.ok size) ?_
  exact congrArg (fun s => { w with store := s }) push.symm

end

/-! ## Operations -/

/-- What carrying over needs: texts of values that are as good for the values with other labels,
and, if errors are to stay, the types that they tell of. -/
structure CarriesText (r : Relabel) (errors : Prop) (text text' : Value → Option String) :
    Prop where
  typed : errors → r.typed
  carried : ∀ v s, text v = some s → text' (v.relabel r) = some s
  missing : errors → ∀ v, text v = none → text' (v.relabel r) = none

section

variable {r : Relabel} {errors : Prop} {text text' : Value → Option String}
  (ht : CarriesText r errors text text')

theorem runCommand_carries (host : Option Host) (call : Call) (span : Option Span) :
    Carries r errors (Value.relabel r) (runCommand host call span)
      (runCommand host call (r.span span)) := by
  unfold runCommand
  cases host with
  | none => exact .fail fun _ => rfl
  | some host =>
    refine Carries.get.bind fun w => Carries.bind (g := id) .set fun _ => ?_
    dsimp only [World.relabel]
    cases (host.reply w.calls call).outcome with
    | failed reason => exact .fail fun _ => rfl
    | exited status output =>
      dsimp only
      split_ifs
      · exact .fail fun _ => rfl
      · exact .fail fun _ => rfl
      · exact .pure

theorem reference_carries (name : String) (default : Option String) (span : Option Span)
    (f : FrameId) :
    Carries r errors (Value.relabel r) (reference name default span f)
      (reference name default (r.span span) f) := by
  refine Carries.store.bind fun s => ?_
  rw [Store.lookup?_relabel]
  cases s.lookup? f name with
  | none =>
    cases default with
    | none => exact .fail fun _ => rfl
    | some d => exact .pure (a := Value.string d)
  | some v =>
    cases default with
    | none => exact .pure
    | some d =>
      dsimp only [Option.map_some]
      rw [Value.asText_relabel]
      split_ifs
      · exact .pure (a := Value.string d)
      · exact .pure

include ht

theorem textBy_carries (v : Value) :
    Carries r errors id (textBy text v) (textBy text' (v.relabel r)) := by
  unfold textBy
  cases hv : text v with
  | none =>
    refine .fail fun stays => ?_
    rw [ht.missing stays v hv]
    rfl
  | some s =>
    rw [ht.carried v s hv]
    exact .pure

theorem requireBool_carries (symbol : String) (v : Value) (span : Option Span) :
    Carries r errors id (requireBool symbol v span)
      (requireBool symbol (v.relabel r) (r.span span)) := by
  cases v with
  | datum d =>
    cases d with
    | bool b => exact .pure
    | _ => exact .fail fun _ => rfl
  | closure c =>
    refine .fail fun stays => ?_
    exact congrArg (fun t => Eval.fail (.notBool symbol t) (r.span span))
      (Value.type_relabel (ht.typed stays) (.closure c))

theorem mismatched_carries {α β : Type} {g : α → β} (op : BinaryOperator) (a b : Value)
    (span : Option Span) :
    Carries r errors g (operated (.error (Value.mismatched op a b)) span)
      (operated (.error (Value.mismatched op (a.relabel r) (b.relabel r))) (r.span span)) := by
  refine .fail fun stays => ?_
  rw [Value.mismatched, Value.type_relabel (ht.typed stays), Value.type_relabel (ht.typed stays)]
  rfl

theorem compared_carries (op : BinaryOperator) (a b : Value) (span : Option Span) :
    Carries r errors id (operated (a.compare op b) span)
      (operated ((a.relabel r).compare op (b.relabel r)) (r.span span)) := by
  unfold Value.compare
  rw [Value.equal_relabel, Value.order?_relabel]
  split
  · exact .pure
  · exact .pure
  · cases a.order? b with
    | none => exact mismatched_carries ht op a b span
    | some o => exact .pure

theorem arithmetic_carries (op : BinaryOperator) (a b : Value) (span : Option Span) :
    Carries r errors (Value.relabel r) (operated (a.arithmetic op b) span)
      (operated ((a.relabel r).arithmetic op (b.relabel r)) (r.span span)) := by
  have mismatch (hm : a.arithmetic op b = .error (Value.mismatched op a b))
      (hr : (a.relabel r).arithmetic op (b.relabel r) =
        .error (Value.mismatched op (a.relabel r) (b.relabel r))) :
      Carries r errors (Value.relabel r) (operated (a.arithmetic op b) span)
        (operated ((a.relabel r).arithmetic op (b.relabel r)) (r.span span)) := by
    rw [hm, hr]
    exact mismatched_carries ht op a b span
  cases a with
  | closure c => exact mismatch (by cases op <;> rfl) (by cases op <;> rfl)
  | datum d =>
    cases b with
    | closure c =>
      exact mismatch (by cases op <;> cases d <;> rfl) (by cases op <;> cases d <;> rfl)
    | datum e =>
      dsimp only [Value.relabel]
      cases computed : (Value.datum d).arithmetic op (.datum e) with
      | error fault => exact .fail fun _ => rfl
      | ok c =>
        obtain ⟨d, rfl⟩ := Value.arithmetic_datum computed
        exact .pure (a := Value.datum d)

/-- A value is kept where a type is declared for it: with the other labels the check is the same, or
there is none. -/
theorem checked_carries {γ δ : Type} {h : γ → δ} {fault : Ty → Ty → RuntimeFault}
    (declared : Option Ty) (v : Value) (span : Option Span) {k : PUnit → Eval γ}
    {k' : PUnit → Eval δ} (hk : Carries r errors h (k ⟨⟩) (k' ⟨⟩)) :
    Carries r errors h
      (match declared with
        | some t => if !v.fits declared then fail (fault t v.type) span >>= k else k ⟨⟩
        | _ => k ⟨⟩)
      (match r.type declared with
        | some t =>
          if !(v.relabel r).fits (r.type declared) then
            fail (fault t (v.relabel r).type) (r.span span) >>= k'
          else k' ⟨⟩
        | _ => k' ⟨⟩) := by
  cases declared with
  | none =>
    rw [Relabel.type_none]
    exact hk
  | some t =>
    by_cases typed : r.typed
    · rw [Relabel.type, if_pos typed, Value.fits_relabel typed, Value.type_relabel typed]
      dsimp only
      split_ifs
      · exact .fail fun _ => rfl
      · exact hk
    · rw [Relabel.type, if_neg typed]
      dsimp only
      split_ifs
      · exact .fail fun stays => absurd (ht.typed stays) typed
      · exact hk

/-- The result of a call is what its type says: with the other labels the check is the same, or
there is none. -/
theorem result_carries {fault : Ty → Ty → RuntimeFault} (returns : Option Ty) (v : Value)
    (span : Option Span) :
    Carries r errors (Value.relabel r)
      (match returns with
        | none => Pure.pure v
        | some t => if v.fits (some t) then Pure.pure v else fail (fault t v.type) span)
      (match r.type returns with
        | none => Pure.pure (v.relabel r)
        | some t =>
          if (v.relabel r).fits (some t) then Pure.pure (v.relabel r)
          else fail (fault t (v.relabel r).type) (r.span span)) := by
  cases returns with
  | none =>
    rw [Relabel.type_none]
    exact .pure
  | some t =>
    by_cases typed : r.typed
    · rw [Relabel.type, if_pos typed]
      dsimp only
      rw [Value.fits_relabel typed, Value.type_relabel typed]
      split_ifs
      · exact .pure
      · exact .fail fun _ => rfl
    · rw [Relabel.type, if_neg typed]
      dsimp only
      split_ifs
      · exact .pure
      · exact .fail fun stays => absurd (ht.typed stays) typed

end

section

variable {r : Relabel} {errors : Prop} {text text' : Value → Option String} {host : Option Host}
  {eval eval' : Node → FrameId → Eval Value} (ht : CarriesText r errors text text')
  (heval : ∀ n f, Carries r errors (Value.relabel r) (eval n f) (eval' (n.relabel r) f))

include heval

/-! ## Entries and calls -/

theorem entries_carries (body : List Node) (f : FrameId) :
    Carries r errors (Value.relabel r) (entries eval body f)
      (entries eval' (Node.relabelAll r body) f) := by
  unfold entries
  rw [Node.relabelAll_eq_map]
  show Carries r errors _ _ (List.foldlM _ (Value.unit.relabel r) _)
  exact .foldlM (fun _ n _ => heval n f) _

theorem arguments_carries (args : List Node) (f : FrameId) :
    Carries r errors (List.map (Value.relabel r)) (args.mapM (eval · f))
      ((Node.relabelAll r args).mapM (eval' · f)) := by
  rw [Node.relabelAll_eq_map]
  exact .mapM fun n _ => heval n f

include ht

theorem applyClosure_carries (c : Closure) (args : List Value) (span : Option Span) :
    Carries r errors (Value.relabel r) (applyClosure eval c args span)
      (applyClosure eval' (c.relabel r) (args.map (·.relabel r)) (r.span span)) := by
  have zip : (c.relabel r).params.zip (args.map (·.relabel r)) =
      (c.params.zip args).map (Prod.map (·.relabel r) (·.relabel r)) := List.zip_map
  unfold applyClosure
  rw [zip]
  simp only [Closure.relabel, List.length_map]
  split_ifs
  · exact .fail fun _ => rfl
  refine Carries.bind (g := id) (.forIn fun q _ => ?_) fun _ => ?_
  · exact checked_carries ht q.1.declared q.2 span .pure
  refine Carries.newFrame.bind fun f => ?_
  refine Carries.bind (g := id) (.forIn fun q _ => ?_) fun _ => ?_
  · refine Carries.bind (g := id) (.modifyStore fun s => ?_) fun _ => .pure
    exact (Store.relabel_define r s f q.1.name ⟨q.2, q.1.declared⟩).symm
  refine (heval (.block c.bodySpan c.body) f).takeReturn.bind fun v => ?_
  exact result_carries ht c.returns v span

theorem apply_carries (callee : Value) (args : List Value) (span : Option Span) :
    Carries r errors (Value.relabel r) (apply eval callee args span)
      (apply eval' (callee.relabel r) (args.map (·.relabel r)) (r.span span)) := by
  cases callee with
  | datum d => exact .fail fun _ => rfl
  | closure c => exact applyClosure_carries ht heval c args span

/-! ## Texts and commands -/

theorem argumentOf_carries (n : Node) (f : FrameId) :
    Carries r errors id (do textBy text (← eval n f)) (do textBy text' (← eval' (n.relabel r) f)) :=
  (heval n f).bind fun v => textBy_carries ht v

theorem command_carries (span : Option Span) (env : List EnvBinding)
    (name : String) (args : List Node) (f : FrameId) :
    Carries r errors (Value.relabel r) (commandBy text host eval span env name args f)
      (commandBy text' host eval' (r.span span) (Node.relabelBindings r env) name
        (Node.relabelAll r args) f) := by
  refine Carries.store.bind fun s => ?_
  dsimp only
  rw [Node.relabelBindings_eq_map, List.isEmpty_map, Store.lookup?_relabel]
  have run : Carries r errors (Value.relabel r)
      (do
        let overrides ← env.foldlM (fun (t : Names String) b => do
          return t.insert b.name (← textBy text (← eval b.value f))) []
        let args ← args.mapM fun n => do textBy text (← eval n f)
        runCommand host ⟨name, args, if overrides.isEmpty then none else some overrides⟩ span)
      (do
        let overrides ← (env.map (Node.relabelBinding r)).foldlM (fun (t : Names String) b => do
          return t.insert b.name (← textBy text' (← eval' b.value f))) []
        let args ← (Node.relabelAll r args).mapM fun n => do textBy text' (← eval' n f)
        runCommand host ⟨name, args, if overrides.isEmpty then none else some overrides⟩
          (r.span span)) := by
    refine Carries.bind (g := id) (.foldlM (fun t b _ => ?_) _) fun t => ?_
    · obtain ⟨place, name, value⟩ := b
      refine (heval value f).bind fun v => (textBy_carries ht v).bind fun s => .pure
    · rw [Node.relabelAll_eq_map]
      refine Carries.bind (.mapM fun n _ => argumentOf_carries ht heval n f) fun ss => ?_
      rw [List.map_id]
      exact runCommand_carries host _ span
  split_ifs
  · cases s.lookup? f name with
    | none => exact run
    | some v =>
      cases v with
      | datum d => exact run
      | closure c =>
        refine (arguments_carries heval args f).bind fun vs => ?_
        exact applyClosure_carries ht heval c vs span
  · exact run

theorem interpolation_carries (span : Option Span) (parts : List Part)
    (f : FrameId) :
    Carries r errors (Value.relabel r)
      (evaluateWithBy text host eval (.interpolation span parts) f)
      (evaluateWithBy text' host eval' ((Node.interpolation span parts).relabel r) f) := by
  unfold Node.relabel
  rw [Node.relabelParts_eq_map]
  refine Carries.bind (g := List.map id) (.mapM fun p _ => ?_) fun texts => ?_
  · cases p with
    | text s => exact .pure
    | node n => exact argumentOf_carries ht heval n f
  · rw [List.map_id]
    exact .pure (a := Value.string (String.join texts))

theorem substitution_carries (span : Option Span) (body : List Node)
    (f : FrameId) :
    Carries r errors (Value.relabel r)
      (evaluateWithBy text host eval (.substitution span body) f)
      (evaluateWithBy text' host eval' ((Node.substitution span body).relabel r) f) := by
  refine Carries.newFrame.bind fun g => (entries_carries heval body g).bind fun v => ?_
  have written (v : Value) : Carries r errors (Value.relabel r)
      (do return Value.string (← textBy text v))
      (do return Value.string (← textBy text' (v.relabel r))) :=
    (textBy_carries ht v).bind fun s => .pure (a := Value.string s)
  cases v with
  | datum d =>
    cases d with
    | unit => exact .pure (a := Value.string "")
    | _ => exact written (.datum _)
  | closure c => exact written (.closure c)

/-! ## Operations and branches -/

theorem binary_carries (span : Option Span) (op : BinaryOperator) (left right : Node)
    (f : FrameId) :
    Carries r errors (Value.relabel r) (binary eval span op left right f)
      (binary eval' (r.span span) op (left.relabel r) (right.relabel r) f) := by
  have operands {k k' : Value → Value → Eval Value}
      (hk : ∀ a b, Carries r errors (Value.relabel r) (k a b) (k' (a.relabel r) (b.relabel r))) :
      Carries r errors (Value.relabel r) (do let a ← eval left f; let b ← eval right f; k a b)
        (do let a ← eval' (left.relabel r) f; let b ← eval' (right.relabel r) f; k' a b) :=
    (heval left f).bind fun a => (heval right f).bind fun b => hk a b
  have compared (a b : Value) : Carries r errors (Value.relabel r)
      (do return Value.bool (← operated (a.compare op b) span))
      (do return Value.bool (← operated ((a.relabel r).compare op (b.relabel r)) (r.span span))) :=
    (compared_carries ht op a b span).bind fun b => .pure (a := Value.bool b)
  have logical : Carries r errors (Value.relabel r)
      (do
        let b ← requireBool op.symbol (← eval left f) left.span
        if b = decide (op = .or) then return .bool b
        else return .bool (← requireBool op.symbol (← eval right f) right.span))
      (do
        let b ← requireBool op.symbol (← eval' (left.relabel r) f) (left.relabel r).span
        if b = decide (op = .or) then return .bool b
        else
          return .bool
            (← requireBool op.symbol (← eval' (right.relabel r) f) (right.relabel r).span)) := by
    rw [Node.span_relabel, Node.span_relabel]
    refine (heval left f).bind fun a => ?_
    refine (requireBool_carries ht op.symbol a left.span).bind fun b => ?_
    dsimp only [id]
    split_ifs
    · exact .pure (a := Value.bool b)
    · refine (heval right f).bind fun a => ?_
      exact (requireBool_carries ht op.symbol a right.span).bind fun b => .pure (a := Value.bool b)
  cases op with
  | and | or => exact logical
  | equal | unequal | less | lessEqual | greater | greaterEqual => exact operands compared
  | _ => exact operands fun a b => arithmetic_carries ht _ a b span

theorem unary_carries (span : Option Span) (op : UnaryOperator) (operand : Node) (f : FrameId) :
    Carries r errors (Value.relabel r) (unary eval span op operand f)
      (unary eval' (r.span span) op (operand.relabel r) f) := by
  refine (heval operand f).bind fun v => ?_
  cases op with
  | not => exact (requireBool_carries ht _ v span).bind fun b => .pure (a := Value.bool (!b))
  | neg | other =>
    cases v with
    | datum d =>
      cases d with
      | number n => exact .pure (a := Value.number n.neg)
      | _ => exact .fail fun _ => rfl
    | closure c =>
      refine .fail fun stays => ?_
      exact congrArg (fun t => Eval.fail (.negation t) (r.span span))
        (Value.type_relabel (ht.typed stays) (.closure c))

theorem conditional_carries (span : Option Span) (condition thenBranch : Node)
    (elseBranch : Option Node) (f : FrameId) :
    Carries r errors (Value.relabel r)
      (evaluateWithBy text host eval (.conditional span condition thenBranch elseBranch) f)
      (evaluateWithBy text' host eval'
        ((Node.conditional span condition thenBranch elseBranch).relabel r) f) := by
  have failed (v : Value) : Carries r errors (Value.relabel r)
      (fail (.condition v.type) condition.span)
      (fail (.condition (v.relabel r).type) (condition.relabel r).span) := by
    refine .fail fun stays => ?_
    rw [Node.span_relabel, Value.type_relabel (ht.typed stays)]
  cases elseBranch with
  | none =>
    refine (heval condition f).bind fun v => ?_
    cases v with
    | closure c => exact failed (.closure c)
    | datum d =>
      cases d with
      | bool b =>
        cases b with
        | true => exact heval thenBranch f
        | false => exact .pure (a := Value.unit)
      | _ => exact failed (.datum _)
  | some n =>
    refine (heval condition f).bind fun v => ?_
    cases v with
    | closure c => exact failed (.closure c)
    | datum d =>
      cases d with
      | bool b =>
        cases b with
        | true => exact heval thenBranch f
        | false => exact heval n f
      | _ => exact failed (.datum _)

/-! ## Definitions -/

omit ht heval in
theorem function_carries (span : Option Span) (name : Option String) (params : List Param)
    (returns : Option Ty) (bodySpan : Option Span) (body : List Node) (f : FrameId) :
    Carries r errors (Value.relabel r)
      (evaluateWithBy text host eval (.function span name params returns bodySpan body) f)
      (evaluateWithBy text' host eval'
        ((Node.function span name params returns bodySpan body).relabel r) f) := by
  refine Carries.get.bind fun w => Carries.bind (g := id) (.modify fun w => rfl) fun _ => ?_
  let made := Value.closure ⟨w.closures, name, params, returns, bodySpan, body, f⟩
  cases name with
  | none => exact .pure (a := made)
  | some name =>
    refine Carries.bind (g := id) (.modifyStore fun s => ?_) fun _ => .pure (a := made)
    have define := (Store.relabel_define r s f name ⟨made, none⟩).symm
    rwa [Slot.relabel, Relabel.type_none] at define

theorem define_carries (span : Option Span) (name : String) (declared : Option Ty) (value : Node)
    (f : FrameId) :
    Carries r errors (Value.relabel r)
      (evaluateWithBy text host eval (.define span name declared value) f)
      (evaluateWithBy text' host eval' ((Node.define span name declared value).relabel r) f) := by
  refine (heval value f).bind fun v => checked_carries ht declared v span ?_
  refine Carries.bind (g := id) (.modifyStore fun s => ?_) fun _ => .pure
  exact (Store.relabel_define r s f name ⟨v, declared⟩).symm

theorem assign_carries (span : Option Span) (name : String) (value : Node) (f : FrameId) :
    Carries r errors (Value.relabel r)
      (evaluateWithBy text host eval (.assign span name value) f)
      (evaluateWithBy text' host eval' ((Node.assign span name value).relabel r) f) := by
  refine (heval value f).bind fun v => Carries.store.bind fun s => ?_
  rw [Store.slot?_relabel]
  cases s.slot? f name with
  | none => exact .fail fun _ => rfl
  | some slot =>
    refine checked_carries ht slot.declared v span ?_
    refine Carries.bind (g := id) (.modifyStore fun s => ?_) fun _ => .pure
    exact (Store.relabel_assign r s f name v).symm

/-! ## Nodes -/

theorem evaluateWith_carries (n : Node) (f : FrameId) :
    Carries r errors (Value.relabel r) (evaluateWithBy text host eval n f)
      (evaluateWithBy text' host eval' (n.relabel r) f) := by
  cases n with
  | literal span value => exact .pure (a := Value.datum value)
  | reference span name default => exact reference_carries name default span f
  | interpolation span parts => exact interpolation_carries ht heval span parts f
  | substitution span body => exact substitution_carries ht heval span body f
  | command span env name args => exact command_carries ht heval span env name args f
  | call span callee args =>
    refine (heval callee f).bind fun v => (arguments_carries heval args f).bind fun vs => ?_
    exact apply_carries ht heval v vs span
  | conditional span condition thenBranch elseBranch =>
    exact conditional_carries ht heval span condition thenBranch elseBranch f
  | block span body => exact Carries.newFrame.bind fun g => entries_carries heval body g
  | program span body => exact entries_carries heval body f
  | function span name params returns bodySpan body =>
    exact function_carries span name params returns bodySpan body f
  | binary span op left right => exact binary_carries ht heval span op left right f
  | unary span op operand => exact unary_carries ht heval span op operand f
  | ret span value =>
    cases value with
    | none => exact .returned (v := .unit)
    | some n => exact (heval n f).bind fun v => .returned
  | define span name declared value => exact define_carries ht heval span name declared value f
  | assign span name value => exact assign_carries ht heval span name value f
  | binding b =>
    obtain ⟨place, name, value⟩ := b
    exact .fail fun _ => rfl
  | parameter p => exact .fail fun _ => rfl
  | blank span => exact .fail fun _ => rfl

end

/-- Evaluation of a tree is carried over to the tree with other labels. -/
theorem evaluate_carries {r : Relabel} {errors : Prop} {text text' : Value → Option String}
    (ht : CarriesText r errors text text') (host : Option Host) (depth : Nat) (n : Node)
    (f : FrameId) :
    Carries r errors (Value.relabel r) (evaluateBy text host depth n f)
      (evaluateBy text' host depth (n.relabel r) f) := by
  induction depth generalizing n f with
  | zero => exact .tooDeep
  | succ depth ih => exact evaluateWith_carries ht ih n f

/-- Where declared types stay, a tree with other spans ends as the tree itself does. -/
theorem evaluate_relabel {r : Relabel} (h : r.typed) (host : Option Host) (depth : Nat) (n : Node)
    (f : FrameId) (w : World) :
    (evaluate host depth (n.relabel r) f).run (w.relabel r) =
      ((((evaluate host depth n f).run w).1.map (·.relabel r)).mapError (·.relabel r),
        ((evaluate host depth n f).run w).2.relabel r) := by
  have texts : CarriesText r True Value.argument? Value.argument? :=
    { typed := fun _ => h
      carried := fun v s hs => by rw [Value.argument?_relabel h, hs]
      missing := fun _ v hv => by rw [Value.argument?_relabel h, hv] }
  have carried := evaluate_carries texts host depth n f w
  rw [evaluateBy_argument?] at carried
  rcases e : (evaluate host depth n f).run w with ⟨x | v, u⟩ <;> rw [e] at carried
  · exact carried (.inl trivial)
  · exact carried

end Eval

end Sigil
