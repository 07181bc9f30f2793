import Mathlib.Tactic.SplitIfs
import Sigil.Proofs.Evaluation.Rules
import Sigil.Proofs.Node.Returns

/-!
# What evaluation keeps

A property of worlds that the single changes of evaluation keep (`Kept`)
holds in every world that an evaluation passes through, and a node without a
`return` outside of its functions never ends with a `return`
(`evaluate_wp`). Both go by one induction on the depth, with a lemma for each
form of node that takes what is known of the nodes below it.
-/

namespace Sigil.Eval

/-- A property of worlds that every single change of evaluation keeps. A slot is written only with a
value that fits the type declared for it. -/
structure Kept (I : World → Prop) : Prop where
  push (w : World) (outer : FrameId) : I w → I { w with store := (w.store.push (some outer)).2 }
  define (w : World) (f : FrameId) (name : String) (slot : Slot) :
    I w → slot.value.fits slot.declared → I { w with store := w.store.define f name slot }
  assign (w : World) (f : FrameId) (name : String) (slot : Slot) (v : Value) :
    I w → w.store.slot? f name = some slot → v.fits slot.declared →
      I { w with store := w.store.assign f name v }
  call (w : World) (calls : List Call) (interrupt : Option Nat) :
    I w → I { w with calls, interrupt }
  closure (w : World) : I w → I { w with closures := w.closures + 1 }

/-- The ends other than a value that a node may have which has a `return` outside of its functions
only if `returns`. -/
def Exits (returns : Bool) (e : Exit) (_ : World) : Prop :=
  returns = false → ∀ v, e ≠ .returned v

theorem exits_error {returns : Bool} {e : RuntimeError} {w : World} :
    Exits returns (.error e) w := fun _ _ => nofun

section

variable {I : World → Prop} (hI : Kept I) {host : Option Host} {returns : Bool} {w : World}

/-! ## Operations -/

theorem fail_wp {α : Type} {fault : RuntimeFault} {span : Option Span} {Q : α → World → Prop}
    (hw : I w) : WP I (fail fault span : Eval α) w Q (Exits returns) :=
  WP.fail hw exits_error

theorem argumentText_wp {v : Value} (hw : I w) :
    WP I (argumentText v) w (fun _ _ => True) (Exits returns) := by
  unfold argumentText
  split
  · exact WP.pure hw trivial
  · exact fail_wp hw

theorem requireBool_wp {symbol : String} {v : Value} {span : Option Span} (hw : I w) :
    WP I (requireBool symbol v span) w (fun _ _ => True) (Exits returns) := by
  unfold requireBool
  split
  · exact WP.pure hw trivial
  · exact fail_wp hw

theorem operated_wp {α : Type} {r : Except OperatorFault α} {span : Option Span} (hw : I w) :
    WP I (operated r span) w (fun _ _ => True) (Exits returns) := by
  unfold operated
  split
  · exact WP.pure hw trivial
  · exact fail_wp hw

theorem reference_wp {name : String} {default : Option String} {span : Option Span} {f : FrameId}
    (hw : I w) :
    WP I (reference name default span f) w (fun _ _ => True) (Exits returns) := by
  refine WP.bind (WP.store hw ?_)
  split
  · exact WP.pure hw trivial
  · exact fail_wp hw
  · exact WP.pure hw trivial
  · exact WP.pure hw trivial

include hI in
theorem runCommand_wp {call : Call} {span : Option Span} (hw : I w) :
    WP I (runCommand host call span) w (fun _ _ => True) (Exits returns) := by
  unfold runCommand
  cases host with
  | none => exact fail_wp hw
  | some host =>
    refine WP.bind (WP.get hw ?_)
    have hc := hI.call w (w.calls ++ [call])
      (if (host.reply w.calls call).interrupts then some 0 else w.interrupt) hw
    refine WP.bind (WP.set hw hc ?_)
    split
    · exact fail_wp hc
    · split
      · exact fail_wp hc
      · split
        · exact fail_wp hc
        · exact WP.pure hc trivial

/-! ## Forms -/

variable {eval : Node → FrameId → Eval Value}
  (heval : ∀ (returns : Bool) n f w, (n.outerReturn → returns) → I w →
    WP I (eval n f) w (fun _ _ => True) (Exits returns))

include heval

theorem entries_wp {body : List Node} {f : FrameId} (h : Node.outerReturnAny body → returns)
    (hw : I w) : WP I (entries eval body f) w (fun _ _ => True) (Exits returns) :=
  WP.foldlM hw fun n hn _ v hv => heval returns n f v (fun e => h (Node.outerReturnAny_of_mem hn e)) hv

include hI in
theorem newEntries_wp {body : List Node} {f : FrameId} (h : Node.outerReturnAny body → returns)
    (hw : I w) :
    WP I (newFrame f >>= entries eval body) w (fun _ _ => True) (Exits returns) :=
  WP.bind (WP.newFrame hw (hI.push w f hw) (entries_wp heval h (hI.push w f hw)))

theorem arguments_wp {args : List Node} {f : FrameId} (h : Node.outerReturnAny args → returns)
    (hw : I w) : WP I (args.mapM (eval · f)) w (fun _ _ => True) (Exits returns) :=
  WP.mapM hw fun n hn v hv => heval returns n f v (fun e => h (Node.outerReturnAny_of_mem hn e)) hv

theorem argumentOf_wp {n : Node} {f : FrameId} (h : n.outerReturn → returns) (hw : I w) :
    WP I (eval n f >>= argumentText) w (fun _ _ => True) (Exits returns) :=
  WP.bind (WP.mono (heval returns n f w h hw) fun _ _ hv _ => argumentText_wp hv)

include hI in
/-- A call takes the value of every `return` in the body of its function. -/
theorem applyClosure_wp {c : Closure} {args : List Value} {span : Option Span} (hw : I w) :
    WP I (applyClosure eval c args span) w (fun _ _ => True) (Exits returns) := by
  unfold applyClosure
  split_ifs
  · exact WP.bind (fail_wp hw)
  -- the loop that checks the arguments passes only if all of them fit
  refine WP.bind (WP.mono (WP.forIn (J := fun a => a.2.fits a.1.declared) hw ?_)
    fun _ v hv hfits => ?_)
  · rintro ⟨⟨ps, name, declared⟩, v⟩ - u hu
    cases declared with
    | none => exact WP.pure hu ⟨rfl, rfl⟩
    | some t =>
      dsimp only
      split_ifs with hf
      · exact WP.bind (fail_wp hu)
      · exact WP.pure hu ⟨rfl, by simpa using hf⟩
  refine WP.bind (WP.newFrame hv (hI.push v c.scope hv) ?_)
  refine WP.bind (WP.mono (WP.forIn (J := fun _ => True) (hI.push v c.scope hv) ?_)
    fun _ v hv _ => ?_)
  · rintro ⟨p, a⟩ ha u hu
    have hd := hI.define u v.store.frames.size p.name ⟨a, p.declared⟩ hu (hfits _ ha)
    exact WP.bind (WP.modifyStore hu hd (WP.pure hd ⟨rfl, trivial⟩))
  refine WP.bind (WP.mono (WP.tryCatch (WP.exits
    (heval true (.block c.bodySpan c.body) _ v (fun _ => rfl) hv) fun e u hu _ => ?_))
    fun _ u hu _ => ?_)
  · cases e with
    | returned a => exact WP.pure hu trivial
    | error e => exact WP.throw hu exits_error
    | tooDeep => exact WP.throw hu fun _ => nofun
  · cases c.returns with
    | none => exact WP.pure hu trivial
    | some t =>
      dsimp only
      split_ifs
      · exact WP.pure hu trivial
      · exact fail_wp hu

include hI in
theorem apply_wp {callee : Value} {args : List Value} {span : Option Span} (hw : I w) :
    WP I (apply eval callee args span) w (fun _ _ => True) (Exits returns) := by
  unfold apply
  split
  · exact applyClosure_wp hI heval hw
  · exact fail_wp hw

include hI in
theorem command_wp {span : Option Span} {env : List EnvBinding} {name : String} {args : List Node}
    {f : FrameId} (henv : Node.outerReturnBindings env → returns)
    (hargs : Node.outerReturnAny args → returns) (hw : I w) :
    WP I (command host eval span env name args f) w (fun _ _ => True) (Exits returns) := by
  unfold command
  refine WP.bind (WP.store hw ?_)
  dsimp only
  generalize (if env.isEmpty then w.store.lookup? f name else none) = named
  split
  · exact WP.bind (WP.mono (arguments_wp heval hargs hw) fun _ _ hv _ => applyClosure_wp hI heval hv)
  · refine WP.bind (WP.mono (WP.foldlM hw fun b hb t v hv => ?_) fun t v hv _ => ?_)
    · refine WP.bind (WP.mono (heval returns b.value f v
        (fun e => henv (Node.outerReturnBindings_of_mem hb e)) hv) fun _ u hu _ => ?_)
      exact WP.bind (WP.mono (argumentText_wp hu) fun _ _ hu _ => WP.pure hu trivial)
    · refine WP.bind (WP.mono (WP.mapM hv fun n hn u hu => ?_) fun _ u hu _ => ?_)
      · exact argumentOf_wp heval (fun e => hargs (Node.outerReturnAny_of_mem hn e)) hu
      · exact runCommand_wp hI hu

theorem binary_wp {span : Option Span} {op : BinaryOperator} {left right : Node} {f : FrameId}
    (hl : left.outerReturn → returns) (hr : right.outerReturn → returns) (hw : I w) :
    WP I (binary eval span op left right f) w (fun _ _ => True) (Exits returns) := by
  have logical : WP I (do
      let b ← requireBool op.symbol (← eval left f) left.span
      if b = decide (op = .or) then return (Value.bool b)
      else return (Value.bool (← requireBool op.symbol (← eval right f) right.span))) w
      (fun _ _ => True) (Exits returns) := by
    refine WP.bind (WP.mono (heval returns left f w hl hw) fun _ v hv _ => ?_)
    refine WP.bind (WP.mono (requireBool_wp hv) fun b v hv _ => ?_)
    split_ifs
    · exact WP.pure hv trivial
    · refine WP.bind (WP.mono (heval returns right f v hr hv) fun _ v hv _ => ?_)
      exact WP.bind (WP.mono (requireBool_wp hv) fun _ _ hv _ => WP.pure hv trivial)
  have operands {k : Value → Value → Eval Value}
      (hk : ∀ a b v, I v → WP I (k a b) v (fun _ _ => True) (Exits returns)) :
      WP I (do let a ← eval left f; let b ← eval right f; k a b) w (fun _ _ => True)
        (Exits returns) :=
    WP.bind (WP.mono (heval returns left f w hl hw) fun a v hv _ =>
      WP.bind (WP.mono (heval returns right f v hr hv) fun b u hu _ => hk a b u hu))
  have compared (span : Option Span) (a b : Value) (v : World) (hv : I v) :
      WP I (do return Value.bool (← operated (a.compare op b) span)) v (fun _ _ => True)
        (Exits returns) :=
    WP.bind (WP.mono (operated_wp hv) fun _ _ hu _ => WP.pure hu trivial)
  unfold binary
  split
  iterate 2 exact logical
  iterate 6 exact operands (compared span)
  exact operands fun _ _ _ hv => operated_wp hv

theorem unary_wp {span : Option Span} {op : UnaryOperator} {operand : Node} {f : FrameId}
    (h : operand.outerReturn → returns) (hw : I w) :
    WP I (unary eval span op operand f) w (fun _ _ => True) (Exits returns) := by
  refine WP.bind (WP.mono (heval returns operand f w h hw) fun _ v hv _ => ?_)
  split
  · exact WP.bind (WP.mono (requireBool_wp hv) fun _ _ hu _ => WP.pure hu trivial)
  · exact WP.pure hv trivial
  · exact fail_wp hv

theorem conditional_wp {span : Option Span} {condition thenBranch : Node}
    {elseBranch : Option Node} {f : FrameId}
    (h : (Node.conditional span condition thenBranch elseBranch).outerReturn → returns)
    (hw : I w) :
    WP I (evaluateWith host eval (.conditional span condition thenBranch elseBranch) f) w
      (fun _ _ => True) (Exits returns) := by
  have hc : condition.outerReturn → returns := fun e => h (by
    cases elseBranch <;> simp [Node.outerReturn, e])
  have ht : thenBranch.outerReturn → returns := fun e => h (by
    cases elseBranch <;> simp [Node.outerReturn, e])
  refine WP.bind (WP.mono (heval returns condition f w hc hw) fun v u hu _ => ?_)
  split
  · exact heval returns thenBranch f u ht hu
  · cases elseBranch with
    | none => exact WP.pure hu trivial
    | some n => exact heval returns n f u (fun e => h (by simp [Node.outerReturn, e])) hu
  · exact fail_wp hu

omit heval in
include hI in
theorem function_wp {span : Option Span} {name : Option String} {params : List Param}
    {returnType : Option Ty} {bodySpan : Option Span} {body : List Node} {f : FrameId}
    (hw : I w) :
    WP I (evaluateWith host eval (.function span name params returnType bodySpan body) f) w
      (fun _ _ => True) (Exits returns) := by
  have hc := hI.closure w hw
  refine WP.bind (WP.get hw (WP.bind (WP.modify hw hc ?_)))
  cases name with
  | none => exact WP.pure hc trivial
  | some name =>
    have hd := hI.define _ f name ⟨.closure ⟨w.closures, some name, params, returnType, bodySpan,
      body, f⟩, none⟩ hc rfl
    exact WP.bind (WP.modifyStore hc hd (WP.pure hd trivial))

include hI in
theorem define_wp {span : Option Span} {name : String} {declared : Option Ty} {value : Node}
    {f : FrameId} (h : value.outerReturn → returns) (hw : I w) :
    WP I (evaluateWith host eval (.define span name declared value) f) w (fun _ _ => True)
      (Exits returns) := by
  refine WP.bind (WP.mono (heval returns value f w h hw) fun v u hu _ => ?_)
  have defined (hfits : v.fits declared) :
      WP I (do modifyStore (·.define f name ⟨v, declared⟩); return v) u (fun _ _ => True)
        (Exits returns) :=
    have hd := hI.define u f name ⟨v, declared⟩ hu hfits
    WP.bind (WP.modifyStore hu hd (WP.pure hd trivial))
  cases declared with
  | none => exact defined rfl
  | some t =>
    dsimp only
    split_ifs with hf
    · exact WP.bind (fail_wp hu)
    · exact defined (by simpa using hf)

include hI in
theorem assign_wp {span : Option Span} {name : String} {value : Node} {f : FrameId}
    (h : value.outerReturn → returns) (hw : I w) :
    WP I (evaluateWith host eval (.assign span name value) f) w (fun _ _ => True)
      (Exits returns) := by
  refine WP.bind (WP.mono (heval returns value f w h hw) fun v u hu _ => ?_)
  refine WP.bind (WP.store hu ?_)
  cases hs : u.store.slot? f name with
  | none => exact fail_wp hu
  | some slot =>
    have assigned (hfits : v.fits slot.declared) :
        WP I (do modifyStore (·.assign f name v); return v) u (fun _ _ => True)
          (Exits returns) :=
      have ha := hI.assign u f name slot v hu hs hfits
      WP.bind (WP.modifyStore hu ha (WP.pure ha trivial))
    obtain ⟨value, declared⟩ := slot
    cases declared with
    | none => exact assigned rfl
    | some t =>
      dsimp only
      split_ifs with hf
      · exact WP.bind (fail_wp hu)
      · exact assigned (by simpa using hf)

include hI in
/-- One step of evaluation, by what is known of the evaluations below. -/
theorem evaluateWith_wp {n : Node} {f : FrameId} (h : n.outerReturn → returns) (hw : I w) :
    WP I (evaluateWith host eval n f) w (fun _ _ => True) (Exits returns) := by
  cases n with
  | literal => exact WP.pure hw trivial
  | reference => exact reference_wp hw
  | interpolation span parts =>
    refine WP.bind (WP.mono (WP.mapM hw fun p hp v hv => ?_) fun _ _ hu _ => WP.pure hu trivial)
    cases p with
    | text s => exact WP.pure hv trivial
    | node n => exact argumentOf_wp heval (fun e => h (Node.outerReturnParts_of_mem hp e)) hv
  | substitution span body =>
    refine WP.bind (WP.newFrame hw (hI.push w f hw) ?_)
    refine WP.bind (WP.mono (entries_wp heval h (hI.push w f hw)) fun a v hv _ => ?_)
    split
    · exact WP.pure hv trivial
    · exact WP.bind (WP.mono (argumentText_wp hv) fun _ _ hu _ => WP.pure hu trivial)
  | binding | parameter | blank => exact fail_wp hw
  | command =>
    rw [Node.outerReturn, Bool.or_eq_true, or_imp] at h
    exact command_wp hI heval h.1 h.2 hw
  | call =>
    rw [Node.outerReturn, Bool.or_eq_true, or_imp] at h
    refine WP.bind (WP.mono (heval returns _ f w h.1 hw) fun a v hv _ => ?_)
    exact WP.bind (WP.mono (arguments_wp heval h.2 hv) fun _ _ hu _ => apply_wp hI heval hu)
  | conditional => exact conditional_wp heval h hw
  | block => exact newEntries_wp hI heval h hw
  | program => exact entries_wp heval h hw
  | function => exact function_wp hI hw
  | binary =>
    rw [Node.outerReturn, Bool.or_eq_true, or_imp] at h
    exact binary_wp heval h.1 h.2 hw
  | unary => exact unary_wp heval h hw
  | ret span value =>
    -- only such a node ends with a `return`, and only if it may
    cases value with
    | none => exact WP.bind (WP.pure hw (WP.throw hw fun e => absurd (h rfl) (by simp [e])))
    | some n =>
      refine WP.bind (WP.mono (heval returns n f w (fun _ => h rfl) hw) fun v u hu _ => ?_)
      exact WP.throw hu fun e => absurd (h rfl) (by simp [e])
  | define => exact define_wp hI heval h hw
  | assign => exact assign_wp hI heval h hw

end

/-- Evaluation passes only through worlds where a property that its changes keep holds, and ends
with a `return` only where the node has one outside of its functions. -/
theorem evaluate_wp {I : World → Prop} (hI : Kept I) (host : Option Host) (depth : Nat) :
    ∀ (returns : Bool) (n : Node) (f : FrameId) (w : World), (n.outerReturn → returns) → I w →
      WP I (evaluate host depth n f) w (fun _ _ => True) (Exits returns) := by
  induction depth with
  | zero => exact fun _ _ _ _ _ hw => WP.throw hw fun _ => nofun
  | succ depth ih => exact fun _ _ _ _ h hw => evaluateWith_wp hI ih h hw

end Sigil.Eval
