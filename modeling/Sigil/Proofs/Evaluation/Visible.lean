import Mathlib.Tactic.SplitIfs
import Sigil.Proofs.Evaluation.Rules
import Sigil.Proofs.Store.Frames
import Sigil.Proofs.Typing.Visible

/-!
# Visible names in evaluation

A tree that refers to visible names alone never ends with the error of a name
that is not bound (`evaluate_goes`), if no definition in it is ever skipped.
The frames around a place have all names that are visible there
(`Store.Binds`); a closure sees, from the frame that it was made in, all that
its body refers to (`Closure.Resolves`), and so do all closures in the store
(`Store.Resolved`). Frames keep their names, so this holds ever after.

`evaluate_bound` puts it together with what the checker finds out.
-/

namespace Sigil

namespace Store

variable {s t : Store} {f g : FrameId} {name : String}

/-- A frame was made, and given names are found from it. -/
structure Binds (s : Store) (f : FrameId) (visible : List String) : Prop where
  made : f < s.frames.size
  found : ∀ name ∈ visible, (s.find? f name).isSome

theorem Binds.extends {visible : List String} (h : s.Binds f visible) (he : s.Extends t) :
    t.Binds f visible :=
  ⟨Nat.lt_of_lt_of_le h.made he.size, fun name hn => he.found f name (h.found name hn)⟩

theorem Binds.push {visible : List String} (h : s.Binds f visible) :
    (s.push (some f)).2.Binds s.frames.size visible :=
  ⟨by rw [size_push]; exact Nat.lt_succ_self _, fun name hn => find?_push_self (h.found name hn)⟩

theorem Binds.define {visible : List String} (h : s.Binds f visible) (name : String)
    (slot : Slot) : (s.define f name slot).Binds f (name :: visible) := by
  refine ⟨by rw [size_define]; exact h.made, fun other ho => ?_⟩
  rcases List.mem_cons.mp ho with rfl | ho
  · exact find?_define h.made
  · exact (extends_define s f name slot).found f other (h.found other ho)

end Store

/-- All that the body of a closure refers to is visible from the frame that it was made in, and no
definition in it is ever skipped. -/
def Closure.Resolves (s : Store) (c : Closure) : Prop :=
  ∃ visible, s.Binds c.scope visible ∧ (∀ n ∈ c.body, n.definesPlainly) ∧
    ∃ after, Node.resolveAll? ((c.params.map (·.name)).reverse ++ visible) c.body = some after

/-- A value that is a closure, if it is one, resolves. -/
def Value.Resolves (s : Store) : Value → Prop
  | datum _ => True
  | closure c => c.Resolves s

theorem Value.Resolves.extends {s t : Store} {v : Value} (h : v.Resolves s) (he : s.Extends t) :
    v.Resolves t := by
  cases v with
  | datum => trivial
  | closure c =>
    obtain ⟨visible, hb, rest⟩ := h
    exact ⟨visible, hb.extends he, rest⟩

namespace Store

variable {s : Store}

/-- All closures in the store resolve. -/
def Resolved (s : Store) : Prop :=
  ∀ f name slot, s.slotIn? f name = some slot → slot.value.Resolves s

theorem Resolved.push (h : s.Resolved) (outer : Option FrameId) : (s.push outer).2.Resolved := by
  intro f name slot hs
  rw [slotIn?_push] at hs
  exact (h f name slot hs).extends (extends_push s outer)

/-- What a slot is given may refer to the name of the slot. -/
theorem Resolved.define (h : s.Resolved) {f : FrameId} {name : String} {slot : Slot}
    (hv : slot.value.Resolves (s.define f name slot)) : (s.define f name slot).Resolved := by
  intro g other found hs
  rw [slotIn?_define] at hs
  split_ifs at hs
  · cases hs
    exact hv
  · exact (h g other found hs).extends (extends_define s f name slot)

theorem Resolved.assign (h : s.Resolved) {f : FrameId} {name : String} {v : Value}
    (hv : v.Resolves s) : (s.assign f name v).Resolved := by
  rcases assign_cases s f name v with ⟨-, e⟩ | ⟨g, slot, -, -, e⟩
  · rw [e]
    exact h
  · rw [e]
    exact h.define (hv.extends (extends_define s g name _))

theorem Resolved.lookup? (h : s.Resolved) {f : FrameId} {name : String} {v : Value}
    (hv : s.lookup? f name = some v) : v.Resolves s := by
  obtain ⟨g, slot, hs, rfl⟩ := slotIn?_of_lookup? hv
  exact h g name slot hs

end Store

namespace Eval

/-- Names are still found from the frames where they were found at first, and all closures
resolve. -/
def After (s : Store) (w : World) : Prop :=
  s.Extends w.store ∧ w.store.Resolved

/-- No end is the error of a name that is not bound; what is returned resolves. -/
def Bound (e : Exit) (w : World) : Prop :=
  match e with
  | .error e => e.fault.kind ≠ .unboundName
  | .returned v => v.Resolves w.store
  | .tooDeep => True

/-- Evaluation goes on from `w` without losing names or meeting one that is not bound. -/
def Goes {α : Type} (m : Eval α) (w : World) (Q : α → World → Prop) : Prop :=
  WP (After w.store) m w Q Bound

section

variable {α β : Type} {w : World}

theorem after_self (hw : w.store.Resolved) : After w.store w :=
  ⟨.refl _, hw⟩

theorem Goes.mono {m : Eval α} {Q R : α → World → Prop} (h : Goes m w R)
    (hQ : ∀ a v, After w.store v → R a v → Q a v) : Goes m w Q :=
  WP.mono h hQ

theorem Goes.pure {a : α} {Q : α → World → Prop} (hw : w.store.Resolved) (h : Q a w) :
    Goes (Pure.pure a) w Q :=
  WP.pure (after_self hw) h

theorem Goes.fail {fault : RuntimeFault} {span : Option Span} {Q : α → World → Prop}
    (hw : w.store.Resolved) (h : fault.kind ≠ .unboundName) : Goes (fail fault span) w Q :=
  WP.fail (after_self hw) h

/-- What comes second is known from where the first left off. -/
theorem Goes.bind {m : Eval α} {f : α → Eval β} {R : α → World → Prop} {Q : β → World → Prop}
    (h : Goes m w R) (hf : ∀ a v, After w.store v → R a v → Goes (f a) v Q) :
    Goes (m >>= f) w Q :=
  WP.bind (WP.mono h fun a v hv ha =>
    WP.weaken (fun _ hu => ⟨hv.1.trans hu.1, hu.2⟩) (hf a v hv ha))

theorem Goes.newFrame {outer : FrameId} {Q : FrameId → World → Prop} (hw : w.store.Resolved)
    (h : Q w.store.frames.size { w with store := (w.store.push (some outer)).2 }) :
    Goes (Eval.newFrame outer) w Q :=
  WP.newFrame (after_self hw) ⟨Store.extends_push _ _, hw.push _⟩ h

theorem Goes.modifyStore {g : Store → Store} {Q : Unit → World → Prop} (hw : w.store.Resolved)
    (he : w.store.Extends (g w.store)) (hr : (g w.store).Resolved)
    (h : Q () { w with store := g w.store }) : Goes (Eval.modifyStore g) w Q :=
  WP.modifyStore (after_self hw) ⟨he, hr⟩ h

/-! ## Operations -/

theorem argumentText_goes {v : Value} (hw : w.store.Resolved) :
    Goes (argumentText v) w fun _ _ => True := by
  unfold argumentText
  split
  · exact .pure hw trivial
  · exact .fail hw (by rintro ⟨⟩)

theorem requireBool_goes {symbol : String} {v : Value} {span : Option Span}
    (hw : w.store.Resolved) : Goes (requireBool symbol v span) w fun _ _ => True := by
  unfold requireBool
  split
  · exact .pure hw trivial
  · exact .fail hw nofun

theorem operated_goes {r : Except OperatorFault α} {span : Option Span} {Q : α → Prop}
    (hw : w.store.Resolved) (h : ∀ a, r = .ok a → Q a) :
    Goes (operated r span) w fun a _ => Q a := by
  unfold operated
  split
  · exact .pure hw (h _ rfl)
  · next fault => exact .fail hw (by cases fault <;> nofun)

theorem runCommand_goes {host : Option Host} {call : Call} {span : Option Span}
    (hw : w.store.Resolved) :
    Goes (runCommand host call span) w fun v u => v.Resolves u.store := by
  have same := after_self hw
  unfold runCommand
  cases host with
  | none => exact .fail hw nofun
  | some host =>
    refine WP.bind (WP.get same ?_)
    refine WP.bind (WP.set same same ?_)
    split
    · exact WP.fail same nofun
    · split
      · exact WP.fail same nofun
      · split
        · exact WP.fail same nofun
        · exact WP.pure same trivial

/-- A name that is visible means a value. -/
theorem reference_goes {name : String} {default : Option String} {span place : Option Span}
    {f : FrameId} {visible after : List String}
    (h : (Node.reference place name default).resolve? visible = some after)
    (hb : w.store.Binds f visible) (hw : w.store.Resolved) :
    Goes (reference name default span f) w
      fun v u => v.Resolves u.store ∧ u.store.Binds f after := by
  refine WP.bind (WP.store (after_self hw) ?_)
  cases default with
  | none =>
    simp only [Node.resolve?] at h
    split_ifs at h with hn
    cases h
    cases hv : w.store.lookup? f name with
    | none =>
      have found := Store.lookup?_isSome (hb.found name hn)
      rw [hv] at found
      cases found
    | some v => exact Goes.pure hw ⟨hw.lookup? hv, hb⟩
  | some d =>
    cases h
    cases hv : w.store.lookup? f name with
    | none => exact Goes.pure hw ⟨trivial, hb⟩
    | some v =>
      refine Goes.pure hw ⟨?_, hb⟩
      split_ifs
      · trivial
      · exact hw.lookup? hv

end

/-! ## Forms -/

section

variable {host : Option Host} {eval : Node → FrameId → Eval Value} {w : World}
  (heval : ∀ n f w visible after, n.resolve? visible = some after → n.definesPlainly →
    w.store.Binds f visible → w.store.Resolved →
    Goes (eval n f) w fun v u => v.Resolves u.store ∧ u.store.Binds f after)
include heval

theorem entries_goes {body : List Node} {f : FrameId} {visible after : List String}
    (h : Node.resolveAll? visible body = some after) (hp : ∀ n ∈ body, n.definesPlainly)
    (hb : w.store.Binds f visible) (hw : w.store.Resolved) :
    Goes (entries eval body f) w fun v u => v.Resolves u.store ∧ u.store.Binds f after := by
  have from_ (v : Value) (hv : v.Resolves w.store) :
      Goes (body.foldlM (fun _ n => eval n f) v) w
        fun v u => v.Resolves u.store ∧ u.store.Binds f after := by
    induction body generalizing w visible v with
    | nil =>
      cases h
      exact .pure hw ⟨hv, hb⟩
    | cons n body ih =>
      obtain ⟨between, hn, h⟩ := Option.bind_eq_some_iff.mp h
      rw [List.foldlM_cons]
      refine (heval n f w visible between hn (hp n List.mem_cons_self) hb hw).bind
        fun a u hu ⟨ha, hbu⟩ => ?_
      exact ih h (fun m hm => hp m (List.mem_cons_of_mem _ hm)) hbu hu.2 a ha
  exact from_ .unit trivial

theorem arguments_goes {args : List Node} {f : FrameId} {visible after : List String}
    (h : Node.resolveAll? visible args = some after) (hp : ∀ n ∈ args, n.definesPlainly)
    (hb : w.store.Binds f visible) (hw : w.store.Resolved) :
    Goes (args.mapM (eval · f)) w
      fun vs u => (∀ v ∈ vs, v.Resolves u.store) ∧ u.store.Binds f after := by
  induction args generalizing w visible with
  | nil =>
    cases h
    exact .pure hw ⟨nofun, hb⟩
  | cons n args ih =>
    obtain ⟨between, hn, h⟩ := Option.bind_eq_some_iff.mp h
    rw [List.mapM_cons]
    refine (heval n f w visible between hn (hp n List.mem_cons_self) hb hw).bind
      fun a u hu ⟨ha, hbu⟩ => ?_
    refine (ih h (fun m hm => hp m (List.mem_cons_of_mem _ hm)) hbu hu.2).bind
      fun as x hx ⟨has, hbx⟩ => .pure hx.2 ⟨?_, hbx⟩
    exact List.forall_mem_cons.mpr ⟨ha.extends hx.1, has⟩

theorem argumentOf_goes {n : Node} {f : FrameId} {visible after : List String}
    (h : n.resolve? visible = some after) (hp : n.definesPlainly) (hb : w.store.Binds f visible)
    (hw : w.store.Resolved) :
    Goes (eval n f >>= argumentText) w fun _ u => u.store.Binds f after := by
  refine (heval n f w visible after h hp hb hw).bind fun a u hu ⟨_, hbu⟩ => ?_
  exact (argumentText_goes hu.2).mono fun _ _ hx _ => hbu.extends hx.1

omit heval in
/-- Items that are turned into texts one after the other. -/
theorem texts_goes {γ : Type} {step : γ → Eval String} {f : FrameId}
    {next : List String → γ → Option (List String)} {items : List γ}
    (hstep : ∀ a ∈ items, ∀ w visible after, next visible a = some after →
      w.store.Binds f visible → w.store.Resolved →
      Goes (step a) w fun _ u => u.store.Binds f after) :
    ∀ {w : World} {visible after : List String}, items.foldlM next visible = some after →
      w.store.Binds f visible → w.store.Resolved →
      Goes (items.mapM step) w fun _ u => u.store.Binds f after := by
  induction items with
  | nil =>
    intro w visible after h hb hw
    cases h
    exact .pure hw hb
  | cons a items ih =>
    intro w visible after h hb hw
    rw [List.foldlM_cons] at h
    obtain ⟨between, hn, h⟩ := Option.bind_eq_some_iff.mp h
    rw [List.mapM_cons]
    refine (hstep a List.mem_cons_self w visible between hn hb hw).bind fun s u hu hbu => ?_
    refine (ih (fun b hm => hstep b (List.mem_cons_of_mem _ hm)) h hbu hu.2).bind
      fun ss x hx hbx => .pure hx.2 hbx

theorem overrides_goes {env : List EnvBinding} {f : FrameId} {visible after : List String}
    (h : Node.resolveBindings? visible env = some after)
    (hp : ∀ b ∈ env, b.value.definesPlainly) (hb : w.store.Binds f visible)
    (hw : w.store.Resolved) (t : Names String) :
    Goes (env.foldlM (fun (t : Names String) b => do
      return t.insert b.name (← argumentText (← eval b.value f))) t) w
      fun _ u => u.store.Binds f after := by
  induction env generalizing w visible t with
  | nil =>
    cases h
    exact .pure hw hb
  | cons b env ih =>
    obtain ⟨span, name, value⟩ := b
    obtain ⟨between, hn, h⟩ := Option.bind_eq_some_iff.mp h
    rw [List.foldlM_cons]
    have first := argumentOf_goes heval hn (hp _ List.mem_cons_self) hb hw
    refine Goes.bind (R := fun _ u => u.store.Binds f between) ?_ fun t u hu hbu =>
      ih h (fun c hc => hp c (List.mem_cons_of_mem _ hc)) hbu hu.2 t
    rw [← bind_assoc]
    exact first.bind fun s u hu hbu => .pure hu.2 hbu

/-! ## Calls -/

omit heval in
/-- The parameters of a function are visible in its frame. -/
theorem bindParams_goes {f : FrameId} {ps : List (Param × Value)} :
    ∀ {w : World} {visible : List String}, w.store.Binds f visible →
      (∀ p ∈ ps, p.2.Resolves w.store) → w.store.Resolved →
      Goes (ForIn.forIn ps PUnit.unit fun p _ => do
        modifyStore (·.define f p.1.name ⟨p.2, p.1.declared⟩)
        return ForInStep.yield PUnit.unit) w
        fun _ u => u.store.Binds f ((ps.map (·.1.name)).reverse ++ visible) := by
  induction ps with
  | nil => exact fun hb _ hw => Goes.pure hw hb
  | cons p ps ih =>
    intro w visible hb hv hw
    let slot : Slot := ⟨p.2, p.1.declared⟩
    let defined : World := { w with store := w.store.define f p.1.name slot }
    have extends_ : w.store.Extends defined.store := Store.extends_define w.store f p.1.name slot
    have resolved : defined.store.Resolved := hw.define ((hv p List.mem_cons_self).extends extends_)
    rw [List.forIn_cons, bind_assoc]
    refine Goes.bind (R := fun _ u => u = defined) (.modifyStore hw extends_ resolved rfl)
      fun _ u _ e => ?_
    subst e
    have rest := ih (w := defined) (hb.define p.1.name slot)
      (fun q hq => (hv q (List.mem_cons_of_mem _ hq)).extends extends_) resolved
    have names : (ps.map (·.1.name)).reverse ++ p.1.name :: visible =
        ((p :: ps).map (·.1.name)).reverse ++ visible := by
      rw [List.map_cons, List.reverse_cons, List.append_assoc, List.singleton_append]
    rw [names] at rest
    exact rest

omit heval in
theorem names_zip {params : List Param} {args : List Value} (h : args.length = params.length) :
    (params.zip args).map (·.1.name) = params.map (·.name) := by
  have all : (params.zip args).map Prod.fst = params := List.map_fst_zip (Nat.le_of_eq h.symm)
  calc (params.zip args).map (·.1.name)
    _ = ((params.zip args).map Prod.fst).map (·.name) := (List.map_map ..).symm
    _ = params.map (·.name) := by rw [all]

theorem applyClosure_goes {c : Closure} {args : List Value} {span : Option Span}
    (hc : c.Resolves w.store) (hargs : ∀ v ∈ args, v.Resolves w.store) (hw : w.store.Resolved) :
    Goes (applyClosure eval c args span) w fun v u => v.Resolves u.store := by
  unfold applyClosure
  split_ifs with hn
  · exact WP.bind (Goes.fail hw (by rintro ⟨⟩))
  rw [ne_eq, Decidable.not_not] at hn
  refine Goes.bind (R := fun _ _ => True) ?_ fun _ v hv _ => ?_
  · -- the loop that checks the arguments changes nothing
    refine WP.mono (WP.forIn (J := fun _ => True) (after_self hw) ?_) fun _ _ _ _ => trivial
    rintro ⟨⟨place, name, declared⟩, v⟩ - u hu
    cases declared with
    | none => exact WP.pure hu ⟨rfl, trivial⟩
    | some t =>
      dsimp only
      split_ifs
      · exact WP.bind (WP.fail hu (by rintro ⟨⟩))
      · exact WP.pure hu ⟨rfl, trivial⟩
  obtain ⟨visible, hb, hp, after, ha⟩ := Value.Resolves.extends (v := .closure c) hc hv.1
  let pushed : World := { v with store := (v.store.push (some c.scope)).2 }
  have resolved : pushed.store.Resolved := hv.2.push _
  refine Goes.bind (R := fun f u => f = v.store.frames.size ∧ u = pushed)
    (.newFrame hv.2 ⟨rfl, rfl⟩) fun f u _ e => ?_
  obtain ⟨rfl, rfl⟩ := e
  refine (bindParams_goes hb.push (fun q hq => ?_) resolved).bind fun _ u hu hbu => ?_
  · exact ((hargs q.2 (List.of_mem_zip hq).2).extends hv.1).extends (Store.extends_push _ _)
  rw [names_zip hn] at hbu
  have block : (Node.block c.bodySpan c.body).resolve?
      ((c.params.map (·.name)).reverse ++ visible) =
      some ((c.params.map (·.name)).reverse ++ visible) := by
    rw [Node.resolve?, ha, Option.map_some]
  have body := heval _ _ u _ _ block (Node.definesPlainly_block hp) hbu hu.2
  refine Goes.bind (R := fun v x => v.Resolves x.store)
    (WP.tryCatch (WP.exits (body.mono fun _ _ _ ha => ha.1) fun e x hx he => ?_))
    fun a x hx ha => ?_
  · cases e with
    | returned a => exact WP.pure hx he
    | error e => exact WP.throw hx he
    | tooDeep => exact WP.throw hx trivial
  · cases c.returns with
    | none => exact .pure hx.2 ha
    | some t =>
      dsimp only
      split_ifs
      · exact .pure hx.2 ha
      · exact .fail hx.2 (by rintro ⟨⟩)

theorem apply_goes {callee : Value} {args : List Value} {span : Option Span}
    (hc : callee.Resolves w.store) (hargs : ∀ v ∈ args, v.Resolves w.store)
    (hw : w.store.Resolved) :
    Goes (apply eval callee args span) w fun v u => v.Resolves u.store := by
  unfold apply
  split
  · exact applyClosure_goes heval hc hargs hw
  · exact .fail hw nofun

theorem command_goes {span place : Option Span} {env : List EnvBinding} {name : String}
    {args : List Node} {f : FrameId} {visible after : List String}
    (h : (Node.command place env name args).resolve? visible = some after)
    (hp : (Node.command place env name args).definesPlainly)
    (hb : w.store.Binds f visible) (hw : w.store.Resolved) :
    Goes (command host eval span env name args f) w
      fun v u => v.Resolves u.store ∧ u.store.Binds f after := by
  obtain ⟨between, henv, hargs⟩ := Option.bind_eq_some_iff.mp h
  have plainArg : ∀ n ∈ args, n.definesPlainly := fun n hn =>
    Node.definesPlainly_child hp (List.mem_append_right _ hn)
  have plainEnv : ∀ b ∈ env, b.value.definesPlainly := fun b hm =>
    Node.definesPlainly_child (Node.definesPlainly_child hp
      (List.mem_append_left _ (List.mem_map_of_mem hm))) (List.mem_singleton_self _)
  refine WP.bind (WP.store (after_self hw) ?_)
  dsimp only
  split
  · next c hc =>
    -- a command that calls a closure has nothing in front of it
    split_ifs at hc with he
    have none : env = [] := List.isEmpty_iff.mp he
    subst none
    cases henv
    refine (arguments_goes heval hargs plainArg hb hw).bind fun vs u hu ⟨hvs, hbu⟩ => ?_
    refine (applyClosure_goes heval ?_ hvs hu.2).mono fun v x hx hv => ⟨hv, hbu.extends hx.1⟩
    exact Value.Resolves.extends (v := .closure c) (hw.lookup? hc) hu.1
  · refine (overrides_goes heval henv plainEnv hb hw []).bind fun t u hu hbu => ?_
    rw [Node.resolveAll?_eq_foldlM] at hargs
    refine (texts_goes (fun n hn u visible after ha hb hu =>
      argumentOf_goes heval ha (plainArg n hn) hb hu) hargs hbu hu.2).bind fun ss x hx hbx => ?_
    exact (runCommand_goes hx.2).mono fun v y hy hv => ⟨hv, hbx.extends hy.1⟩

/-! ## Operations and branches -/

theorem binary_goes {span place : Option Span} {op : BinaryOperator} {left right : Node}
    {f : FrameId} {visible after : List String}
    (h : (Node.binary place op left right).resolve? visible = some after)
    (hp : (Node.binary place op left right).definesPlainly)
    (hb : w.store.Binds f visible) (hw : w.store.Resolved) :
    Goes (binary eval span op left right f) w
      fun v u => v.Resolves u.store ∧ u.store.Binds f after := by
  obtain ⟨between, hl, hr⟩ := Option.bind_eq_some_iff.mp h
  have plainLeft := Node.definesPlainly_child hp List.mem_cons_self
  have plainRight := Node.definesPlainly_child hp (List.mem_cons_of_mem _ List.mem_cons_self)
  have first := heval left f w visible between hl plainLeft hb hw
  have logical (skips : op = .and ∨ op = .or) : Goes (do
      let b ← requireBool op.symbol (← eval left f) left.span
      if b = decide (op = .or) then return (Value.bool b)
      else return (Value.bool (← requireBool op.symbol (← eval right f) right.span))) w
      fun v u => v.Resolves u.store ∧ u.store.Binds f after := by
    have skipped : right.defines = false := by
      have plain := Node.definesPlainly_iff.mp hp _ (Node.mem_walk_self _)
      rcases skips with rfl | rfl <;> simpa [Node.skipsNoDefinition] using plain
    have same : after = between := Node.resolve?_eq right skipped hr
    refine first.bind fun a u hu ⟨_, hbu⟩ => ?_
    refine (requireBool_goes hu.2).bind fun b x hx _ => ?_
    split_ifs
    · exact .pure hx.2 ⟨trivial, same ▸ hbu.extends hx.1⟩
    · refine (heval right f x between after hr plainRight (hbu.extends hx.1) hx.2).bind
        fun c y hy ⟨_, hby⟩ => ?_
      refine (requireBool_goes hy.2).bind fun d z hz _ => ?_
      exact .pure hz.2 ⟨trivial, hby.extends hz.1⟩
  have operands {k : Value → Value → Eval Value}
      (hk : ∀ a b v, v.store.Resolved → Goes (k a b) v fun c u => c.Resolves u.store) :
      Goes (do let a ← eval left f; let b ← eval right f; k a b) w
        fun v u => v.Resolves u.store ∧ u.store.Binds f after := by
    refine first.bind fun a u hu ⟨_, hbu⟩ => ?_
    refine (heval right f u between after hr plainRight hbu hu.2).bind fun b x hx ⟨_, hbx⟩ => ?_
    exact (hk a b x hx.2).mono fun c y hy hc => ⟨hc, hbx.extends hy.1⟩
  have compared (a b : Value) (v : World) (hv : v.store.Resolved) :
      Goes (do return Value.bool (← operated (a.compare op b) span)) v
        fun c u => c.Resolves u.store :=
    (operated_goes (Q := fun _ => True) hv fun _ _ => trivial).bind fun _ _ hu _ =>
      .pure hu.2 trivial
  unfold binary
  split
  · exact logical (.inl rfl)
  · exact logical (.inr rfl)
  iterate 6 exact operands compared
  refine operands fun a b v hv => ?_
  refine WP.mono (operated_goes (Q := fun c => ∃ d, c = .datum d) hv fun _ =>
    Value.arithmetic_datum) ?_
  rintro _ u hu ⟨d, rfl⟩
  trivial

theorem unary_goes {span : Option Span} {op : UnaryOperator} {operand : Node} {f : FrameId}
    {visible after : List String} (h : operand.resolve? visible = some after)
    (hp : operand.definesPlainly) (hb : w.store.Binds f visible) (hw : w.store.Resolved) :
    Goes (unary eval span op operand f) w
      fun v u => v.Resolves u.store ∧ u.store.Binds f after := by
  refine (heval operand f w visible after h hp hb hw).bind fun v u hu ⟨_, hbu⟩ => ?_
  split
  · exact (requireBool_goes hu.2).bind fun _ x hx _ => .pure hx.2 ⟨trivial, hbu.extends hx.1⟩
  · exact .pure hu.2 ⟨trivial, hbu⟩
  · exact .fail hu.2 nofun

/-- What a branch defines would be missing if it is not taken; so branches define nothing. -/
theorem conditional_goes {span : Option Span} {condition thenBranch : Node}
    {elseBranch : Option Node} {f : FrameId} {visible after : List String}
    (h : (Node.conditional span condition thenBranch elseBranch).resolve? visible = some after)
    (hp : (Node.conditional span condition thenBranch elseBranch).definesPlainly)
    (hb : w.store.Binds f visible) (hw : w.store.Resolved) :
    Goes (evaluateWith host eval (.conditional span condition thenBranch elseBranch) f) w
      fun v u => v.Resolves u.store ∧ u.store.Binds f after := by
  have skips := Node.definesPlainly_iff.mp hp _ (Node.mem_walk_self _)
  simp only [Node.skipsNoDefinition, Bool.and_eq_true, Bool.not_eq_true'] at skips
  have plainCondition := Node.definesPlainly_child hp List.mem_cons_self
  have plainThen := Node.definesPlainly_child hp (List.mem_cons_of_mem _ List.mem_cons_self)
  cases elseBranch with
  | none =>
    obtain ⟨between, hc, ht⟩ := Option.bind_eq_some_iff.mp h
    have same := Node.resolve?_eq thenBranch skips.1 ht
    refine (heval condition f w visible between hc plainCondition hb hw).bind
      fun v u hu ⟨_, hbu⟩ => ?_
    split
    · exact heval thenBranch f u between after ht plainThen hbu hu.2
    · exact .pure hu.2 ⟨trivial, same ▸ hbu⟩
    · exact .fail hu.2 nofun
  | some e =>
    have plainElse := Node.definesPlainly_child hp
      (List.mem_cons_of_mem _ (List.mem_cons_of_mem _ List.mem_cons_self))
    obtain ⟨between, hc, h⟩ := Option.bind_eq_some_iff.mp h
    obtain ⟨middle, ht, he⟩ := Option.bind_eq_some_iff.mp h
    have sameThen := Node.resolve?_eq thenBranch skips.1 ht
    have sameElse := Node.resolve?_eq e (by simpa using skips.2) he
    subst sameThen sameElse
    refine (heval condition f w visible _ hc plainCondition hb hw).bind fun v u hu ⟨_, hbu⟩ => ?_
    split
    · exact heval thenBranch f u _ _ ht plainThen hbu hu.2
    · exact heval e f u _ _ he plainElse hbu hu.2
    · exact .fail hu.2 nofun

/-! ## Definitions -/

omit heval in
theorem function_goes {span : Option Span} {name : Option String} {params : List Param}
    {returns : Option Ty} {bodySpan : Option Span} {body : List Node} {f : FrameId}
    {visible after : List String}
    (h : (Node.function span name params returns bodySpan body).resolve? visible = some after)
    (hp : (Node.function span name params returns bodySpan body).definesPlainly)
    (hb : w.store.Binds f visible) (hw : w.store.Resolved) :
    Goes (evaluateWith host eval (.function span name params returns bodySpan body) f) w
      fun v u => v.Resolves u.store ∧ u.store.Binds f after := by
  have plain : ∀ n ∈ body, n.definesPlainly := fun n hn =>
    Node.definesPlainly_child (Node.definesPlainly_child hp
      (List.mem_append_right _ (List.mem_singleton_self _))) hn
  simp only [Node.resolve?, Option.map_eq_some_iff] at h
  obtain ⟨inside, hbody, rfl⟩ := h
  have same := after_self hw
  refine WP.bind (WP.get same (WP.bind (WP.modify same same ?_)))
  cases name with
  | none => exact WP.pure same ⟨⟨visible, hb, plain, inside, hbody⟩, hb⟩
  | some name =>
    let c : Closure := ⟨w.closures, some name, params, returns, bodySpan, body, f⟩
    have defined := hb.define name ⟨.closure c, none⟩
    have resolves : (Value.closure c).Resolves (w.store.define f name ⟨.closure c, none⟩) :=
      ⟨name :: visible, defined, plain, inside, hbody⟩
    have kept : After w.store { w with
        store := w.store.define f name ⟨.closure c, none⟩, closures := w.closures + 1 } :=
      ⟨Store.extends_define _ _ _ _, hw.define resolves⟩
    exact WP.bind (WP.modifyStore same kept (WP.pure kept ⟨resolves, defined⟩))

theorem define_goes {span : Option Span} {name : String} {declared : Option Ty} {value : Node}
    {f : FrameId} {visible after : List String}
    (h : (Node.define span name declared value).resolve? visible = some after)
    (hp : (Node.define span name declared value).definesPlainly)
    (hb : w.store.Binds f visible) (hw : w.store.Resolved) :
    Goes (evaluateWith host eval (.define span name declared value) f) w
      fun v u => v.Resolves u.store ∧ u.store.Binds f after := by
  obtain ⟨between, hv, h⟩ := Option.bind_eq_some_iff.mp h
  cases h
  have plain := Node.definesPlainly_child hp (List.mem_singleton_self _)
  refine (heval value f w visible between hv plain hb hw).bind fun v u hu ⟨ha, hbu⟩ => ?_
  have defined : Goes (do modifyStore (·.define f name ⟨v, declared⟩); return v) u
      fun v x => v.Resolves x.store ∧ x.store.Binds f (name :: between) := by
    have extends_ := Store.extends_define u.store f name ⟨v, declared⟩
    have kept : After u.store { u with store := u.store.define f name ⟨v, declared⟩ } :=
      ⟨extends_, hu.2.define (ha.extends extends_)⟩
    exact WP.bind (WP.modifyStore (after_self hu.2) kept
      (WP.pure kept ⟨ha.extends extends_, hbu.define name _⟩))
  cases declared with
  | none => exact defined
  | some t =>
    dsimp only
    split_ifs
    · exact WP.bind (Goes.fail hu.2 nofun)
    · exact defined

theorem assign_goes {span : Option Span} {name : String} {value : Node} {f : FrameId}
    {visible after : List String}
    (h : (Node.assign span name value).resolve? visible = some after)
    (hp : (Node.assign span name value).definesPlainly)
    (hb : w.store.Binds f visible) (hw : w.store.Resolved) :
    Goes (evaluateWith host eval (.assign span name value) f) w
      fun v u => v.Resolves u.store ∧ u.store.Binds f after := by
  obtain ⟨between, hv, h⟩ := Option.bind_eq_some_iff.mp h
  split_ifs at h with hn
  cases h
  have plain := Node.definesPlainly_child hp (List.mem_singleton_self _)
  refine (heval value f w visible _ hv plain hb hw).bind fun v u hu hv => ?_
  obtain ⟨ha, hbu⟩ := hv
  refine WP.bind (WP.store (after_self hu.2) ?_)
  have assigned : Goes (do modifyStore (·.assign f name v); return v) u
      fun v x => v.Resolves x.store ∧ x.store.Binds f after := by
    have extends_ := Store.extends_assign u.store f name v
    have kept : After u.store { u with store := u.store.assign f name v } :=
      ⟨extends_, hu.2.assign ha⟩
    exact WP.bind (WP.modifyStore (after_self hu.2) kept
      (WP.pure kept ⟨ha.extends extends_, hbu.extends extends_⟩))
  cases hs : u.store.slot? f name with
  | none =>
    have found := Store.lookup?_isSome (hbu.found name hn)
    rw [Store.lookup?, hs] at found
    cases found
  | some slot =>
    obtain ⟨old, declared⟩ := slot
    cases declared with
    | none => exact assigned
    | some t =>
      dsimp only
      split_ifs
      · exact WP.bind (Goes.fail hu.2 (by rintro ⟨⟩))
      · exact assigned

/-! ## Evaluation -/

/-- One step of evaluation, by what is known of the evaluations below. -/
theorem evaluateWith_goes {n : Node} {f : FrameId} {visible after : List String}
    (h : n.resolve? visible = some after) (hp : n.definesPlainly) (hb : w.store.Binds f visible)
    (hw : w.store.Resolved) :
    Goes (evaluateWith host eval n f) w fun v u => v.Resolves u.store ∧ u.store.Binds f after := by
  have plain : ∀ m ∈ n.children, m.definesPlainly := fun m hm => Node.definesPlainly_child hp hm
  cases n with
  | literal =>
    cases h
    exact .pure hw ⟨trivial, hb⟩
  | reference => exact reference_goes h hb hw
  | interpolation span parts =>
    rw [Node.resolve?, Node.resolveParts?_eq_foldlM] at h
    refine (texts_goes (fun p hm u visible after ha hb hu => ?_) h hb hw).bind
      fun ss u hu hbu => .pure hu.2 ⟨trivial, hbu⟩
    cases p with
    | text s =>
      cases ha
      exact .pure hu hb
    | node n => exact argumentOf_goes heval ha (plain n (List.mem_filterMap.mpr ⟨_, hm, rfl⟩)) hb hu
  | substitution span body =>
    simp only [Node.resolve?, Option.map_eq_some_iff] at h
    obtain ⟨inside, hbody, rfl⟩ := h
    let pushed : World := { w with store := (w.store.push (some f)).2 }
    have extends_ : w.store.Extends pushed.store := Store.extends_push _ _
    refine Goes.bind (R := fun g u => g = w.store.frames.size ∧ u = pushed)
      (.newFrame hw ⟨rfl, rfl⟩) fun g u _ e => ?_
    obtain ⟨rfl, rfl⟩ := e
    refine (entries_goes heval hbody plain hb.push (hw.push _)).bind fun v u hu _ => ?_
    have outside := (hb.extends extends_).extends hu.1
    split
    · exact .pure hu.2 ⟨trivial, outside⟩
    · exact (argumentText_goes hu.2).bind fun _ x hx _ =>
        .pure hx.2 ⟨trivial, outside.extends hx.1⟩
  | binding | parameter | blank => exact .fail hw (by rintro ⟨⟩)
  | command => exact command_goes heval h hp hb hw
  | call span callee args =>
    obtain ⟨between, hc, hargs⟩ := Option.bind_eq_some_iff.mp h
    refine (heval callee f w visible between hc (plain _ List.mem_cons_self) hb hw).bind
      fun c u hu hc => ?_
    obtain ⟨hcu, hbu⟩ := hc
    refine (arguments_goes heval hargs (fun n hn => plain n (List.mem_cons_of_mem _ hn)) hbu
      hu.2).bind fun vs x hx hvs => ?_
    obtain ⟨hvs, hbx⟩ := hvs
    exact (apply_goes heval (hcu.extends hx.1) hvs hx.2).mono fun v y hy hv =>
      ⟨hv, hbx.extends hy.1⟩
  | conditional => exact conditional_goes heval h hp hb hw
  | block span body =>
    simp only [Node.resolve?, Option.map_eq_some_iff] at h
    obtain ⟨inside, hbody, rfl⟩ := h
    let pushed : World := { w with store := (w.store.push (some f)).2 }
    have extends_ : w.store.Extends pushed.store := Store.extends_push _ _
    refine Goes.bind (R := fun g u => g = w.store.frames.size ∧ u = pushed)
      (.newFrame hw ⟨rfl, rfl⟩) fun g u _ e => ?_
    obtain ⟨rfl, rfl⟩ := e
    exact (entries_goes heval hbody plain hb.push (hw.push _)).mono fun v u hu hv =>
      ⟨hv.1, (hb.extends extends_).extends hu.1⟩
  | program => exact entries_goes heval h plain hb hw
  | function => exact function_goes h hp hb hw
  | binary => exact binary_goes heval h hp hb hw
  | unary => exact unary_goes heval h (plain _ (List.mem_singleton_self _)) hb hw
  | ret span value =>
    cases value with
    | none => exact WP.bind (WP.pure (after_self hw) (WP.throw (after_self hw) trivial))
    | some n =>
      refine (heval n f w visible after h (plain _ (List.mem_singleton_self _)) hb hw).bind
        fun v u hu hv => ?_
      exact WP.throw (after_self hu.2) hv.1
  | define => exact define_goes heval h hp hb hw
  | assign => exact assign_goes heval h hp hb hw

end

/-- A tree that refers to visible names alone is evaluated without meeting a name that is not
bound. -/
theorem evaluate_goes (host : Option Host) (depth : Nat) :
    ∀ (n : Node) (f : FrameId) (w : World) (visible after : List String),
      n.resolve? visible = some after → n.definesPlainly → w.store.Binds f visible →
      w.store.Resolved →
      Goes (evaluate host depth n f) w fun v u => v.Resolves u.store ∧ u.store.Binds f after := by
  induction depth with
  | zero => exact fun _ _ _ _ _ _ _ _ hw => WP.throw (after_self hw) trivial
  | succ depth ih => exact fun _ _ _ _ _ h hp hb hw => evaluateWith_goes ih h hp hb hw

end Eval

theorem World.binds_initial : World.initial.store.Binds rootFrame [] :=
  ⟨Nat.zero_lt_one, nofun⟩

theorem World.resolved_initial : World.initial.store.Resolved := by
  intro f name slot h
  rw [World.initial, Store.slotIn?_push] at h
  cases h

/-- A tree that was checked without a report of a name that means nothing never meets a name that is
not bound, if no definition in it is ever skipped. -/
theorem evaluate_bound (host : Option Host) (depth : Nat) {p : Node} {t : Ty}
    (hc : (check p Scopes.empty p.blankNotes).outcome = .ok t)
    (hd : ∀ d ∈ (check p Scopes.empty p.blankNotes).diagnostics, d.code ≠ .unboundName)
    (hp : p.definesPlainly) {e : RuntimeError}
    (he : ((Eval.evaluate host depth p rootFrame).run World.initial).1 = .error (.error e)) :
    e.fault.kind ≠ .unboundName := by
  obtain ⟨after, ha⟩ := resolve?_of_check hc hd
  have ends := (Eval.wp_iff.mp (Eval.evaluate_goes host depth p rootFrame World.initial [] after ha
    hp World.binds_initial World.resolved_initial)).2
  rw [he] at ends
  exact ends

/-- The error that evaluation ends with, if it does. -/
def Eval.error? {α : Type} : Except Exit α → Option RuntimeError
  | .error (.error e) => some e
  | _ => none

theorem Eval.error?_eq_some_iff {α : Type} {r : Except Exit α} {e : RuntimeError} :
    error? r = some e ↔ r = .error (.error e) := by
  unfold error?
  split <;> simp_all

/-- `fn adder($x) { return fn ($y) { $x + $y } }; let $add = adder(1); $add("two")`, which fails for
another reason in a closure that was passed around. -/
def adderSample : Node :=
  .program none [
    .function none (some "adder") [⟨none, "x", none⟩] none none [
      .ret none (some (.function none none [⟨none, "y", none⟩] none none [
        .binary none .add (.reference none "x" none) (.reference none "y" none)]))],
    .define none "add" none
      (.call none (.reference none "adder" none) [.literal none (.int 1)]),
    .call none (.reference none "add" none) [.literal none (.text "two")]]

theorem evaluate_bound_adderSample :
    (∃ t, (check adderSample Scopes.empty adderSample.blankNotes).outcome = .ok t) ∧
    (∀ d ∈ (check adderSample Scopes.empty adderSample.blankNotes).diagnostics,
      d.code ≠ .unboundName) ∧
    adderSample.definesPlainly ∧
    ∃ e, ((Eval.evaluate none 10 adderSample rootFrame).run World.initial).1 = .error (.error e) ∧
      e.fault.kind ≠ .unboundName := by
  have accepted :
      (check adderSample Scopes.empty adderSample.blankNotes).outcome.toOption.isSome := by
    decide +kernel
  have reports : ∀ d ∈ (check adderSample Scopes.empty adderSample.blankNotes).diagnostics,
      d.code ≠ .unboundName := by
    decide +kernel
  have plain : adderSample.definesPlainly := by decide +kernel
  have fails : (Eval.error? ((Eval.evaluate none 10 adderSample rootFrame).run
      World.initial).1).isSome := by
    decide +kernel
  cases outcome : (check adderSample Scopes.empty adderSample.blankNotes).outcome with
  | error => simp [outcome, Except.toOption] at accepted
  | ok t =>
    obtain ⟨e, some⟩ := Option.isSome_iff_exists.mp fails
    have he := Eval.error?_eq_some_iff.mp some
    exact ⟨⟨t, rfl⟩, reports, plain, e, he, evaluate_bound none 10 outcome reports plain he⟩

end Sigil
