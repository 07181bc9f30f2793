import Mathlib.Data.List.Forall2
import Mathlib.Tactic.SplitIfs
import Sigil.Proofs.Evaluation.Rules
import Sigil.Proofs.Store.Frames

/-!
# What evaluation does to the frames around it

A block, a substitution and the body of a function are evaluated in a frame of
their own. All that they do to the frames that were there before is to assign
to names that these have: the frames stay within the same frames, with the
same names, in the same order and declared with the same types, and a value
changes only where an assignment made on the way found the name
(`scopes_revise`).

An evaluation is taken here as the changes of the world that it makes
(`Steps.changes`). It is local from a frame on if each of its changes is an
assignment or leaves all frames below that one as they are (`Eval.Local`).
Locality goes by one induction on the depth, with a lemma for each form of
node, and what a run of local changes does to a frame by an induction on the
run (`Steps.revised`).
-/

namespace Sigil

/-! ## Revised frames -/

/-- The same names in the same order, declared with the same types, where only the values of names
that `A` holds of may be others. -/
def Names.Revised (A : String → Prop) : Names Slot → Names Slot → Prop :=
  List.Forall₂ fun p q =>
    q.1 = p.1 ∧ q.2.declared = p.2.declared ∧ (A p.1 ∨ q.2.value = p.2.value)

namespace Names.Revised

variable {A B : String → Prop} {before between after : Names Slot}

theorem refl (slots : Names Slot) : slots.Revised A slots :=
  List.forall₂_same.mpr fun _ _ => ⟨rfl, rfl, .inr rfl⟩

theorem mono (hAB : ∀ name, A name → B name) (h : before.Revised A after) :
    before.Revised B after :=
  h.imp fun _ _ ⟨name, declared, value⟩ => ⟨name, declared, value.imp_left (hAB _)⟩

theorem trans (h : before.Revised A between) (k : between.Revised A after) :
    before.Revised A after := by
  induction h generalizing after with
  | nil => exact k
  | cons hpq _ ih =>
    obtain ⟨hname, hdeclared, hvalue⟩ := hpq
    cases k with
    | cons kqr rest =>
      obtain ⟨kname, kdeclared, kvalue⟩ := kqr
      rw [hname] at kvalue
      refine .cons ⟨kname.trans hname, kdeclared.trans hdeclared, ?_⟩ (ih rest)
      exact hvalue.elim .inl fun hvalue => kvalue.imp_right (·.trans hvalue)

/-- Another value for a name that is there. -/
theorem insert {slots : Names Slot} {name : String} {slot : Slot} (v : Value) (hA : A name)
    (h : slots.get? name = some slot) :
    slots.Revised A (slots.insert name { slot with value := v }) := by
  induction slots with
  | nil => cases h
  | cons p slots ih =>
    obtain ⟨n, old⟩ := p
    by_cases e : n = name
    · simp only [Names.get?, if_pos e, Option.some.injEq] at h
      simp only [Names.insert, if_pos e, ← h]
      exact .cons ⟨rfl, rfl, .inl (e ▸ hA)⟩ (refl slots)
    · simp only [Names.get?, if_neg e] at h
      simp only [Names.insert, if_neg e]
      exact .cons ⟨rfl, rfl, .inr rfl⟩ (ih h)

end Names.Revised

/-- A frame and what it became: within the same frame, with slots that are revised. -/
structure Frame.Revised (A : String → Prop) (before after : Frame) : Prop where
  outer : after.outer = before.outer
  slots : before.slots.Revised A after.slots

namespace Frame.Revised

variable {A B : String → Prop} {before between after : Frame}

theorem refl (frame : Frame) : frame.Revised A frame :=
  ⟨rfl, .refl frame.slots⟩

theorem mono (hAB : ∀ name, A name → B name) (h : before.Revised A after) :
    before.Revised B after :=
  ⟨h.outer, h.slots.mono hAB⟩

theorem trans (h : before.Revised A between) (k : between.Revised A after) :
    before.Revised A after :=
  ⟨k.outer.trans h.outer, h.slots.trans k.slots⟩

end Frame.Revised

/-! ## Changes -/

/-- What an assignment to a name, made in a frame, does to the world. -/
def World.assigned (f : FrameId) (name : String) (v : Value) (w : World) : World :=
  { w with store := w.store.assign f name v }

/-- A value other than a given one. -/
theorem Value.exists_ne (v : Value) : ∃ u : Value, u ≠ v := by
  by_cases h : v = .unit
  · exact ⟨.bool true, by simp [h]⟩
  · exact ⟨.unit, Ne.symm h⟩

/-- An assignment is none of the other changes that evaluation makes: no look at the world, no world
put in place of another one, no new frame, no definition, no new closure. -/
theorem World.assigned_ne (f : FrameId) (name : String) (v : Value) :
    World.assigned f name v ≠ id ∧
    (∀ u, World.assigned f name v ≠ fun _ => u) ∧
    (∀ outer, World.assigned f name v ≠ fun w => { w with store := (w.store.push outer).2 }) ∧
    (∀ g other slot, World.assigned f name v ≠
      fun w => { w with store := w.store.define g other slot }) ∧
    World.assigned f name v ≠ fun w => { w with closures := w.closures + 1 } := by
  -- a store in which no name is found, and one in which the name has another value
  let bare (n : Nat) : Store := ⟨Array.replicate n ⟨[], none⟩⟩
  have bare_slot (n g : Nat) (other : String) : (bare n).slotIn? g other = none := by
    simp only [Store.slotIn?, bare, Array.getElem?_replicate]
    split_ifs <;> rfl
  have bare_find (n : Nat) : (bare n).find? f name = none :=
    List.find?_eq_none.mpr fun g _ => by simp [bare_slot]
  obtain ⟨u, hu⟩ := v.exists_ne
  let full : Store := ⟨Array.replicate (f + 1) ⟨[(name, ⟨u, none⟩)], none⟩⟩
  have full_slot : full.slotIn? f name = some ⟨u, none⟩ := by simp [Store.slotIn?, full, Names.get?]
  have full_find : full.find? f name = some f := Store.find?_of_own (by simp [full_slot])
  refine ⟨fun h => ?_, fun t h => ?_, fun outer h => ?_, fun g other slot h => ?_, fun h => ?_⟩
  · have := congrArg (fun w => w.store.slotIn? f name) (congrFun h ⟨full, [], 0, none⟩)
    simp [World.assigned, Store.assign_of_find? full_find full_slot, Store.slotIn?_define,
      full_slot, full, hu.symm] at this
  · have zero := congrArg World.closures (congrFun h ⟨bare 0, [], 0, none⟩)
    have one := congrArg World.closures (congrFun h ⟨bare 0, [], 1, none⟩)
    exact absurd (zero.trans one.symm) (by simp [World.assigned])
  · have := congrArg (fun w => w.store.frames.size) (congrFun h ⟨bare 0, [], 0, none⟩)
    simp [World.assigned, Store.assign_of_none (bare_find 0)] at this
  · have := congrArg (fun w => w.store.slotIn? g other) (congrFun h ⟨bare (g + 1), [], 0, none⟩)
    simp [World.assigned, Store.assign_of_none (bare_find (g + 1)), bare_slot,
      Store.slotIn?_define, bare] at this
  · have := congrArg World.closures (congrFun h ⟨bare 0, [], 0, none⟩)
    simp [World.assigned] at this

namespace Steps

variable {α β : Type}

/-- The changes that a computation makes, each with the world in which it makes it. -/
def changes : Steps α → World → List ((World → World) × World)
  | done _, _ => []
  | step change next, w => (change, w) :: changes (next w) (change w)

theorem changes_bind (m : Steps α) (f : α → Steps β) (w : World) :
    (m >>= f).changes w = m.changes w ++ (f (m.run w).1).changes (m.run w).2 := by
  induction m generalizing w with
  | done a => rfl
  | step change next ih => exact congrArg ((change, w) :: ·) (ih w (change w))

/-- The change is an assignment, or all frames below `base` are the same after it; and none is
lost. -/
structure Confined (base : Nat) (change : World → World) (w : World) : Prop where
  size : w.store.frames.size ≤ (change w).store.frames.size
  frames : (∃ f name v, change = World.assigned f name v) ∨
    ∀ g < base, (change w).store.frames[g]? = w.store.frames[g]?

theorem Confined.assigned (base : Nat) (f : FrameId) (name : String) (v : Value) (w : World) :
    Confined base (World.assigned f name v) w :=
  ⟨(Store.keeps_assign w.store f name v).size, .inl ⟨f, name, v, rfl⟩⟩

/-- A change that does nothing to the store. -/
theorem Confined.of_store_eq {base : Nat} {change : World → World} {w : World}
    (h : (change w).store = w.store) : Confined base change w :=
  ⟨Nat.le_of_eq (by rw [h]), .inr fun _ _ => by rw [h]⟩

theorem Confined.push {base : Nat} {w : World} (outer : Option FrameId)
    (h : base ≤ w.store.frames.size) :
    Confined base (fun w => { w with store := (w.store.push outer).2 }) w :=
  ⟨(Store.keeps_push w.store outer).size,
    .inr fun _ hg => Store.getElem?_push w.store outer (Nat.lt_of_lt_of_le hg h)⟩

theorem Confined.define {base : Nat} {f : FrameId} (name : String) (slot : Slot) (w : World)
    (h : base ≤ f) :
    Confined base (fun w => { w with store := w.store.define f name slot }) w :=
  ⟨(Store.keeps_define w.store f name slot).size,
    .inr fun _ hg => Store.getElem?_define w.store name slot (Nat.ne_of_gt (Nat.lt_of_lt_of_le hg h))⟩

/-- Frames are not lost on the way. -/
theorem size_le_run {base : Nat} {m : Steps α} {w : World}
    (h : ∀ p ∈ m.changes w, Confined base p.1 p.2) :
    w.store.frames.size ≤ (m.run w).2.store.frames.size := by
  induction m generalizing w with
  | done a => exact Nat.le_refl _
  | step change next ih =>
    obtain ⟨here, later⟩ := List.forall_mem_cons.mp h
    exact Nat.le_trans here.size (ih _ later)

theorem confined_bind {base : Nat} {m : Steps α} {f : α → Steps β} {w : World}
    (hw : base ≤ w.store.frames.size) (hm : ∀ p ∈ m.changes w, Confined base p.1 p.2)
    (hf : ∀ v : World, base ≤ v.store.frames.size →
      ∀ p ∈ (f (m.run w).1).changes v, Confined base p.1 p.2) :
    ∀ p ∈ (m >>= f).changes w, Confined base p.1 p.2 := by
  rw [changes_bind, List.forall_mem_append]
  exact ⟨hm, hf _ (Nat.le_trans hw (size_le_run hm))⟩

/-- An assignment to `name` among the changes found the name in the frame `g`. -/
def Assigns (m : Steps α) (w : World) (g : FrameId) (name : String) : Prop :=
  ∃ f v u, (World.assigned f name v, u) ∈ m.changes w ∧ u.store.find? f name = some g

/-- A single confined change revises a frame below `base` where it assigns. -/
theorem Confined.revised {base : Nat} {change : World → World} {w : World} {g : FrameId}
    {frame : Frame} (h : Confined base change w) (hg : g < base)
    (hframe : w.store.frames[g]? = some frame) :
    ∃ after, (change w).store.frames[g]? = some after ∧
      frame.Revised
        (fun name => ∃ f v, change = World.assigned f name v ∧ w.store.find? f name = some g)
        after := by
  rcases h.frames with ⟨f, name, v, rfl⟩ | same
  · rcases Store.assign_cases w.store f name v with ⟨-, e⟩ | ⟨k, slot, hfind, hslot, e⟩
    · exact ⟨frame, by rw [World.assigned, e]; exact hframe, .refl frame⟩
    · by_cases hk : k = g
      · subst hk
        refine ⟨{ frame with slots := frame.slots.insert name { slot with value := v } }, ?_, ?_⟩
        · simp [World.assigned, e, Store.define, Array.getElem?_modify, hframe]
        · have hget : frame.slots.get? name = some slot := by
            simpa [Store.slotIn?, hframe] using hslot
          exact ⟨rfl, .insert v ⟨f, v, rfl, hfind⟩ hget⟩
      · refine ⟨frame, ?_, .refl frame⟩
        rw [World.assigned, e, Store.getElem?_define w.store name _ hk]
        exact hframe
  · exact ⟨frame, (same g hg).trans hframe, .refl frame⟩

/-- A run of confined changes revises a frame below `base` where one of them assigns. -/
theorem revised {base : Nat} {m : Steps α} {w : World} {g : FrameId} {frame : Frame}
    (h : ∀ p ∈ m.changes w, Confined base p.1 p.2) (hg : g < base)
    (hframe : w.store.frames[g]? = some frame) :
    ∃ after, (m.run w).2.store.frames[g]? = some after ∧
      frame.Revised (m.Assigns w g) after := by
  induction m generalizing w frame with
  | done a => exact ⟨frame, hframe, .refl frame⟩
  | step change next ih =>
    obtain ⟨here, later⟩ := List.forall_mem_cons.mp h
    obtain ⟨between, hbetween, first⟩ := here.revised hg hframe
    obtain ⟨after, hafter, rest⟩ := ih _ later hbetween
    refine ⟨after, hafter, .trans (first.mono ?_) (rest.mono ?_)⟩
    · rintro name ⟨f, v, rfl, hfind⟩
      exact ⟨f, v, w, List.mem_cons_self, hfind⟩
    · rintro name ⟨f, v, u, hu, hfind⟩
      exact ⟨f, v, u, List.mem_cons_of_mem _ hu, hfind⟩

end Steps

namespace Eval

variable {α β : Type} {base : Nat}

/-- The changes that an evaluation makes, however it ends. -/
def changes (m : Eval α) (w : World) : List ((World → World) × World) :=
  Steps.changes (ExceptT.run m) w

/-- An assignment to `name` that the evaluation makes finds the name in the frame `g`. -/
def Assigns (m : Eval α) (w : World) (g : FrameId) (name : String) : Prop :=
  Steps.Assigns (ExceptT.run m) w g name

/-- An evaluation that does nothing to frames below `base` except by assignments, in worlds that
have these frames. -/
def Local (base : Nat) (m : Eval α) : Prop :=
  ∀ w : World, base ≤ w.store.frames.size → ∀ p ∈ m.changes w, Steps.Confined base p.1 p.2

/-- What the evaluation leaves of the frames that are there before it: they are revised where it
assigns, and nowhere else. -/
def Revises (m : Eval α) (w : World) : Prop :=
  ∀ g frame, w.store.frames[g]? = some frame →
    ∃ after, (m.run w).2.store.frames[g]? = some after ∧ Frame.Revised (m.Assigns w g) frame after

theorem Local.revises {m : Eval α} {w : World} (h : Local w.store.frames.size m) : m.Revises w :=
  fun _ _ hframe => Steps.revised (h w (Nat.le_refl _)) (Array.getElem?_eq_some_iff.mp hframe).1
    hframe

/-! ## Local evaluations -/

namespace Local

theorem pure (a : α) : Local base (Pure.pure a : Eval α) :=
  fun _ _ _ => nofun

theorem throw (e : Exit) : Local base (MonadExcept.throw e : Eval α) :=
  fun _ _ _ => nofun

theorem fail (fault : RuntimeFault) (span : Option Span) :
    Local base (Eval.fail fault span : Eval α) :=
  throw _

theorem bind {m : Eval α} {f : α → Eval β} (hm : Local base m) (hf : ∀ a, Local base (f a)) :
    Local base (m >>= f) := by
  intro w hw
  refine Steps.confined_bind hw (hm w hw) fun v hv => ?_
  generalize (Steps.run m w).1 = result
  cases result with
  | ok a => exact hf a v hv
  | error e => exact fun _ => nofun

/-- Failing on a condition, before the rest. -/
theorem failIf {p : Prop} [Decidable p] {fault : RuntimeFault} {span : Option Span}
    {rest : PUnit → Eval α} (h : Local base (rest ⟨⟩)) :
    Local base (if p then Eval.fail fault span >>= rest else rest ⟨⟩) := by
  split_ifs
  · exact .bind (.fail _ _) fun _ => h
  · exact h

theorem tryCatch {m : Eval α} {handle : Exit → Eval α} (hm : Local base m)
    (hh : ∀ e, Local base (handle e)) : Local base (MonadExcept.tryCatch m handle) := by
  intro w hw
  refine Steps.confined_bind hw (hm w hw) fun v hv => ?_
  generalize (Steps.run m w).1 = result
  cases result with
  | ok a => exact fun _ => nofun
  | error e => exact hh e v hv

theorem mapM {f : α → Eval β} (hf : ∀ a, Local base (f a)) :
    ∀ as : List α, Local base (as.mapM f)
  | [] => pure []
  | a :: as => by
    rw [List.mapM_cons]
    exact bind (hf a) fun _ => bind (mapM hf as) fun _ => pure _

theorem foldlM {f : β → α → Eval β} (hf : ∀ b a, Local base (f b a)) :
    ∀ (as : List α) (b : β), Local base (as.foldlM f b)
  | [], b => pure b
  | a :: as, b => by
    rw [List.foldlM_cons]
    exact bind (hf b a) fun _ => foldlM hf as _

theorem forIn {f : α → β → Eval (ForInStep β)} (hf : ∀ a b, Local base (f a b)) :
    ∀ (as : List α) (b : β), Local base (ForIn.forIn as b f)
  | [], b => pure b
  | a :: as, b => by
    rw [List.forIn_cons]
    refine bind (hf a b) fun r => ?_
    cases r with
    | done c => exact pure c
    | yield c => exact forIn hf as c

/-- A single change. -/
theorem modifyGet {f : World → α × World}
    (h : ∀ w : World, base ≤ w.store.frames.size → Steps.Confined base (fun w => (f w).2) w) :
    Local base (MonadStateOf.modifyGet f : Eval α) := by
  intro w hw p hp
  rcases List.mem_cons.mp hp with rfl | hp
  · exact h w hw
  · cases hp

theorem get : Local base (MonadState.get : Eval World) := by
  intro w _ p hp
  rcases List.mem_cons.mp hp with rfl | hp
  · exact .of_store_eq rfl
  · cases hp

theorem store : Local base Eval.store :=
  bind get fun _ => pure _

/-- A change that is worked out from the world before it, and does nothing to the store. -/
theorem update {g : World → World} {k : World → Eval β} (hg : ∀ w, (g w).store = w.store)
    (hk : ∀ w, Local base (k w)) : Local base (do let w ← MonadState.get; set (g w); k w) := by
  intro w hw p hp
  rcases List.mem_cons.mp hp with rfl | hp
  · exact .of_store_eq rfl
  rcases List.mem_cons.mp hp with rfl | hp
  · exact .of_store_eq (hg w)
  · exact hk w (g w) (by rw [hg]; exact hw) p hp

theorem assign (f : FrameId) (name : String) (v : Value) :
    Local base (modifyStore (·.assign f name v)) :=
  modifyGet fun w _ => .assigned base f name v w

theorem define {f : FrameId} (name : String) (slot : Slot) (hf : base ≤ f) :
    Local base (modifyStore (·.define f name slot)) :=
  modifyGet fun w _ => .define name slot w hf

/-- What is done with a new frame may change it. -/
theorem newFrame {outer : FrameId} {k : FrameId → Eval β} (hk : ∀ f, base ≤ f → Local base (k f)) :
    Local base (Eval.newFrame outer >>= k) := by
  intro w hw p hp
  rcases List.mem_cons.mp hp with rfl | hp
  · exact .push (some outer) hw
  · exact hk _ hw _ (by rw [Store.size_push]; exact Nat.le_succ_of_le hw) p hp

end Local

/-! ## Operations -/

theorem argumentText_local (v : Value) : Local base (argumentText v) := by
  unfold argumentText
  split
  · exact .pure _
  · exact .fail _ _

theorem requireBool_local (symbol : String) (v : Value) (span : Option Span) :
    Local base (requireBool symbol v span) := by
  unfold requireBool
  split
  · exact .pure _
  · exact .fail _ _

theorem operated_local (r : Except OperatorFault α) (span : Option Span) :
    Local base (operated r span) := by
  unfold operated
  split
  · exact .pure _
  · exact .fail _ _

theorem reference_local (name : String) (default : Option String) (span : Option Span)
    (f : FrameId) : Local base (reference name default span f) := by
  refine .bind .store fun s => ?_
  split
  · exact .pure _
  · exact .fail _ _
  · exact .pure _
  · exact .pure _

theorem runCommand_local (host : Option Host) (call : Call) (span : Option Span) :
    Local base (runCommand host call span) := by
  unfold runCommand
  cases host with
  | none => exact .fail _ _
  | some host =>
    refine .update (fun _ => rfl) fun w => ?_
    split
    · exact .fail _ _
    · split_ifs
      · exact .fail _ _
      · exact .fail _ _
      · exact .pure _

/-! ## Forms -/

section

variable {host : Option Host} {eval : Node → FrameId → Eval Value}
  (heval : ∀ n f, base ≤ f → Local base (eval n f))

include heval

theorem entries_local (body : List Node) {f : FrameId} (hf : base ≤ f) :
    Local base (entries eval body f) :=
  .foldlM (fun _ n => heval n f hf) body _

theorem arguments_local (args : List Node) {f : FrameId} (hf : base ≤ f) :
    Local base (args.mapM (eval · f)) :=
  .mapM (fun n => heval n f hf) args

theorem argumentOf_local (n : Node) {f : FrameId} (hf : base ≤ f) :
    Local base (eval n f >>= argumentText) :=
  .bind (heval n f hf) argumentText_local

/-- The body and the parameters of a function have a frame of their own, wherever the function was
made. -/
theorem applyClosure_local (c : Closure) (args : List Value) (span : Option Span) :
    Local base (applyClosure eval c args span) := by
  unfold applyClosure
  refine .failIf (.bind (.forIn (fun p _ => ?_) _ _) fun _ => .newFrame fun f hf => ?_)
  · obtain ⟨⟨place, name, declared⟩, v⟩ := p
    cases declared with
    | none => exact .pure _
    | some t => exact .failIf (.pure _)
  refine .bind (.forIn (fun _ _ => .bind (.define _ _ hf) fun _ => .pure _) _ _) fun _ => ?_
  refine .bind (.tryCatch (heval _ f hf) fun e => ?_) fun v => ?_
  · cases e with
    | returned v => exact .pure v
    | error e => exact .throw _
    | tooDeep => exact .throw _
  · cases c.returns with
    | none => exact .pure v
    | some t =>
      dsimp only
      split_ifs
      · exact .pure v
      · exact .fail _ _

theorem apply_local (callee : Value) (args : List Value) (span : Option Span) :
    Local base (apply eval callee args span) := by
  unfold apply
  split
  · exact applyClosure_local heval _ args span
  · exact .fail _ _

theorem command_local (span : Option Span) (env : List EnvBinding) (name : String)
    (args : List Node) {f : FrameId} (hf : base ≤ f) :
    Local base (command host eval span env name args f) := by
  refine .bind .store fun s => ?_
  dsimp only
  split
  · exact .bind (arguments_local heval args hf) fun _ => applyClosure_local heval _ _ span
  · refine .bind (.foldlM (fun t b => ?_) env _) fun t => ?_
    · exact .bind (heval b.value f hf) fun v => .bind (argumentText_local v) fun _ => .pure _
    · exact .bind (.mapM (fun n => argumentOf_local heval n hf) args) fun _ =>
        runCommand_local host _ span

theorem binary_local (span : Option Span) (op : BinaryOperator) (left right : Node) {f : FrameId}
    (hf : base ≤ f) : Local base (binary eval span op left right f) := by
  have logical : Local base (do
      let b ← requireBool op.symbol (← eval left f) left.span
      if b = decide (op = .or) then return (Value.bool b)
      else return (Value.bool (← requireBool op.symbol (← eval right f) right.span))) := by
    refine .bind (heval left f hf) fun v => .bind (requireBool_local _ v _) fun b => ?_
    split_ifs
    · exact .pure _
    · exact .bind (heval right f hf) fun v => .bind (requireBool_local _ v _) fun _ => .pure _
  have operands {k : Value → Value → Eval Value} (hk : ∀ a b, Local base (k a b)) :
      Local base (do let a ← eval left f; let b ← eval right f; k a b) :=
    .bind (heval left f hf) fun a => .bind (heval right f hf) fun b => hk a b
  have compared (a b : Value) :
      Local base (do return Value.bool (← operated (a.compare op b) span)) :=
    .bind (operated_local _ span) fun _ => .pure _
  unfold binary
  split
  iterate 2 exact logical
  iterate 6 exact operands compared
  exact operands fun _ _ => operated_local _ span

theorem unary_local (span : Option Span) (op : UnaryOperator) (operand : Node) {f : FrameId}
    (hf : base ≤ f) : Local base (unary eval span op operand f) := by
  refine .bind (heval operand f hf) fun v => ?_
  split
  · exact .bind (requireBool_local _ _ span) fun _ => .pure _
  · exact .pure _
  · exact .fail _ _

theorem conditional_local (span : Option Span) (condition thenBranch : Node)
    (elseBranch : Option Node) {f : FrameId} (hf : base ≤ f) :
    Local base (evaluateWith host eval (.conditional span condition thenBranch elseBranch) f) := by
  refine .bind (heval condition f hf) fun v => ?_
  split
  · exact heval thenBranch f hf
  · cases elseBranch with
    | none => exact .pure _
    | some n => exact heval n f hf
  · exact .fail _ _

omit heval in
theorem function_local (span : Option Span) (name : Option String) (params : List Param)
    (returnType : Option Ty) (bodySpan : Option Span) (body : List Node) {f : FrameId}
    (hf : base ≤ f) :
    Local base (evaluateWith host eval (.function span name params returnType bodySpan body) f) := by
  refine .bind .get fun w => .bind (.modifyGet fun _ _ => .of_store_eq rfl) fun _ => ?_
  cases name with
  | none => exact .pure _
  | some name => exact .bind (.define _ _ hf) fun _ => .pure _

theorem define_local (span : Option Span) (name : String) (declared : Option Ty) (value : Node)
    {f : FrameId} (hf : base ≤ f) :
    Local base (evaluateWith host eval (.define span name declared value) f) := by
  refine .bind (heval value f hf) fun v => ?_
  have defined : Local base (do modifyStore (·.define f name ⟨v, declared⟩); return v) :=
    .bind (.define _ _ hf) fun _ => .pure v
  cases declared with
  | none => exact defined
  | some t =>
    dsimp only
    split_ifs
    · exact .bind (.fail _ _) fun _ => defined
    · exact defined

theorem assign_local (span : Option Span) (name : String) (value : Node) {f : FrameId}
    (hf : base ≤ f) : Local base (evaluateWith host eval (.assign span name value) f) := by
  refine .bind (heval value f hf) fun v => .bind .store fun s => ?_
  have assigned : Local base (do modifyStore (·.assign f name v); return v) :=
    .bind (.assign f name v) fun _ => .pure v
  cases s.slot? f name with
  | none => exact .fail _ _
  | some slot =>
    obtain ⟨value, declared⟩ := slot
    cases declared with
    | none => exact assigned
    | some t =>
      dsimp only
      split_ifs
      · exact .bind (.fail _ _) fun _ => assigned
      · exact assigned

/-- A block evaluates its entries in a frame of its own. -/
theorem block_local (span : Option Span) (body : List Node) (f : FrameId) :
    Local base (evaluateWith host eval (.block span body) f) :=
  .newFrame fun _ hg => entries_local heval body hg

/-- A substitution evaluates its entries in a frame of its own. -/
theorem substitution_local (span : Option Span) (body : List Node) (f : FrameId) :
    Local base (evaluateWith host eval (.substitution span body) f) := by
  refine .newFrame fun g hg => .bind (entries_local heval body hg) fun v => ?_
  split
  · exact .pure _
  · exact .bind (argumentText_local _) fun _ => .pure _

/-- One step of evaluation, by what is known of the evaluations below. -/
theorem evaluateWith_local (n : Node) {f : FrameId} (hf : base ≤ f) :
    Local base (evaluateWith host eval n f) := by
  cases n with
  | literal => exact .pure _
  | reference => exact reference_local _ _ _ f
  | interpolation span parts =>
    refine .bind (.mapM (fun p => ?_) parts) fun _ => .pure _
    cases p with
    | text s => exact .pure s
    | node n => exact argumentOf_local heval n hf
  | substitution span body => exact substitution_local heval span body f
  | binding | parameter | blank => exact .fail _ _
  | command => exact command_local heval _ _ _ _ hf
  | call span callee args =>
    exact .bind (heval callee f hf) fun v => .bind (arguments_local heval args hf) fun _ =>
      apply_local heval v _ span
  | conditional => exact conditional_local heval _ _ _ _ hf
  | block span body => exact block_local heval span body f
  | program span body => exact entries_local heval body hf
  | function => exact function_local _ _ _ _ _ _ hf
  | binary => exact binary_local heval _ _ _ _ hf
  | unary => exact unary_local heval _ _ _ hf
  | ret span value =>
    cases value with
    | none => exact .bind (.pure _) fun _ => .throw _
    | some n => exact .bind (heval n f hf) fun _ => .throw _
  | define => exact define_local heval _ _ _ _ hf
  | assign => exact assign_local heval _ _ _ hf

end

/-- Evaluation in a frame from `base` on is local from `base` on. -/
theorem evaluate_local (host : Option Host) (depth : Nat) (n : Node) (f : FrameId)
    (hf : base ≤ f) : Local base (evaluate host depth n f) := by
  induction depth generalizing n f with
  | zero => exact .throw _
  | succ depth ih => exact evaluateWith_local ih n hf

/-- Blocks and substitutions, wherever they are evaluated, and functions, with whatever arguments
they are called: however they end, the frames that were there before stay within the same frames,
with the same names in the same order and the same types declared for them. A value is another one
only in a slot that an assignment made by this evaluation found. -/
theorem scopes_revise (host : Option Host) (depth : Nat) (w : World) :
    (∀ span body f, (evaluate host depth (.block span body) f).Revises w) ∧
    (∀ span body f, (evaluate host depth (.substitution span body) f).Revises w) ∧
    (∀ c args span, (applyClosure (evaluate host depth) c args span).Revises w) := by
  have below (depth : Nat) (n : Node) (f : FrameId) (hf : w.store.frames.size ≤ f) :
      Local w.store.frames.size (evaluate host depth n f) := evaluate_local host depth n f hf
  refine ⟨fun span body f => ?_, fun span body f => ?_, fun c args span => ?_⟩
  · cases depth with
    | zero => exact Local.revises (.throw _)
    | succ depth => exact Local.revises (block_local (below depth) span body f)
  · cases depth with
    | zero => exact Local.revises (.throw _)
    | succ depth => exact Local.revises (substitution_local (below depth) span body f)
  · exact Local.revises (applyClosure_local (below depth) c args span)

end Eval

end Sigil
