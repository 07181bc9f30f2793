import Sigil.Evaluation

/-!
# Rules for evaluation

What holds in every world that an evaluation passes through, and how it ends
(`Eval.WP`), by a rule for each way of putting evaluations together:
`WP.pure`, `WP.bind`, `WP.tryCatch`, the loops over lists (`WP.mapM`,
`WP.foldlM`, `WP.forIn`), and the operations on the world. `Eval.wp_iff` says
what a proof by these rules is worth: it speaks of the worlds and of the end
of the run.
-/

namespace Sigil

variable {α β : Type} {I : World → Prop}

namespace Steps

theorem bind_done (m : Steps α) : m.bind done = m := by
  induction m with
  | done a => rfl
  | step change next ih => simp only [bind, ih]

theorem bind_bind {γ : Type} (m : Steps α) (f : α → Steps β) (g : β → Steps γ) :
    (m.bind f).bind g = m.bind fun a => (f a).bind g := by
  induction m with
  | done a => rfl
  | step change next ih => simp only [bind, ih]

instance : LawfulMonad Steps :=
  .mk' Steps bind_done (fun _ _ => rfl) bind_bind

theorem run_bind (m : Steps α) (f : α → Steps β) (w : World) :
    (m >>= f).run w = (f (m.run w).1).run (m.run w).2 := by
  induction m generalizing w with
  | done a => rfl
  | step change next ih => exact ih w (change w)

/-- `m`, in the world `w`, passes only through worlds where `I` holds, and ends as `Q` says. -/
def WP (I : World → Prop) : Steps α → World → (α → World → Prop) → Prop
  | done a, w, Q => I w ∧ Q a w
  | step change next, w, Q => I w ∧ WP I (next w) (change w) Q

theorem wp_iff {m : Steps α} {w : World} {Q : α → World → Prop} :
    WP I m w Q ↔ (∀ v ∈ m.worlds w, I v) ∧ Q (m.run w).1 (m.run w).2 := by
  induction m generalizing w with
  | done a => simp [WP, worlds, run]
  | step change next ih => simp [WP, worlds, run, ih, and_assoc]

/-- A computation leaves the last of the worlds that it passes through. -/
theorem run_mem_worlds (m : Steps α) (w : World) : (m.run w).2 ∈ m.worlds w := by
  induction m generalizing w with
  | done a => exact List.mem_singleton_self w
  | step change next ih => exact List.mem_cons_of_mem _ (ih w (change w))

theorem WP.mono {m : Steps α} {w : World} {Q R : α → World → Prop} (h : WP I m w Q)
    (hQ : ∀ a v, I v → Q a v → R a v) : WP I m w R := by
  induction m generalizing w with
  | done a => exact ⟨h.1, hQ a w h.1 h.2⟩
  | step change next ih => exact ⟨h.1, ih _ h.2⟩

theorem WP.weaken {J : World → Prop} {m : Steps α} {w : World} {Q : α → World → Prop}
    (hJ : ∀ v, I v → J v) (h : WP I m w Q) : WP J m w Q := by
  induction m generalizing w with
  | done a => exact ⟨hJ w h.1, h.2⟩
  | step change next ih => exact ⟨hJ w h.1, ih _ h.2⟩

theorem WP.bind {m : Steps α} {f : α → Steps β} {w : World} {Q : β → World → Prop}
    (h : WP I m w fun a v => WP I (f a) v Q) : WP I (m >>= f) w Q := by
  induction m generalizing w with
  | done a => exact h.2
  | step change next ih => exact ⟨h.1, ih _ h.2⟩

end Steps

namespace Eval

/-- What comes second runs in the world that what came first left, unless that ended otherwise. -/
theorem run_bind (m : Eval α) (f : α → Eval β) (w : World) : (m >>= f).run w =
    match m.run w with
    | (.ok a, v) => (f a).run v
    | (.error e, v) => (.error e, v) := by
  refine (Steps.run_bind (ExceptT.run m) _ w).trans ?_
  unfold run
  generalize (ExceptT.run m).run w = p
  obtain ⟨_ | _, _⟩ := p <;> rfl

theorem run_tryCatch (m : Eval α) (handle : Exit → Eval α) (w : World) :
    (tryCatch m handle : Eval α).run w =
    match m.run w with
    | (.ok a, v) => (.ok a, v)
    | (.error e, v) => (handle e).run v := by
  refine (Steps.run_bind (ExceptT.run m) _ w).trans ?_
  unfold run
  generalize (ExceptT.run m).run w = p
  obtain ⟨_ | _, _⟩ := p <;> rfl

/-- What holds at the end of an evaluation: `Q` of a value, `E` of another way to end. -/
def Ends (Q : α → World → Prop) (E : Exit → World → Prop) : Except Exit α → World → Prop
  | .ok a, w => Q a w
  | .error e, w => E e w

/-- `m`, in the world `w`, passes only through worlds where `I` holds; it ends with a value as `Q`
says, or in another way as `E` says. -/
def WP (I : World → Prop) (m : Eval α) (w : World) (Q : α → World → Prop)
    (E : Exit → World → Prop) : Prop :=
  Steps.WP I (ExceptT.run m) w (Ends Q E)

theorem wp_iff {m : Eval α} {w : World} {Q : α → World → Prop} {E : Exit → World → Prop} :
    WP I m w Q E ↔ (∀ v ∈ m.worlds w, I v) ∧ Ends Q E (m.run w).1 (m.run w).2 :=
  Steps.wp_iff

theorem run_mem_worlds (m : Eval α) (w : World) : (m.run w).2 ∈ m.worlds w :=
  Steps.run_mem_worlds _ w

namespace WP

variable {m : Eval α} {w : World} {Q : α → World → Prop} {E : Exit → World → Prop}

/-! ## Values, sequences and other ends -/

theorem mono {R : α → World → Prop} (h : WP I m w Q E) (hQ : ∀ a v, I v → Q a v → R a v) :
    WP I m w R E :=
  Steps.WP.mono h fun r v hv hr => by
    cases r with
    | ok a => exact hQ a v hv hr
    | error e => exact hr

theorem weaken {J : World → Prop} (hJ : ∀ v, I v → J v) (h : WP I m w Q E) : WP J m w Q E :=
  Steps.WP.weaken hJ h

theorem exits {F : Exit → World → Prop} (h : WP I m w Q E) (hE : ∀ e v, I v → E e v → F e v) :
    WP I m w Q F :=
  Steps.WP.mono h fun r v hv hr => by
    cases r with
    | ok a => exact hr
    | error e => exact hE e v hv hr

theorem pure {a : α} (hw : I w) (h : Q a w) : WP I (Pure.pure a) w Q E :=
  ⟨hw, h⟩

theorem throw {e : Exit} (hw : I w) (h : E e w) : WP I (MonadExcept.throw e : Eval α) w Q E :=
  ⟨hw, h⟩

theorem bind {f : α → Eval β} {R : β → World → Prop}
    (h : WP I m w (fun a v => WP I (f a) v R E) E) : WP I (m >>= f) w R E := by
  refine Steps.WP.bind (Steps.WP.mono h fun r v hv hr => ?_)
  cases r with
  | ok a => exact hr
  | error e => exact ⟨hv, hr⟩

theorem tryCatch {handle : Exit → Eval α}
    (h : WP I m w Q fun e v => WP I (handle e) v Q E) :
    WP I (MonadExcept.tryCatch m handle) w Q E := by
  refine Steps.WP.bind (Steps.WP.mono h fun r v hv hr => ?_)
  cases r with
  | ok a => exact ⟨hv, hr⟩
  | error e => exact hr

/-! ## Loops -/

/-- A loop that collects results. -/
theorem mapM {f : α → Eval β} :
    ∀ {as : List α} {w : World}, I w →
      (∀ a ∈ as, ∀ v, I v → WP I (f a) v (fun _ _ => True) E) →
      WP I (as.mapM f) w (fun _ _ => True) E
  | [], w, hw, _ => pure hw trivial
  | a :: as, w, hw, h => by
    rw [List.mapM_cons]
    refine bind (mono (h a List.mem_cons_self w hw) fun b v hv _ => ?_)
    refine bind (mono (mapM hv fun a ha => h a (List.mem_cons_of_mem _ ha)) fun bs u hu _ => ?_)
    exact pure hu trivial

/-- A loop that passes a result on from round to round. -/
theorem foldlM {f : β → α → Eval β} :
    ∀ {as : List α} {b : β} {w : World}, I w →
      (∀ a ∈ as, ∀ b v, I v → WP I (f b a) v (fun _ _ => True) E) →
      WP I (as.foldlM f b) w (fun _ _ => True) E
  | [], b, w, hw, _ => pure hw trivial
  | a :: as, b, w, hw, h => by
    rw [List.foldlM_cons]
    refine bind (mono (h a List.mem_cons_self b w hw) fun c v hv _ => ?_)
    exact foldlM hv fun a ha => h a (List.mem_cons_of_mem _ ha)

/-- A loop without a result, by what each round does: at its end, `J` holds of every item. -/
theorem forIn {f : α → PUnit → Eval (ForInStep PUnit)} {J : α → Prop} :
    ∀ {as : List α} {w : World}, I w →
      (∀ a ∈ as, ∀ v, I v → WP I (f a ⟨⟩) v (fun r _ => r = .yield ⟨⟩ ∧ J a) E) →
      WP I (ForIn.forIn as PUnit.unit f) w (fun _ _ => ∀ a ∈ as, J a) E
  | [], w, hw, _ => pure hw nofun
  | a :: as, w, hw, h => by
    rw [List.forIn_cons]
    refine bind (mono (h a List.mem_cons_self w hw) fun r v hv hr => ?_)
    rw [hr.1]
    refine mono (forIn hv fun a ha => h a (List.mem_cons_of_mem _ ha)) fun _ _ _ hJ => ?_
    exact List.forall_mem_cons.mpr ⟨hr.2, hJ⟩

/-! ## The world -/

theorem get {Q : World → World → Prop} (hw : I w) (h : Q w w) :
    WP I (MonadState.get : Eval World) w Q E :=
  ⟨hw, hw, h⟩

theorem set {Q : PUnit → World → Prop} {v : World} (hw : I w) (hv : I v) (h : Q ⟨⟩ v) :
    WP I (MonadStateOf.set v : Eval PUnit) w Q E :=
  ⟨hw, hv, h⟩

theorem modify {Q : PUnit → World → Prop} {f : World → World} (hw : I w) (hf : I (f w))
    (h : Q ⟨⟩ (f w)) : WP I (modify f : Eval PUnit) w Q E :=
  ⟨hw, hf, h⟩

theorem store {Q : Store → World → Prop} (hw : I w) (h : Q w.store w) :
    WP I Eval.store w Q E :=
  bind (get hw (pure hw h))

theorem modifyStore {Q : Unit → World → Prop} {f : Store → Store} (hw : I w)
    (hf : I { w with store := f w.store }) (h : Q () { w with store := f w.store }) :
    WP I (Eval.modifyStore f) w Q E :=
  modify hw hf h

theorem newFrame {Q : FrameId → World → Prop} {outer : FrameId} (hw : I w)
    (hf : I { w with store := (w.store.push (some outer)).2 })
    (h : Q w.store.frames.size { w with store := (w.store.push (some outer)).2 }) :
    WP I (Eval.newFrame outer) w Q E :=
  ⟨hw, hf, h⟩

theorem fail {fault : RuntimeFault} {span : Option Span} (hw : I w)
    (h : E (.error ⟨fault, span⟩) w) : WP I (Eval.fail fault span : Eval α) w Q E :=
  throw hw h

end WP

end Eval

end Sigil
