import Sigil.Proofs.Session.Moments

/-!
# Declared types in the store

A store is well typed (`Store.Typed`) if every slot of every frame holds a
value that fits the type declared for it. New frames, definitions with a
fitting value and assignments of a fitting value keep this, and so does all
that evaluation does (`Store.typed_kept`); so the store of a session is well
typed at all times (`store_typed`).
-/

namespace Sigil

/-- What a table holds for a name is one of its entries. -/
theorem Names.mem_of_get? {α : Type} {t : Names α} {name : String} {a : α}
    (h : t.get? name = some a) : (name, a) ∈ t := by
  induction t with
  | nil => cases h
  | cons p t ih =>
    obtain ⟨n, b⟩ := p
    by_cases e : n = name
    · subst e
      simp only [Names.get?, if_true, Option.some.injEq] at h
      exact h ▸ List.mem_cons_self
    · simp only [Names.get?, if_neg e] at h
      exact List.mem_cons_of_mem _ (ih h)

/-- Putting a name in adds no entry but the one put in. -/
theorem Names.mem_insert {α : Type} {t : Names α} {name : String} {a : α} {p : String × α}
    (h : p ∈ t.insert name a) : p.2 = a ∨ p ∈ t := by
  induction t with
  | nil => exact .inl (congrArg Prod.snd (List.mem_singleton.mp h))
  | cons q t ih =>
    obtain ⟨n, b⟩ := q
    by_cases e : n = name
    · simp only [Names.insert, if_pos e, List.mem_cons] at h
      rcases h with rfl | h
      · exact .inl rfl
      · exact .inr (List.mem_cons_of_mem _ h)
    · simp only [Names.insert, if_neg e, List.mem_cons] at h
      rcases h with rfl | h
      · exact .inr List.mem_cons_self
      · exact (ih h).imp_right (List.mem_cons_of_mem _)

/-- Every slot of the frame holds a value of the type declared for it. -/
def Frame.Typed (frame : Frame) : Prop :=
  ∀ entry ∈ frame.slots, entry.2.value.fits entry.2.declared

namespace Store

/-- Every slot of every frame, reachable or not, holds a value of the type declared for it. -/
def Typed (s : Store) : Prop :=
  ∀ frame ∈ s.frames, frame.Typed

theorem typed_empty : empty.Typed := fun _ h => by simp [empty] at h

theorem Typed.push {s : Store} (h : s.Typed) (outer : Option FrameId) :
    (s.push outer).2.Typed := by
  intro frame hf
  rcases Array.mem_push.mp hf with hf | rfl
  · exact h frame hf
  · exact fun _ => nofun

/-- A slot that a well-typed store has for a name is well typed. -/
theorem Typed.slotIn? {s : Store} (h : s.Typed) {f : FrameId} {name : String} {slot : Slot}
    (hs : s.slotIn? f name = some slot) : slot.value.fits slot.declared := by
  obtain ⟨frame, hf, hg⟩ := Option.bind_eq_some_iff.mp hs
  exact h frame (Array.mem_of_getElem? hf) _ (Names.mem_of_get? hg)

theorem Typed.define {s : Store} (h : s.Typed) (f : FrameId) (name : String) {slot : Slot}
    (hs : slot.value.fits slot.declared) : (s.define f name slot).Typed := by
  intro frame hf entry he
  obtain ⟨g, hg⟩ := Array.mem_iff_getElem?.mp hf
  rw [Store.define, Array.getElem?_modify] at hg
  split at hg
  · obtain ⟨old, ho, rfl⟩ := Option.map_eq_some_iff.mp hg
    rcases Names.mem_insert he with e | he
    · exact e ▸ hs
    · exact h old (Array.mem_of_getElem? ho) entry he
  · exact h frame (Array.mem_of_getElem? hg) entry he

theorem Typed.assign {s : Store} (h : s.Typed) (f : FrameId) (name : String) {slot : Slot}
    {v : Value} (hs : s.slot? f name = some slot) (hv : v.fits slot.declared) :
    (s.assign f name v).Typed := by
  obtain ⟨g, hg, hslot⟩ := Option.bind_eq_some_iff.mp hs
  rw [Store.assign, hg]
  dsimp only
  rw [hslot]
  exact h.define g name hv

/-- Evaluation keeps a store well typed. -/
theorem typed_kept : Eval.Kept fun w => w.store.Typed where
  push _ outer h := h.push (some outer)
  define _ f name _ h hs := h.define f name hs
  assign _ f name _ _ h hs hv := h.assign f name hs hv
  call _ _ _ h := h
  closure _ h := h

end Store

theorem World.typed_initial : World.initial.store.Typed :=
  Store.typed_empty.push none

/-- Declared types hold at every moment of every run of a session, in the frames that nothing names
any more as well. -/
theorem store_typed (host : Option Host) (rs : List Session.Request) :
    ∀ w ∈ Session.initial.moments host rs, w.store.Typed :=
  Session.moments_kept host Store.typed_kept rs World.typed_initial

/-- A run in which a type is declared for a value. -/
theorem store_typed_declared :
    ∃ w ∈ Session.initial.moments none [.submit "let $x: Int = 1; $x = 2".toList false],
      (w.store.slotIn? rootFrame "x").any (·.declared = some .int) ∧ w.store.Typed := by
  have h : (Session.initial.moments none [.submit "let $x: Int = 1; $x = 2".toList false]).any
      (fun w => (w.store.slotIn? rootFrame "x").any (·.declared = some .int)) := by
    decide +kernel
  obtain ⟨w, hw, hx⟩ := List.any_eq_true.mp h
  exact ⟨w, hw, hx, store_typed none _ w hw⟩

end Sigil
