import Mathlib.Tactic.SplitIfs
import Sigil.Store

/-!
# Frames and what is found from them

What the operations on the store do to the frames around a place and to what
is found there. A new frame leaves the frames around all others as they were
(`chain_push_of_lt`) and has those of its outer frame around it
(`chain_push_self`); definitions and assignments change no frame's place
(`chain_define`, `chain_assign`) and only the slot that they write
(`slotIn?_define`, `slotIn?_assign`). So a name that is found from a frame is found from it ever
after (`Store.Extends`).

What is said of all frames is proved from the outermost ones inwards
(`outer_induction`).
-/

namespace Sigil.Store

variable {s t : Store} {f g : FrameId} {name : String} {slot : Slot}

/-! ## The frames around a place -/

theorem chain_of_none (h : s.outer? f = none) : s.chain f = [f] := by
  rw [chain]
  split
  · rfl
  · simp_all

theorem chain_of_some (h : s.outer? f = some g) : s.chain f = f :: s.chain g := by
  rw [chain]
  split
  · simp_all
  · next o ho => rw [Option.some.inj (h.symm.trans ho)]

theorem mem_chain_self : f ∈ s.chain f := by
  cases ho : s.outer? f with
  | none =>
    rw [chain_of_none ho]
    exact List.mem_cons_self
  | some g =>
    rw [chain_of_some ho]
    exact List.mem_cons_self

/-- The outer frame of a frame was made before it. -/
theorem outer?_lt (h : s.outer? f = some g) : g < f := by
  simp only [outer?, Option.filter_eq_some_iff, decide_eq_true_eq] at h
  exact h.2

/-- A frame that has an outer frame was made. -/
theorem lt_of_outer? (h : s.outer? f = some g) : f < s.frames.size := by
  simp only [outer?, Option.filter_eq_some_iff] at h
  obtain ⟨frame, hf, -⟩ := Option.bind_eq_some_iff.mp h.1
  exact (Array.getElem?_eq_some_iff.mp hf).1

/-- A frame that has a name was made. -/
theorem lt_of_slotIn? (h : s.slotIn? f name = some slot) : f < s.frames.size := by
  obtain ⟨frame, hf, -⟩ := Option.bind_eq_some_iff.mp h
  exact (Array.getElem?_eq_some_iff.mp hf).1

/-- What holds of all frames that lie within no other one, and of a frame if it holds of the one
around it, holds of all frames. -/
@[elab_as_elim]
theorem outer_induction {motive : FrameId → Prop} (s : Store)
    (root : ∀ f, s.outer? f = none → motive f)
    (inner : ∀ f o, s.outer? f = some o → motive o → motive f) (f : FrameId) : motive f := by
  induction f using Nat.strongRecOn with
  | ind f ih =>
    cases ho : s.outer? f with
    | none => exact root f ho
    | some o => exact inner f o ho (ih o (outer?_lt ho))

/-- The frames around a place depend on the links of the frames up to there alone. -/
theorem chain_congr (h : ∀ g ≤ f, s.outer? g = t.outer? g) : s.chain f = t.chain f := by
  induction f using s.outer_induction with
  | root f ho =>
    have here := h f (Nat.le_refl f)
    rw [chain_of_none ho, chain_of_none (here ▸ ho)]
  | inner f o ho ih =>
    have here := h f (Nat.le_refl f)
    have outside := ih fun g hg => h g (Nat.le_trans hg (Nat.le_of_lt (outer?_lt ho)))
    rw [chain_of_some ho, chain_of_some (s := t) (here ▸ ho), outside]

theorem le_of_mem_chain (h : g ∈ s.chain f) : g ≤ f := by
  induction f using s.outer_induction with
  | root f ho =>
    rw [chain_of_none ho, List.mem_singleton] at h
    exact Nat.le_of_eq h
  | inner f o ho ih =>
    rw [chain_of_some ho, List.mem_cons] at h
    rcases h with rfl | h
    · exact Nat.le_refl g
    · exact Nat.le_trans (ih h) (Nat.le_of_lt (outer?_lt ho))

/-- Frames lie within frames that were made before them. -/
theorem pairwise_chain (s : Store) (f : FrameId) : (s.chain f).Pairwise (· > ·) := by
  induction f using s.outer_induction with
  | root f ho =>
    rw [chain_of_none ho]
    exact List.pairwise_singleton _ f
  | inner f o ho ih =>
    rw [chain_of_some ho]
    exact .cons (fun g hg => Nat.lt_of_le_of_lt (le_of_mem_chain hg) (outer?_lt ho)) ih

theorem chain_eq_cons (s : Store) (f : FrameId) : ∃ gs, s.chain f = f :: gs := by
  cases ho : s.outer? f with
  | none => exact ⟨[], chain_of_none ho⟩
  | some o => exact ⟨s.chain o, chain_of_some ho⟩

/-! ## New frames -/

theorem outer?_push_of_lt (outer : Option FrameId) (hf : f < s.frames.size) :
    (s.push outer).2.outer? f = s.outer? f := by
  rw [outer?, getElem?_push s outer hf, outer?]

theorem outer?_push_self (outer : FrameId) (h : outer < s.frames.size) :
    (s.push (some outer)).2.outer? s.frames.size = some outer := by
  simp [outer?, push, h]

theorem chain_push_of_lt (outer : Option FrameId) (hf : f < s.frames.size) :
    (s.push outer).2.chain f = s.chain f :=
  chain_congr fun _ hg => outer?_push_of_lt outer (Nat.lt_of_le_of_lt hg hf)

theorem chain_push_self (h : f < s.frames.size) :
    (s.push (some f)).2.chain s.frames.size = s.frames.size :: s.chain f := by
  rw [chain_of_some (outer?_push_self f h), chain_push_of_lt _ h]

/-- A new frame has no names. -/
theorem slotIn?_push (outer : Option FrameId) (f : FrameId) (name : String) :
    (s.push outer).2.slotIn? f name = s.slotIn? f name := by
  simp only [slotIn?, push, Array.getElem?_push]
  split_ifs with h
  · simp [h]
  · rfl

/-! ## Definitions -/

theorem outer?_define (f : FrameId) (name : String) (slot : Slot) (g : FrameId) :
    (s.define f name slot).outer? g = s.outer? g := by
  simp only [outer?, define, Array.getElem?_modify]
  split_ifs
  · cases s.frames[g]? <;> rfl
  · rfl

theorem chain_define (f : FrameId) (name : String) (slot : Slot) (g : FrameId) :
    (s.define f name slot).chain g = s.chain g :=
  chain_congr fun h _ => outer?_define f name slot h

theorem slotIn?_define (f : FrameId) (name : String) (slot : Slot) (g : FrameId) (other : String) :
    (s.define f name slot).slotIn? g other =
      if f = g ∧ name = other ∧ g < s.frames.size then some slot else s.slotIn? g other := by
  simp only [slotIn?, define, Array.getElem?_modify]
  by_cases hfg : f = g
  · subst hfg
    by_cases hf : f < s.frames.size
    · simp [hf, Names.get?_insert]
    · simp [hf]
  · simp [hfg]

/-! ## Assignments -/

theorem assign_of_find? {v : Value} (hg : s.find? f name = some g)
    (hs : s.slotIn? g name = some slot) :
    s.assign f name v = s.define g name { slot with value := v } := by
  simp only [assign, hg, hs]

theorem assign_of_none {v : Value} (h : s.find? f name = none) : s.assign f name v = s := by
  simp only [assign, h]

/-- A name that is found is one that the frame where it is found has. -/
theorem slotIn?_of_find? (h : s.find? f name = some g) : ∃ slot, s.slotIn? g name = some slot :=
  Option.isSome_iff_exists.mp (List.find?_some (p := fun g => (s.slotIn? g name).isSome) h)

/-- An assignment to a name that is found writes its slot. -/
theorem assign_cases (s : Store) (f : FrameId) (name : String) (v : Value) :
    (s.find? f name = none ∧ s.assign f name v = s) ∨
      ∃ g slot, s.find? f name = some g ∧ s.slotIn? g name = some slot ∧
        s.assign f name v = s.define g name { slot with value := v } := by
  cases hg : s.find? f name with
  | none => exact .inl ⟨rfl, assign_of_none hg⟩
  | some g =>
    obtain ⟨slot, hs⟩ := slotIn?_of_find? hg
    exact .inr ⟨g, slot, rfl, hs, assign_of_find? hg hs⟩

/-- An assignment writes the slot that it finds, and no other. -/
theorem slotIn?_assign (s : Store) (f : FrameId) (name : String) (v : Value) (g : FrameId)
    (other : String) :
    (s.assign f name v).slotIn? g other =
      if other = name ∧ s.find? f name = some g then
        (s.slotIn? g other).map fun slot => { slot with value := v }
      else s.slotIn? g other := by
  rcases assign_cases s f name v with ⟨none, same⟩ | ⟨h, slot, hfind, hslot, written⟩
  · rw [same, none, if_neg (by simp)]
  · have made : h < s.frames.size := lt_of_slotIn? hslot
    rw [written, slotIn?_define, hfind]
    by_cases here : h = g ∧ name = other
    · obtain ⟨rfl, rfl⟩ := here
      rw [if_pos ⟨rfl, rfl, made⟩, if_pos ⟨rfl, rfl⟩, hslot]
      rfl
    · rw [if_neg fun k => here ⟨k.1, k.2.1⟩,
        if_neg fun k => here ⟨Option.some.inj k.2, k.1.symm⟩]

theorem chain_assign (f : FrameId) (name : String) (v : Value) (g : FrameId) :
    (s.assign f name v).chain g = s.chain g := by
  rcases assign_cases s f name v with ⟨-, e⟩ | ⟨h, slot, -, -, e⟩
  · rw [e]
  · rw [e, chain_define]

/-- All frames are still there, within the same frames. -/
structure Keeps (s t : Store) : Prop where
  size : s.frames.size ≤ t.frames.size
  chain : ∀ f < s.frames.size, t.chain f = s.chain f

theorem Keeps.refl (s : Store) : s.Keeps s := ⟨Nat.le_refl _, fun _ _ => rfl⟩

theorem Keeps.trans {u : Store} (h : s.Keeps t) (k : t.Keeps u) : s.Keeps u :=
  ⟨Nat.le_trans h.size k.size,
    fun f hf => (k.chain f (Nat.lt_of_lt_of_le hf h.size)).trans (h.chain f hf)⟩

theorem keeps_push (s : Store) (outer : Option FrameId) : s.Keeps (s.push outer).2 :=
  ⟨by rw [size_push]; exact Nat.le_succ _, fun _ hf => chain_push_of_lt outer hf⟩

theorem keeps_define (s : Store) (f : FrameId) (name : String) (slot : Slot) :
    s.Keeps (s.define f name slot) :=
  ⟨Nat.le_of_eq (size_define s f name slot).symm, fun g _ => chain_define f name slot g⟩

theorem keeps_assign (s : Store) (f : FrameId) (name : String) (v : Value) :
    s.Keeps (s.assign f name v) := by
  rcases assign_cases s f name v with ⟨-, e⟩ | ⟨g, slot, -, -, e⟩
  · rw [e]
    exact Keeps.refl s
  · rw [e]
    exact keeps_define s g name _

/-! ## Names that are found -/

theorem find?_isSome_iff :
    (s.find? f name).isSome ↔ ∃ g ∈ s.chain f, (s.slotIn? g name).isSome := by
  rw [find?, List.find?_isSome]

/-- Where a name is found depends on the frames around a place and on which of them have it. -/
theorem find?_congr (hchain : s.chain f = t.chain f)
    (has : ∀ g, (s.slotIn? g name).isSome = (t.slotIn? g name).isSome) :
    s.find? f name = t.find? f name := by
  simp only [find?, hchain, has]

/-- Names are found in the same frames after an assignment. -/
theorem find?_assign (s : Store) (f : FrameId) (name : String) (v : Value) (g : FrameId)
    (other : String) : (s.assign f name v).find? g other = s.find? g other := by
  refine find?_congr (chain_assign f name v g) fun h => ?_
  rw [slotIn?_assign]
  split_ifs
  · exact Option.isSome_map
  · rfl

/-- A name that a frame itself has is found in it. -/
theorem find?_of_own (h : (s.slotIn? f name).isSome) : s.find? f name = some f := by
  obtain ⟨gs, hgs⟩ := s.chain_eq_cons f
  rw [find?, hgs]
  exact List.find?_cons_of_pos (p := fun g => (s.slotIn? g name).isSome) h

/-- A name that a frame does not have means there what it means in the frame around it. -/
theorem find?_of_outer (h : s.slotIn? f name = none) (ho : s.outer? f = some g) :
    s.find? f name = s.find? g name := by
  rw [find?, chain_of_some ho, List.find?_cons_of_neg (by simp [h]), find?]

theorem mem_chain_of_find? (h : s.find? f name = some g) : g ∈ s.chain f :=
  List.mem_of_find?_eq_some h

theorem lookup?_isSome (h : (s.find? f name).isSome) : (s.lookup? f name).isSome := by
  obtain ⟨g, hg⟩ := Option.isSome_iff_exists.mp h
  obtain ⟨slot, hs⟩ := slotIn?_of_find? hg
  simp [lookup?, slot?, hg, hs]

/-- A value that a name means stands in a slot. -/
theorem slotIn?_of_lookup? {v : Value} (h : s.lookup? f name = some v) :
    ∃ g slot, s.slotIn? g name = some slot ∧ slot.value = v := by
  obtain ⟨slot, hs, hv⟩ := Option.map_eq_some_iff.mp h
  obtain ⟨g, -, hg⟩ := Option.bind_eq_some_iff.mp hs
  exact ⟨g, slot, hg, hv⟩

/-- A value is found exactly where a frame is. -/
theorem lookup?_isSome_iff : (s.lookup? f name).isSome ↔ (s.find? f name).isSome := by
  refine ⟨fun h => ?_, lookup?_isSome⟩
  rw [lookup?, Option.isSome_map] at h
  exact Option.isSome_of_isSome_bind h

/-- A frame from which a name is found was made. -/
theorem lt_of_find? (h : (s.find? f name).isSome) : f < s.frames.size := by
  obtain ⟨g, hg, hs⟩ := find?_isSome_iff.mp h
  cases ho : s.outer? f with
  | some o => exact lt_of_outer? ho
  | none =>
    rw [chain_of_none ho, List.mem_singleton] at hg
    obtain ⟨slot, hs⟩ := Option.isSome_iff_exists.mp hs
    exact lt_of_slotIn? (hg ▸ hs)

/-- All frames are still there, and every name that is found from a frame is still found from
it. -/
structure Extends (s t : Store) : Prop where
  size : s.frames.size ≤ t.frames.size
  found : ∀ f name, (s.find? f name).isSome → (t.find? f name).isSome

theorem Extends.refl (s : Store) : s.Extends s := ⟨Nat.le_refl _, fun _ _ h => h⟩

theorem Extends.trans {u : Store} (h : s.Extends t) (k : t.Extends u) : s.Extends u :=
  ⟨Nat.le_trans h.size k.size, fun f name hs => k.found f name (h.found f name hs)⟩

theorem extends_push (s : Store) (outer : Option FrameId) : s.Extends (s.push outer).2 := by
  refine ⟨by rw [size_push]; exact Nat.le_succ _, fun f name h => ?_⟩
  have hf := lt_of_find? h
  obtain ⟨g, hg, hs⟩ := find?_isSome_iff.mp h
  refine find?_isSome_iff.mpr ⟨g, chain_push_of_lt outer hf ▸ hg, ?_⟩
  rw [slotIn?_push]
  exact hs

theorem extends_define (s : Store) (f : FrameId) (name : String) (slot : Slot) :
    s.Extends (s.define f name slot) := by
  refine ⟨Nat.le_of_eq (size_define s f name slot).symm, fun g other h => ?_⟩
  obtain ⟨h, hg, hs⟩ := find?_isSome_iff.mp h
  refine find?_isSome_iff.mpr ⟨h, (chain_define f name slot g).symm ▸ hg, ?_⟩
  rw [slotIn?_define]
  split_ifs
  · rfl
  · exact hs

theorem extends_assign (s : Store) (f : FrameId) (name : String) (v : Value) :
    s.Extends (s.assign f name v) :=
  ⟨(keeps_assign s f name v).size, fun g other h => by rw [find?_assign]; exact h⟩

/-- A name that was defined in a frame is found from it. -/
theorem find?_define (hf : f < s.frames.size) : ((s.define f name slot).find? f name).isSome := by
  refine find?_isSome_iff.mpr ⟨f, mem_chain_self, ?_⟩
  rw [slotIn?_define, if_pos ⟨rfl, rfl, hf⟩]
  rfl

/-- What is found from a frame is found from every frame that is made in it. -/
theorem find?_push_self (h : (s.find? f name).isSome) :
    ((s.push (some f)).2.find? s.frames.size name).isSome := by
  have hf := lt_of_find? h
  obtain ⟨g, hg, hs⟩ := find?_isSome_iff.mp h
  refine find?_isSome_iff.mpr ⟨g, ?_, ?_⟩
  · rw [chain_push_self hf]
    exact List.mem_cons_of_mem _ hg
  · rw [slotIn?_push]
    exact hs

end Sigil.Store
