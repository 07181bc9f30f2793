import Mathlib.Data.List.Nodup
import Mathlib.Tactic.SplitIfs
import Sigil.Proofs.Store.Frames
import Sigil.Proofs.Store.Relabelled

/-!
# Frames that are shared

Many frames may lie within one: those of blocks, and those of all calls of the
closures that were made in it. So one slot is found from many places, and
shadowing decides anew at each place which one a name means. An assignment
writes the one slot that it finds (`slotIn?_assign`) and moves no name
(`shape_assign`); its value is seen from the places where the name is found in
the same frame, and nothing else is seen to change (`lookup?_assign`). This is
how calls of closures see what others of the same frame do (`calls_share`).

What is seen from a place is listed by `Store.names` frame by frame
(`names_of_some`): each name once, innermost first (`sees_names`).
-/

namespace Sigil

/-! ## Lists without repetitions -/

section

variable {α : Type} [BEq α] [LawfulBEq α]

/-- The first occurrences among some elements of a list are those of the list. -/
theorem eraseDups_filter (p : α → Bool) (l : List α) :
    (l.filter p).eraseDups = l.eraseDups.filter p := by
  induction l generalizing p with
  | nil => rfl
  | cons a l ih =>
    by_cases h : p a
    · rw [List.filter_cons_of_pos h, List.eraseDups_cons, List.eraseDups_cons,
        List.filter_cons_of_pos h, List.filter_filter, ih, ih, ← List.filter_filter,
        List.filter_comm]
    · rw [List.filter_cons_of_neg h, List.eraseDups_cons, List.filter_cons_of_neg h, ih, ih,
        List.filter_filter]
      refine List.filter_congr fun b _ => ?_
      by_cases e : b = a
      · simp [e, h]
      · simp [e]

theorem nodup_eraseDups (l : List α) : l.eraseDups.Nodup := by
  induction l with
  | nil => exact .nil
  | cons a l ih =>
    rw [List.eraseDups_cons, eraseDups_filter, List.nodup_cons]
    exact ⟨by simp, ih.filter _⟩

theorem eraseDups_sublist (l : List α) : l.eraseDups.Sublist l := by
  induction l with
  | nil => exact .slnil
  | cons a l ih =>
    rw [List.eraseDups_cons, eraseDups_filter]
    exact .cons_cons a (List.filter_sublist.trans ih)

end

/-! ## Shapes -/

/-- What was put in for a name may be put in again. -/
theorem Names.insert_of_get? {α : Type} {t : Names α} {name : String} {a : α}
    (h : t.get? name = some a) : t.insert name a = t := by
  induction t with
  | nil => cases h
  | cons p t ih =>
    obtain ⟨n, b⟩ := p
    by_cases e : n = name
    · simp only [Names.get?, if_pos e, Option.some.injEq] at h
      simp only [Names.insert, if_pos e, h]
    · simp only [Names.get?, if_neg e] at h
      simp only [Names.insert, if_neg e, ih h]

/-- A frame without the values in it: the frame that it lies within, and its names in order with the
types declared for them. -/
def Frame.shape (frame : Frame) : Option FrameId × Names (Option Ty) :=
  (frame.outer, frame.slots.mapValues (·.declared))

/-- Another value for a name, of which the type declared for it stays. -/
theorem Frame.shape_insert {frame : Frame} {name : String} {slot : Slot} (v : Value)
    (h : frame.slots.get? name = some slot) :
    Frame.shape { frame with slots := frame.slots.insert name { slot with value := v } } =
      frame.shape := by
  have declared : (frame.slots.mapValues (·.declared)).get? name = some slot.declared := by
    rw [Names.get?_mapValues, h]
    rfl
  simp only [Frame.shape, Names.mapValues_insert, Names.insert_of_get? declared]

namespace Store

variable {s : Store} {e f g : FrameId} {name other : String}

theorem mem_ownNames_iff : name ∈ s.ownNames f ↔ (s.slotIn? f name).isSome := by
  unfold ownNames slotIn?
  cases s.frames[f]? with
  | none => simp
  | some frame => exact Names.mem_keys_iff frame.slots name

/-! ## Assignments -/

theorem slot?_assign (s : Store) (e : FrameId) (name : String) (v : Value) (f : FrameId)
    (other : String) :
    (s.assign e name v).slot? f other =
      if other = name ∧ s.find? f name = s.find? e name then
        (s.slot? f other).map fun slot => { slot with value := v }
      else s.slot? f other := by
  unfold slot?
  rw [find?_assign]
  cases hf : s.find? f other with
  | none => simp
  | some g =>
    simp only [Option.bind_some, slotIn?_assign]
    refine if_congr (and_congr_right fun hname => ?_) rfl rfl
    rw [← hname, hf, eq_comm]

/-- The value of an assignment is seen from the places where the name is found in the same frame;
at all others, and for all other names, what was seen before is still seen. -/
theorem lookup?_assign (s : Store) (e : FrameId) (name : String) (v : Value) (f : FrameId)
    (other : String) :
    (s.assign e name v).lookup? f other =
      if other = name ∧ s.find? f name = s.find? e name then (s.lookup? f other).map fun _ => v
      else s.lookup? f other := by
  unfold lookup?
  rw [slot?_assign]
  split_ifs
  · rw [Option.map_map, Option.map_map]
    rfl
  · rfl

/-- An assignment changes nothing in a frame but values. -/
theorem shape_assign (s : Store) (e : FrameId) (name : String) (v : Value) (f : FrameId) :
    (s.assign e name v).frames[f]?.map Frame.shape = s.frames[f]?.map Frame.shape := by
  rcases assign_cases s e name v with ⟨-, same⟩ | ⟨g, slot, -, hslot, written⟩
  · rw [same]
  · rw [written]
    by_cases here : g = f
    · subst here
      obtain ⟨frame, hframe, hget⟩ := Option.bind_eq_some_iff.mp hslot
      simp only [define, Array.getElem?_modify, if_true, hframe, Option.map_some,
        Frame.shape_insert v hget]
    · rw [getElem?_define s name _ here]

/-- From two frames within one, such as those of two calls of closures that were made in it, each
other's assignments are seen, if neither has the name itself. -/
theorem calls_share {v : Value} (he : s.outer? e = some g) (hf : s.outer? f = some g)
    (neither : s.slotIn? e name = none ∧ s.slotIn? f name = none)
    (found : (s.find? g name).isSome) :
    (s.assign e name v).lookup? f name = some v := by
  have fromCaller : s.find? e name = s.find? g name := find?_of_outer neither.1 he
  have fromOther : s.find? f name = s.find? g name := find?_of_outer neither.2 hf
  obtain ⟨old, hold⟩ := Option.isSome_iff_exists.mp (lookup?_isSome (fromOther ▸ found))
  rw [lookup?_assign, if_pos ⟨rfl, fromOther.trans fromCaller.symm⟩, hold]
  rfl

/-! ## The names that are seen -/

theorem names_of_none (h : s.outer? f = none) : s.names f = (s.ownNames f).eraseDups := by
  rw [names, chain_of_none h, List.flatMap_singleton]

/-- Behind the names of a frame itself come those that are seen from the frame around it, but for
the ones that it has. -/
theorem names_of_some (h : s.outer? f = some g) :
    s.names f = (s.ownNames f).eraseDups ++ (s.names g).filter (· ∉ s.ownNames f) := by
  rw [names, chain_of_some h, List.flatMap_cons, List.eraseDups_append, names, ← eraseDups_filter]
  congr 2
  refine List.filter_congr fun n _ => ?_
  simp

/-- From a place, one name is found in the same frame as another or further in. -/
def Precedes (s : Store) (f : FrameId) (a b : String) : Prop :=
  ∃ g h, s.find? f a = some g ∧ s.find? f b = some h ∧ h ∈ s.chain g

/-- The names that mean something at a place: each once, inner frames first, and the names of one
frame in its order. -/
structure Sees (s : Store) (f : FrameId) (names : List String) : Prop where
  nodup : names.Nodup
  mem_iff : ∀ name, name ∈ names ↔ (s.lookup? f name).isSome
  inward : names.Pairwise (s.Precedes f)
  ordered : ∀ g, (names.filter (s.find? f · = some g)).Sublist (s.ownNames g)

theorem find?_of_mem (h : name ∈ s.ownNames f) : s.find? f name = some f :=
  find?_of_own (mem_ownNames_iff.mp h)

theorem find?_of_not_mem (ho : s.outer? f = some g) (h : name ∉ s.ownNames f) :
    s.find? f name = s.find? g name :=
  find?_of_outer (Option.not_isSome_iff_eq_none.mp (mt mem_ownNames_iff.mpr h)) ho

theorem mem_names_iff : name ∈ s.names f ↔ (s.lookup? f name).isSome := by
  rw [lookup?_isSome_iff, find?_isSome_iff, names, List.mem_eraseDups, List.mem_flatMap]
  exact exists_congr fun g => and_congr_right fun _ => mem_ownNames_iff

/-- What is left of the names that the frame around a frame sees is found from both in one place. -/
theorem mem_filter_names (ho : s.outer? f = some g)
    (h : name ∈ (s.names g).filter (· ∉ s.ownNames f)) :
    name ∈ s.names g ∧ s.find? f name = s.find? g name := by
  obtain ⟨mem, own⟩ := List.mem_filter.mp h
  exact ⟨mem, find?_of_not_mem ho (of_decide_eq_true own)⟩

theorem pairwise_ownNames (s : Store) (f : FrameId) :
    (s.ownNames f).eraseDups.Pairwise (s.Precedes f) := by
  refine List.pairwise_of_forall_mem_list fun a ha b hb => ?_
  exact ⟨f, f, find?_of_mem (List.mem_eraseDups.mp ha), find?_of_mem (List.mem_eraseDups.mp hb),
    mem_chain_self⟩

theorem pairwise_names (s : Store) (f : FrameId) : (s.names f).Pairwise (s.Precedes f) := by
  induction f using s.outer_induction with
  | root f ho =>
    rw [names_of_none ho]
    exact pairwise_ownNames s f
  | inner f o ho ih =>
    rw [names_of_some ho, List.pairwise_append]
    refine ⟨pairwise_ownNames s f, (ih.filter _).imp_of_mem ?_, fun a ha b hb => ?_⟩
    · rintro a b ha hb ⟨g, h, hg, hh, around⟩
      exact ⟨g, h, (mem_filter_names ho ha).2.trans hg, (mem_filter_names ho hb).2.trans hh, around⟩
    · obtain ⟨mem, same⟩ := mem_filter_names ho hb
      obtain ⟨h, hh⟩ := Option.isSome_iff_exists.mp (lookup?_isSome_iff.mp (mem_names_iff.mp mem))
      refine ⟨f, h, find?_of_mem (List.mem_eraseDups.mp ha), same.trans hh, ?_⟩
      rw [chain_of_some ho]
      exact List.mem_cons_of_mem _ (mem_chain_of_find? hh)

/-- No name that a frame itself has is found in another one from there. -/
theorem filter_ownNames_of_ne (h : f ≠ g) :
    (s.ownNames f).eraseDups.filter (s.find? f · = some g) = [] := by
  refine List.filter_eq_nil_iff.mpr fun n hn => ?_
  simp [find?_of_mem (List.mem_eraseDups.mp hn), h]

theorem names_ordered (s : Store) (f g : FrameId) :
    ((s.names f).filter (s.find? f · = some g)).Sublist (s.ownNames g) := by
  have own : ((s.ownNames g).eraseDups.filter (s.find? g · = some g)).Sublist (s.ownNames g) :=
    List.filter_sublist.trans (eraseDups_sublist _)
  induction f using s.outer_induction with
  | root f ho =>
    rw [names_of_none ho]
    by_cases here : f = g
    · exact here ▸ own
    · rw [filter_ownNames_of_ne here]
      exact List.nil_sublist _
  | inner f o ho ih =>
    rw [names_of_some ho, List.filter_append]
    by_cases here : f = g
    · subst here
      -- what is seen through the frame around `f` is not found in `f`
      have rest : ((s.names o).filter (· ∉ s.ownNames f)).filter (s.find? f · = some f) = [] := by
        refine List.filter_eq_nil_iff.mpr fun n hn found => ?_
        have inside : s.find? o n = some f :=
          (mem_filter_names ho hn).2.symm.trans (of_decide_eq_true found)
        exact Nat.not_lt_of_le (le_of_mem_chain (mem_chain_of_find? inside)) (outer?_lt ho)
      rw [rest, List.append_nil]
      exact own
    · have rest : ((s.names o).filter (· ∉ s.ownNames f)).filter (s.find? f · = some g) =
          ((s.names o).filter (· ∉ s.ownNames f)).filter (s.find? o · = some g) :=
        List.filter_congr fun n hn => by rw [(mem_filter_names ho hn).2]
      rw [filter_ownNames_of_ne here, List.nil_append, rest, List.filter_comm]
      exact List.filter_sublist.trans ih

/-- What is listed for a place is what is seen from it. -/
theorem sees_names (s : Store) (f : FrameId) : s.Sees f (s.names f) where
  nodup := nodup_eraseDups _
  mem_iff _ := mem_names_iff
  inward := pairwise_names s f
  ordered := names_ordered s f

/-! ## Shared frames -/

/-- An assignment that finds the name, through frames that are shared in whatever way: its value is
seen from the places where the name is found in the frame in which it was found for the assignment,
and all else is seen as before; all names of all frames stay in their order, with the types declared
for them. In every store, what is listed for a place is what is seen from it. -/
theorem assign_shared (s : Store) :
    (∀ (e : FrameId) (name : String) (v : Value), (s.slot? e name).isSome →
      (∀ (f : FrameId) (other : String), (s.assign e name v).lookup? f other =
        if other = name ∧ (s.assign e name v).find? f name = s.find? e name then some v
        else s.lookup? f other) ∧
      ∀ f : FrameId,
        (s.assign e name v).frames[f]?.map Frame.shape = s.frames[f]?.map Frame.shape) ∧
    ∀ f, s.Sees f (s.names f) := by
  refine ⟨fun e name v found => ⟨fun f other => ?_, shape_assign s e name v⟩, sees_names s⟩
  rw [lookup?_assign, find?_assign]
  split_ifs with same
  · obtain ⟨rfl, here⟩ := same
    have seen : (s.lookup? f other).isSome := by
      rw [lookup?_isSome_iff, here]
      exact Option.isSome_of_isSome_bind found
    obtain ⟨old, hold⟩ := Option.isSome_iff_exists.mp seen
    rw [hold, Option.map_some]
  · rfl

/-- Two calls, in the frames 2 and 3, of closures that were made in the frame 1, where a name of the
root has another value; and a block, in the frame 4. -/
def twoCalls : Store :=
  ⟨#[⟨[("n", ⟨.int 1, some .int⟩), ("k", ⟨.string "a", none⟩)], none⟩,
    ⟨[("n", ⟨.int 2, some .int⟩)], some 0⟩,
    ⟨[("k", ⟨.string "b", none⟩)], some 1⟩,
    ⟨[], some 1⟩,
    ⟨[], some 0⟩]⟩

/-- One call sees what the other assigns, the block does not. -/
theorem assign_shared_twoCalls :
    (twoCalls.slot? 2 "n").isSome ∧
    (twoCalls.assign 2 "n" (.int 5)).lookup? 3 "n" = some (.int 5) ∧
    (twoCalls.assign 2 "n" (.int 5)).lookup? 4 "n" = twoCalls.lookup? 4 "n" ∧
    twoCalls.Sees 2 ["k", "n"] := by
  have found : (twoCalls.slot? 2 "n").isSome := by decide +kernel
  obtain ⟨assigned, seen⟩ := assign_shared twoCalls
  have values := (assigned 2 "n" (.int 5) found).1
  have listed : twoCalls.names 2 = ["k", "n"] := by decide +kernel
  exact ⟨found, (values 3 "n").trans (if_pos (by decide +kernel)),
    (values 4 "n").trans (if_neg (by decide +kernel)), listed ▸ seen 2⟩

end Store

end Sigil
