import Mathlib.Tactic.SplitIfs
import Sigil.Proofs.Ty.Order

/-!
# Bringing types together

The type that several types have in common looks at all of them at once. It is
nevertheless their least upper bound (`Ty.join_below_iff`) in an order of its
own (`Ty.Below`), in which `int` lies below `float` and everything below
`dynamic`. For this reason it depends on nothing but which types there are
(`Ty.join_congr`), and they may be brought together two at a time, in whatever
way (`Ty.Bracketing.join_eq`).

The order is not the one of `Ty.accepts`, which looks into functions and takes
unknown types for anything; but what lies below a type may stand in its place.
-/

namespace Sigil.Ty

variable {s t u : Ty} {ts us : List Ty}

/-! ## The order of what types have in common -/

/-- A type lies below itself, `int` below `float`, and every type below `dynamic`. -/
def Below (t u : Ty) : Prop :=
  t = u ∨ (t = int ∧ u = float) ∨ u = dynamic

theorem below_refl (t : Ty) : t.Below t :=
  .inl rfl

theorem Below.antisymm (h : t.Below u) (k : u.Below t) : t = u := by
  rcases h with rfl | ⟨rfl, rfl⟩ | rfl
  · rfl
  · rcases k with h | ⟨h, -⟩ | h <;> cases h
  · rcases k with rfl | ⟨h, -⟩ | rfl
    · rfl
    · cases h
    · rfl

theorem dynamic_below_iff : dynamic.Below u ↔ u = dynamic := by
  constructor
  · rintro (rfl | ⟨h, -⟩ | rfl)
    · rfl
    · cases h
    · rfl
  · rintro rfl
    exact below_refl _

theorem float_below_iff : float.Below u ↔ u = float ∨ u = dynamic := by
  constructor
  · rintro (rfl | ⟨h, -⟩ | rfl)
    · exact .inl rfl
    · cases h
    · exact .inr rfl
  · rintro (rfl | rfl)
    · exact below_refl _
    · exact .inr (.inr rfl)

theorem below_float_iff : t.Below float ↔ t.isNumeric := by
  constructor
  · rintro (rfl | ⟨rfl, -⟩ | h)
    · rfl
    · rfl
    · cases h
  · intro h
    cases t with
    | primitive p =>
      cases p with
      | int => exact .inr (.inl ⟨rfl, rfl⟩)
      | float => exact below_refl _
      | _ => cases h
    | _ => cases h

/-- Only the two types of numbers have others below them than themselves, apart from `dynamic`. -/
theorem Below.cases (h : t.Below u) : t = u ∨ u = float ∨ u = dynamic := by
  rcases h with h | ⟨-, h⟩ | h
  · exact .inl h
  · exact .inr (.inl h)
  · exact .inr (.inr h)

/-- What lies below a type may stand in its place. -/
theorem accepts_of_below (h : t.Below u) : u.accepts t := by
  rcases h with rfl | ⟨rfl, rfl⟩ | rfl
  · exact fits_refl true t
  · rfl
  · exact fits_dynamic_left true t

/-! ## Least upper bounds -/

theorem join_cons (t : Ty) (ts : List Ty) : join (t :: ts) =
    if ∀ s ∈ ts, s = t then t
    else if ∀ s ∈ t :: ts, s.isNumeric then float else dynamic := by
  simp only [join, List.all_eq_true, decide_eq_true_iff]

/-- Of numbers that are not all of one type some are floats. -/
theorem float_mem (numeric : ∀ s ∈ t :: ts, s.isNumeric) (differ : ¬ ∀ s ∈ ts, s = t) :
    float ∈ t :: ts := by
  by_contra absent
  have int_of_mem (s : Ty) (hs : s ∈ t :: ts) : s = int := by
    rcases below_float_iff.mpr (numeric s hs) with rfl | ⟨rfl, -⟩ | h
    · exact absurd hs absent
    · rfl
    · cases h
  refine differ fun s hs => ?_
  rw [int_of_mem s (List.mem_cons_of_mem t hs), int_of_mem t List.mem_cons_self]

/-- The type that several types have in common is the least one above them all. -/
theorem join_below_iff : (join (t :: ts)).Below u ↔ ∀ s ∈ t :: ts, s.Below u := by
  rw [join_cons]
  split_ifs with same numeric
  · constructor
    · intro h s hs
      rcases List.mem_cons.mp hs with rfl | hs
      · exact h
      · exact same s hs ▸ h
    · intro h
      exact h t List.mem_cons_self
  · constructor
    · intro h s hs
      rcases float_below_iff.mp h with rfl | rfl
      · exact below_float_iff.mpr (numeric s hs)
      · exact .inr (.inr rfl)
    · intro h
      exact h float (float_mem numeric same)
  · rw [dynamic_below_iff]
    constructor
    · rintro rfl s -
      exact .inr (.inr rfl)
    · intro h
      rcases (h t List.mem_cons_self).cases with rfl | rfl | top
      · -- Everything lies below the first type, but not everything is that type.
        push Not at same
        obtain ⟨s, hs, other⟩ := same
        rcases (h s (List.mem_cons_of_mem t hs)).cases with e | rfl | top
        · exact absurd e other
        · exact absurd (fun s hs => below_float_iff.mp (h s hs)) numeric
        · exact top
      · exact absurd (fun s hs => below_float_iff.mp (h s hs)) numeric
      · exact top

theorem below_join (h : s ∈ t :: ts) : s.Below (join (t :: ts)) :=
  join_below_iff.mp (below_refl _) s h

/-- Types are told by what lies above them. -/
theorem eq_of_below_iff (h : ∀ v, t.Below v ↔ u.Below v) : t = u :=
  Below.antisymm ((h u).mpr (below_refl u)) ((h t).mp (below_refl t))

/-- What types have in common is a matter of which types there are. -/
theorem join_congr (h : ∀ s, s ∈ us ↔ s ∈ t :: ts) : join us = join (t :: ts) := by
  cases us with
  | nil => exact absurd ((h t).mpr List.mem_cons_self) List.not_mem_nil
  | cons u us => exact eq_of_below_iff fun v => by simp only [join_below_iff, h]

/-- What was brought together before counts as its parts. -/
theorem join_join_cons (t : Ty) (ts us : List Ty) :
    join (join (t :: ts) :: us) = join (t :: (ts ++ us)) :=
  eq_of_below_iff fun v => by
    rw [join_below_iff, join_below_iff, List.forall_mem_cons, join_below_iff, ← List.cons_append,
      List.forall_mem_append]

/-! ## Two at a time -/

/-- A way to bring types together two at a time. -/
inductive Bracketing where
  | one (t : Ty)
  | both (left right : Bracketing)

namespace Bracketing

/-- The types that are brought together. -/
def types : Bracketing → List Ty
  | one t => [t]
  | both left right => left.types ++ right.types

/-- What the types have in common, found two at a time. -/
def join : Bracketing → Ty
  | one t => t
  | both left right => Ty.join [left.join, right.join]

theorem join_below_iff (b : Bracketing) : b.join.Below u ↔ ∀ t ∈ b.types, t.Below u := by
  induction b with
  | one t => rw [join, types, List.forall_mem_singleton]
  | both left right ihl ihr =>
    rw [join, Ty.join_below_iff, types, List.forall_mem_append, List.forall_mem_cons,
      List.forall_mem_singleton, ihl, ihr]

/-- It makes no difference in which order types are brought together two at a time, nor how
often one of them occurs. -/
theorem join_eq (b : Bracketing) (h : ∀ s, s ∈ b.types ↔ s ∈ t :: ts) :
    b.join = Ty.join (t :: ts) :=
  eq_of_below_iff fun v => by simp only [b.join_below_iff, Ty.join_below_iff, h]

end Bracketing

end Sigil.Ty
