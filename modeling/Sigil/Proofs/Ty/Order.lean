import Mathlib.Data.List.Forall2
import Sigil.Ty

/-!
# The order of types

Where one type is required, some others may stand. Among types in which nothing
is dynamic this is an order (`Ty.accepts_order`): `int` lies below `float`, and
the types of functions are ordered by their results, and by their parameters the
other way round (`Ty.accepts_fn`). Dynamic parts go with everything, so that
there is no order any more, but with more of them a type never fits less
(`Ty.fits_of_blurs`).

What is proved by recursion on types is said of `Ty.fits`, for both directions
at once, since they take turns at the parameters.
-/

namespace Sigil.Ty

/-! ## Both directions -/

variable {required : Bool} {s t u s' t' : Ty} {ss ts us : List Ty}

@[simp] theorem fits_dynamic_left (required : Bool) (t : Ty) : fits required .dynamic t = true :=
  rfl

@[simp] theorem fits_unknown_left (required : Bool) (t : Ty) : fits required .unknown t = true :=
  rfl

@[simp] theorem fits_dynamic_right (required : Bool) (t : Ty) :
    fits required t .dynamic = true := by
  cases t <;> rfl

@[simp] theorem fits_unknown_right (required : Bool) (t : Ty) :
    fits required t .unknown = true := by
  cases t <;> rfl

theorem fits_fn {ps qs : List Ty} :
    fits required (.fn ps s) (.fn qs t) ↔ fitsAll (!required) ps qs ∧ fits required s t :=
  Bool.and_eq_true _ _ ▸ Iff.rfl

theorem fitsAll_cons :
    fitsAll required (s :: ss) (t :: ts) ↔ fits required s t ∧ fitsAll required ss ts :=
  Bool.and_eq_true _ _ ▸ Iff.rfl

theorem fitsAll_iff : fitsAll required ss ts ↔ List.Forall₂ (fun s t => fits required s t) ss ts := by
  induction ss generalizing ts with
  | nil => cases ts <;> simp [fitsAll]
  | cons s ss ih =>
    cases ts with
    | nil => simp [fitsAll]
    | cons t ts => rw [fitsAll_cons, ih, List.forall₂_cons]

mutual

/-- It is the same which of two types comes first, as long as it is the same that is required. -/
theorem fits_swap (required : Bool) (s t : Ty) : fits (!required) s t = fits required t s := by
  cases s with
  | dynamic | unknown => simp
  | primitive p =>
    cases t with
    | dynamic | unknown => simp
    | primitive q => cases required <;> cases p <;> cases q <;> rfl
    | fn => simp [fits]
  | fn ps s =>
    cases t with
    | dynamic | unknown => simp
    | primitive => simp [fits]
    | fn qs t => rw [fits, fits, fitsAll_swap (!required) ps qs, fits_swap required s t]

@[inherit_doc fits_swap]
theorem fitsAll_swap (required : Bool) (ss ts : List Ty) :
    fitsAll (!required) ss ts = fitsAll required ts ss := by
  cases ss with
  | nil => cases ts <;> simp [fitsAll]
  | cons s ss =>
    cases ts with
    | nil => simp [fitsAll]
    | cons t ts => rw [fitsAll, fitsAll, fits_swap required s t, fitsAll_swap required ss ts]

end

/-- A function may stand for one whose parameters it takes and whose results it gives. -/
theorem accepts_fn {ps qs : List Ty} :
    (fn ps s).accepts (fn qs t) ↔ List.Forall₂ (fun p q => q.accepts p) ps qs ∧ s.accepts t := by
  have params : fitsAll (!true) ps qs ↔ List.Forall₂ (fun p q => q.accepts p) ps qs := by
    rw [fitsAll_iff]
    simp only [fits_swap, accepts]
  rw [accepts, fits_fn, params, accepts]

/-! ## Types without dynamic parts -/

mutual

/-- Whether nothing in a type is dynamic. -/
def isSharp : Ty → Bool
  | dynamic | unknown => false
  | primitive _ => true
  | fn params returns => areSharp params && returns.isSharp

@[inherit_doc isSharp]
def areSharp : List Ty → Bool
  | [] => true
  | t :: ts => t.isSharp && areSharp ts

end

theorem isSharp_fn {ps : List Ty} : (fn ps t).isSharp ↔ areSharp ps ∧ t.isSharp := by
  rw [isSharp, Bool.and_eq_true]

theorem areSharp_cons : areSharp (t :: ts) ↔ t.isSharp ∧ areSharp ts := by
  rw [areSharp, Bool.and_eq_true]

mutual

theorem fits_refl (required : Bool) (t : Ty) : fits required t t := by
  cases t with
  | dynamic | unknown => simp
  | primitive p => simp [fits]
  | fn ps t => exact fits_fn.mpr ⟨fitsAll_refl (!required) ps, fits_refl required t⟩

theorem fitsAll_refl (required : Bool) (ts : List Ty) : fitsAll required ts ts := by
  cases ts with
  | nil => rfl
  | cons t ts => exact fitsAll_cons.mpr ⟨fits_refl required t, fitsAll_refl required ts⟩

end

/-- Types without parts: the same, or `int` where `float` is required. -/
theorem fits_primitive {p q : Primitive} : fits required (primitive p) (primitive q) ↔
    p = q ∨ if required then p = .float ∧ q = .int else p = .int ∧ q = .float := by
  cases required <;> simp [fits]

mutual

theorem eq_of_fits (required : Bool) (s t : Ty) (hs : s.isSharp) (ht : t.isSharp)
    (h : fits required s t) (k : fits required t s) : s = t := by
  cases s with
  | dynamic | unknown => cases hs
  | primitive p =>
    cases t with
    | dynamic | unknown => cases ht
    | primitive q =>
      rw [fits_primitive] at h k
      cases required <;> cases p <;> cases q <;> simp at h k <;> rfl
    | fn => cases h
  | fn ps s =>
    cases t with
    | dynamic | unknown => cases ht
    | primitive => cases h
    | fn qs t =>
      obtain ⟨sharp, hs⟩ := isSharp_fn.mp hs
      obtain ⟨sharp', ht⟩ := isSharp_fn.mp ht
      obtain ⟨params, h⟩ := fits_fn.mp h
      obtain ⟨params', k⟩ := fits_fn.mp k
      rw [eq_of_fitsAll (!required) ps qs sharp sharp' params params',
        eq_of_fits required s t hs ht h k]

theorem eq_of_fitsAll (required : Bool) (ss ts : List Ty) (hs : areSharp ss) (ht : areSharp ts)
    (h : fitsAll required ss ts) (k : fitsAll required ts ss) : ss = ts := by
  cases ss with
  | nil =>
    cases ts with
    | nil => rfl
    | cons => cases h
  | cons s ss =>
    cases ts with
    | nil => cases h
    | cons t ts =>
      obtain ⟨hs, sharp⟩ := areSharp_cons.mp hs
      obtain ⟨ht, sharp'⟩ := areSharp_cons.mp ht
      obtain ⟨h, rest⟩ := fitsAll_cons.mp h
      obtain ⟨k, rest'⟩ := fitsAll_cons.mp k
      rw [eq_of_fits required s t hs ht h k, eq_of_fitsAll required ss ts sharp sharp' rest rest']

end

mutual

/-- What fits through a type in which nothing is dynamic fits. -/
theorem fits_trans (required : Bool) (s t u : Ty) (ht : t.isSharp) (h : fits required s t)
    (k : fits required t u) : fits required s u := by
  cases t with
  | dynamic | unknown => cases ht
  | primitive q =>
    cases s with
    | dynamic | unknown => simp
    | fn => cases h
    | primitive p =>
      cases u with
      | dynamic | unknown => simp
      | fn => cases k
      | primitive r =>
        rw [fits_primitive] at h k ⊢
        cases required <;> cases p <;> cases q <;> cases r <;> simp at h k ⊢
  | fn qs t =>
    cases s with
    | dynamic | unknown => simp
    | primitive => cases h
    | fn ps s =>
      cases u with
      | dynamic | unknown => simp
      | primitive => cases k
      | fn rs u =>
        obtain ⟨sharp, ht⟩ := isSharp_fn.mp ht
        obtain ⟨params, h⟩ := fits_fn.mp h
        obtain ⟨params', k⟩ := fits_fn.mp k
        exact fits_fn.mpr ⟨fitsAll_trans (!required) ps qs rs sharp params params',
          fits_trans required s t u ht h k⟩

@[inherit_doc fits_trans]
theorem fitsAll_trans (required : Bool) (ss ts us : List Ty) (ht : areSharp ts)
    (h : fitsAll required ss ts) (k : fitsAll required ts us) : fitsAll required ss us := by
  cases ts with
  | nil =>
    cases ss with
    | nil => exact k
    | cons => cases h
  | cons t ts =>
    cases ss with
    | nil => cases h
    | cons s ss =>
      cases us with
      | nil => cases k
      | cons u us =>
        obtain ⟨ht, sharp⟩ := areSharp_cons.mp ht
        obtain ⟨h, rest⟩ := fitsAll_cons.mp h
        obtain ⟨k, rest'⟩ := fitsAll_cons.mp k
        exact fitsAll_cons.mpr ⟨fits_trans required s t u ht h k,
          fitsAll_trans required ss ts us sharp rest rest'⟩

end

/-! ## Types with more dynamic parts -/

mutual

/-- The second type is the first, with dynamic types in the place of some of its parts, or of all of
it. -/
inductive Blurs : Ty → Ty → Prop
  | dynamic (t : Ty) : Blurs t .dynamic
  | unknown (t : Ty) : Blurs t .unknown
  | primitive (p : Primitive) : Blurs (.primitive p) (.primitive p)
  | fn {ps qs : List Ty} {s t : Ty} (params : BlursAll ps qs) (returns : Blurs s t) :
    Blurs (.fn ps s) (.fn qs t)

@[inherit_doc Blurs]
inductive BlursAll : List Ty → List Ty → Prop
  | nil : BlursAll [] []
  | cons {s t : Ty} {ss ts : List Ty} (first : Blurs s t) (rest : BlursAll ss ts) :
    BlursAll (s :: ss) (t :: ts)

end

mutual

/-- With more dynamic parts types still fit. -/
theorem fits_of_blurs (required : Bool) (s : Ty) {s' t t' : Ty} (hs : s.Blurs s') (ht : t.Blurs t')
    (h : fits required s t) : fits required s' t' := by
  cases hs with
  | dynamic | unknown => simp
  | primitive p =>
    cases ht with
    | dynamic | unknown => simp
    | primitive => exact h
    | fn => cases h
  | @fn ps ps' s s' params returns =>
    cases ht with
    | dynamic | unknown => simp
    | primitive => cases h
    | fn params' returns' =>
      obtain ⟨hp, hr⟩ := fits_fn.mp h
      exact fits_fn.mpr ⟨fitsAll_of_blurs (!required) ps params params' hp,
        fits_of_blurs required s returns returns' hr⟩

@[inherit_doc fits_of_blurs]
theorem fitsAll_of_blurs (required : Bool) (ss : List Ty) {ss' ts ts' : List Ty} (hs : BlursAll ss ss')
    (ht : BlursAll ts ts') (h : fitsAll required ss ts) : fitsAll required ss' ts' := by
  cases hs with
  | nil =>
    cases ht with
    | nil => rfl
    | cons => cases h
  | @cons s _ ss _ first rest =>
    cases ht with
    | nil => cases h
    | cons first' rest' =>
      obtain ⟨hf, hr⟩ := fitsAll_cons.mp h
      exact fitsAll_cons.mpr ⟨fits_of_blurs required s first first' hf,
        fitsAll_of_blurs required ss rest rest' hr⟩

end

/-! ## The order -/

/-- Whether a type may stand where another is required is an order of the types in which nothing is
dynamic; between them any type may stand in the middle that is such. Functions are ordered by their
parameters the other way round, and by their results. If some parts of two types are replaced by
dynamic types, what may stand where it is required still may. -/
theorem accepts_order :
    (∀ t : Ty, t.accepts t) ∧
    (∀ s t : Ty, s.isSharp → t.isSharp → s.accepts t → t.accepts s → s = t) ∧
    (∀ s t u : Ty, t.isSharp → s.accepts t → t.accepts u → s.accepts u) ∧
    (∀ (ps qs : List Ty) (s t : Ty), (fn ps s).accepts (fn qs t) ↔
      List.Forall₂ (fun p q => q.accepts p) ps qs ∧ s.accepts t) ∧
    ∀ s s' t t' : Ty, s.Blurs s' → t.Blurs t' → s.accepts t → s'.accepts t' :=
  ⟨fits_refl true, eq_of_fits true, fits_trans true, fun _ _ _ _ => accepts_fn,
    fun s _ _ _ hs ht => fits_of_blurs true s hs ht⟩

/-- Among functions that take functions the order is that of the functions they take, and it goes
one way only. -/
theorem accepts_order_callbacks :
    let s := fn [fn [float] int] unit
    let u := fn [fn [int] float] unit
    s.accepts u ∧ ¬ u.accepts s ∧ s.accepts (fn [fn [dynamic] float] unit) := by
  intro s u
  obtain ⟨-, antisymm, trans, -, blurred⟩ := accepts_order
  have through : s.accepts u := trans s (fn [fn [int] int] unit) u rfl rfl rfl
  refine ⟨through, fun back => ?_, ?_⟩
  · have same := antisymm s u rfl rfl through back
    simp [s, u] at same
  · refine blurred s s u _ ?_ ?_ through
    · exact .fn (.cons (.fn (.cons (.primitive _) .nil) (.primitive _)) .nil) (.primitive _)
    · exact .fn (.cons (.fn (.cons (.dynamic _) .nil) (.primitive _)) .nil) (.primitive _)

end Sigil.Ty
