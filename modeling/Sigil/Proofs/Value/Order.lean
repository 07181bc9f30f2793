import Mathlib.Tactic.SplitIfs
import Sigil.Operator
import Sigil.Proofs.Number.Order

/-!
# Comparisons are coherent

Equality is an equivalence, and of two values that have an order one is less
than, equal to or greater than the other, as the operators say of them
(`Value.compare_coherent`). Floats that are no number are left out, and there
is one exception: runs of commands that are told apart although they wrote the
same text (`Value.Twins`). Both of them are equal to that text, and neither is
less than the other.
-/

namespace Sigil

namespace Value

variable {a b c : Value} {s : String} {o : Ordering}

attribute [local simp] equal

/-- Whether a value is a float that is no number. -/
def isNaN : Value → Bool
  | number n => n.isNaN
  | _ => false

/-- Two values are different runs that wrote the same text. -/
def Twins (a b : Value) : Prop :=
  ∃ r t, a = run r ∧ b = run t ∧ r ≠ t ∧ r.text = t.text

theorem asText_eq_some_iff :
    a.asText = some s ↔ a = string s ∨ ∃ r, a = run r ∧ r.text = s := by
  unfold asText
  split <;> simp_all

/-! ## Equality -/

theorem equal_refl (ha : a.isNaN = false) : a.equal a := by
  cases a with
  | closure f => simp
  | datum d =>
    cases d with
    | number n =>
      obtain ⟨x, hx⟩ := Number.exists_stands ha
      exact (Number.equal_iff hx hx).mpr rfl
    | _ => simp

theorem equal_comm (ha : a.isNaN = false) (hb : b.isNaN = false) : a.equal b = b.equal a := by
  cases a with
  | closure f => cases b <;> simp [eq_comm]
  | datum d =>
    cases b with
    | closure g => rfl
    | datum e =>
      cases d <;> cases e
      case number.number m n =>
        obtain ⟨x, hx⟩ := Number.exists_stands ha
        obtain ⟨y, hy⟩ := Number.exists_stands hb
        show m.equal n = n.equal m
        rw [Bool.eq_iff_iff, Number.equal_iff hx hy, Number.equal_iff hy hx, eq_comm]
      all_goals simp [eq_comm]

/-- What is equal to a closure is a closure of the same making. -/
theorem closure_of_equal {g : Closure} (h : a.equal (closure g)) :
    ∃ f, a = closure f ∧ f.id = g.id := by
  cases a with
  | closure f => exact ⟨f, rfl, by simpa using h⟩
  | datum d => cases h

/-- What is equal to a number is a number. -/
theorem number_of_equal {n : Number} (h : a.equal (number n)) : ∃ m, a = number m ∧ m.equal n := by
  cases a with
  | closure f => cases h
  | datum d =>
    cases d with
    | number m => exact ⟨m, rfl, h⟩
    | _ => simp at h

/-- What is equal to a text stands for it. -/
theorem asText_of_equal (h : a.equal (string s)) : a.asText = some s := by
  cases a with
  | closure f => cases h
  | datum d => cases d <;> simp_all [asText]

/-- Equal to a run are the run and its text. -/
theorem run_of_equal {r : CommandRun} (h : a.equal (run r)) : a = run r ∨ a = string r.text := by
  cases a with
  | closure f => cases h
  | datum d => cases d <;> simp_all

/-- What stands for the same text is equal, but for twins. -/
theorem equal_of_asText (ha : a.asText = some s) (hc : c.asText = some s) :
    a.equal c ∨ a.Twins c := by
  rw [asText_eq_some_iff] at ha hc
  rcases ha with rfl | ⟨r, rfl, rfl⟩
  · left
    rcases hc with rfl | ⟨t, rfl, e⟩
    · exact equal_refl rfl
    · simp [e]
  · rcases hc with rfl | ⟨t, rfl, e⟩
    · simp
    · by_cases same : r = t
      · subst same
        exact .inl (equal_refl rfl)
      · exact .inr ⟨r, t, rfl, rfl, same, e.symm⟩

theorem equal_trans (ha : a.isNaN = false) (hb : b.isNaN = false) (hc : c.isNaN = false)
    (hab : a.equal b) (hbc : b.equal c) : a.equal c ∨ a.Twins c := by
  have hcb : c.equal b := by rwa [equal_comm hc hb]
  cases b with
  | closure g =>
    obtain ⟨f, rfl, hf⟩ := closure_of_equal hab
    obtain ⟨k, rfl, hk⟩ := closure_of_equal hcb
    simp [hf, hk]
  | datum d =>
    cases d with
    | number n =>
      obtain ⟨m, rfl, hm⟩ := number_of_equal hab
      obtain ⟨k, rfl, hk⟩ := number_of_equal hcb
      obtain ⟨x, hx⟩ := Number.exists_stands ha
      obtain ⟨y, hy⟩ := Number.exists_stands hb
      obtain ⟨z, hz⟩ := Number.exists_stands hc
      rw [Number.equal_iff hx hy] at hm
      rw [Number.equal_iff hz hy] at hk
      exact .inl ((Number.equal_iff hx hz).mpr (hm.trans hk.symm))
    | text s => exact equal_of_asText (asText_of_equal hab) (asText_of_equal hcb)
    | run r =>
      rcases run_of_equal hab with rfl | rfl
      · exact .inl hbc
      · rcases run_of_equal hcb with rfl | rfl
        · exact .inl hab
        · exact .inl (equal_refl rfl)
    | unit | bool =>
      left
      cases a with
      | closure f => cases hab
      | datum e => cases e <;> simp_all

/-! ## Order -/

/-- Values that have an order are numbers, or stand for texts. -/
theorem order?_eq_some {p : Option Ordering} (h : a.order? b = some p) :
    (∃ m n, a = number m ∧ b = number n ∧ p = m.compare? n) ∨
      ∃ s t, a.asText = some s ∧ b.asText = some t ∧ p = some (Ord.compare s t) := by
  unfold order? at h
  split at h
  · next m n =>
    cases h
    exact .inl ⟨m, n, rfl, rfl, rfl⟩
  · split at h
    · next s t ha hb =>
      cases h
      exact .inr ⟨s, t, ha, hb, rfl⟩
    · cases h

/-- Two values that have an order are equal if neither comes before the other, but for twins. -/
theorem order?_coherent (ha : a.isNaN = false) (hb : b.isNaN = false) {p : Option Ordering}
    (h : a.order? b = some p) :
    ∃ o, p = some o ∧ (a.equal b = decide (o = .eq) ∨ o = .eq ∧ a.Twins b ∧ a.equal b = false) := by
  rcases order?_eq_some h with ⟨m, n, rfl, rfl, rfl⟩ | ⟨s, t, hs, ht, rfl⟩
  · obtain ⟨x, hx⟩ := Number.exists_stands ha
    obtain ⟨y, hy⟩ := Number.exists_stands hb
    refine ⟨cmp x y, Number.compare?_of_points hx hy, .inl ?_⟩
    show m.equal n = _
    rw [Bool.eq_iff_iff, Number.equal_iff hx hy, decide_eq_true_iff, cmp_eq_eq_iff]
  · refine ⟨_, rfl, ?_⟩
    by_cases same : s = t
    · subst same
      rw [Std.LawfulEqOrd.compare_eq_iff_eq.mpr rfl]
      rcases equal_of_asText hs ht with e | twins
      · exact .inl e
      · cases e : a.equal b with
        | true => exact .inl rfl
        | false => exact .inr ⟨rfl, twins, rfl⟩
    · left
      rw [decide_eq_false (mt Std.LawfulEqOrd.compare_eq_iff_eq.mp same)]
      rw [asText_eq_some_iff] at hs ht
      rcases hs with rfl | ⟨r, rfl, rfl⟩ <;> rcases ht with rfl | ⟨k, rfl, rfl⟩
      iterate 3 simpa using same
      have different : r ≠ k := fun e => same (congrArg CommandRun.text e)
      simpa using different

/-! ## Comparisons -/

/-- Equality is reflexive and symmetric, and transitive but for twins, and its negation is what the
other operator says. If two values have an order, all four operators say what it is, and whether
they are equal too, unless they are twins. -/
theorem compare_coherent (ha : a.isNaN = false) (hb : b.isNaN = false) (hc : c.isNaN = false) :
    a.compare .equal a = .ok true ∧
      a.compare .equal b = b.compare .equal a ∧
      (a.compare .equal b = .ok true → b.compare .equal c = .ok true →
        a.compare .equal c = .ok true ∨ a.Twins c) ∧
      (∃ e, a.compare .equal b = .ok e ∧ a.compare .unequal b = .ok (!e)) ∧
      ∀ l, a.compare .less b = .ok l → ∃ o : Ordering, l = o.isLT ∧
        a.compare .lessEqual b = .ok o.isLE ∧ a.compare .greater b = .ok o.isGT ∧
        a.compare .greaterEqual b = .ok o.isGE ∧
        (a.compare .equal b = .ok o.isEq ∨
          o = .eq ∧ a.Twins b ∧ a.compare .equal b = .ok false) := by
  refine ⟨congrArg Except.ok (equal_refl ha), congrArg Except.ok (equal_comm ha hb), ?_,
    ⟨a.equal b, rfl, rfl⟩, ?_⟩
  · intro hab hbc
    apply (equal_trans ha hb hc (Except.ok.inj hab) (Except.ok.inj hbc)).imp_left
    exact congrArg Except.ok
  · intro l hl
    cases ordered : a.order? b with
    | none =>
      simp only [compare, ordered] at hl
      cases hl
    | some p =>
      obtain ⟨o, rfl, same⟩ := order?_coherent ha hb ordered
      simp only [compare, ordered] at hl ⊢
      refine ⟨o, ?_, ?_, ?_, ?_, ?_⟩
      · rw [← Except.ok.inj hl]
        cases o <;> rfl
      iterate 3 exact congrArg Except.ok (by cases o <;> rfl)
      · rcases same with same | ⟨rfl, twins, e⟩
        · left
          rw [same]
          cases o <;> rfl
        · exact .inr ⟨rfl, twins, congrArg Except.ok e⟩

theorem compare_coherent_mixed :
    (int 1).isNaN = false ∧ (float 1.0).isNaN = false ∧
      (int 1).compare .equal (float 1.0) = .ok true ∧
      (int 1).compare .less (float 1.0) = .ok false ∧
      ∃ o : Ordering, false = o.isLT ∧ (int 1).compare .lessEqual (float 1.0) = .ok o.isLE := by
  have number : (float 1.0).isNaN = false := by decide +kernel
  have same : (int 1).compare .equal (float 1.0) = .ok true := by decide +kernel
  have less : (int 1).compare .less (float 1.0) = .ok false := by decide +kernel
  obtain ⟨-, -, -, -, ordered⟩ :=
    compare_coherent (a := int 1) (b := float 1.0) (c := int 1) rfl number rfl
  obtain ⟨o, hl, le, -⟩ := ordered false less
  exact ⟨rfl, number, same, less, o, hl, le⟩

/-- Two runs that wrote the same text are equal to the text and not to one another, and neither is
less, although each is less or equal. -/
theorem compare_twins :
    (run ⟨"a", [], 0, "x"⟩).compare .equal (string "x") = .ok true ∧
      (string "x").compare .equal (run ⟨"b", [], 0, "x"⟩) = .ok true ∧
      (run ⟨"a", [], 0, "x"⟩).compare .equal (run ⟨"b", [], 0, "x"⟩) = .ok false ∧
      (run ⟨"a", [], 0, "x"⟩).compare .less (run ⟨"b", [], 0, "x"⟩) = .ok false ∧
      (run ⟨"a", [], 0, "x"⟩).compare .greater (run ⟨"b", [], 0, "x"⟩) = .ok false ∧
      (run ⟨"a", [], 0, "x"⟩).compare .lessEqual (run ⟨"b", [], 0, "x"⟩) = .ok true := by
  decide

end Value

end Sigil
