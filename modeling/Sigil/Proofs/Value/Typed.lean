import Mathlib.Tactic.SplitIfs
import Sigil.Proofs.Typing.Inferred
import Sigil.Evaluation

/-!
# Values of inferred types

A value is of a type if the type accepts the value's own, which is one
without parts (`Value.Of`). Such a value is known by its type, as long as the
type is not dynamic (`Value.Of.eq_bool` and so on), and stays of the wider
types that the checker makes of it (`Value.Of.widen`, `Value.Of.join_left`).

Operations on values of the types that the checker asks for have a result of
the type that it infers, or fail for what the numbers are
(`Value.compare_of`, `Value.arithmetic_of`).
-/

namespace Sigil

/-! ## Values of a type -/

/-- A value that a type accepts, and whose own type has no parts. -/
structure Value.Of (t : Ty) (v : Value) : Prop where
  primitive : ∃ p, v.type = .primitive p
  accepted : t.accepts v.type

namespace Ty

theorem accepts_primitive {p q : Primitive} :
    (primitive p).accepts (primitive q) ↔ p = q ∨ p = .float ∧ q = .int := by
  simp [accepts, fits]

/-- A type without parts is accepted through a type that is not dynamic. -/
theorem accepts_trans {t u : Ty} {p : Primitive} (hu : u.isDynamic = false) (h : t.accepts u)
    (hp : u.accepts (.primitive p)) : t.accepts (.primitive p) := by
  cases u with
  | dynamic | unknown => cases hu
  | fn => cases hp
  | primitive q =>
    cases t with
    | dynamic | unknown => rfl
    | fn => cases h
    | primitive r =>
      rw [accepts_primitive] at h hp ⊢
      rcases h with rfl | ⟨rfl, rfl⟩
      · exact hp
      · rcases hp with rfl | ⟨e, -⟩
        · exact .inr ⟨rfl, rfl⟩
        · cases e

theorem isNumeric_iff {t : Ty} : t.isNumeric ↔ t = .int ∨ t = .float := by
  cases t with
  | primitive p => cases p <;> simp [isNumeric]
  | _ => simp [isNumeric]

/-- A type without parts that one of two types accepts is accepted by what they have in common. -/
theorem accepts_join {a b c : Ty} {p : Primitive} (hc : c = a ∨ c = b)
    (h : c.accepts (.primitive p)) : (join [a, b]).accepts (.primitive p) := by
  by_cases e : b = a
  · subst e
    rcases hc with rfl | rfl <;> simpa [join] using h
  · by_cases numeric : a.isNumeric ∧ b.isNumeric
    · have joined : join [a, b] = .float := by simp [join, e, numeric]
      have number : c.isNumeric := by
        rcases hc with rfl | rfl
        · exact numeric.1
        · exact numeric.2
      rw [joined]
      rcases isNumeric_iff.mp number with rfl | rfl
      · exact accepts_trans rfl rfl h
      · exact h
    · have joined : join [a, b] = .dynamic := by simpa [join, e] using numeric
      rw [joined]
      rfl

end Ty

namespace Value

variable {t u : Ty} {v : Value}

/-- A value of a type is of every type that accepts the type. -/
theorem Of.widen (h : v.Of u) (hu : u.isDynamic = false) (ht : t.accepts u) : v.Of t := by
  obtain ⟨⟨p, hp⟩, ha⟩ := h
  refine ⟨⟨p, hp⟩, ?_⟩
  rw [hp] at ha ⊢
  exact Ty.accepts_trans hu ht ha

theorem Of.join_left (h : v.Of t) : v.Of (Ty.join [t, u]) := by
  obtain ⟨⟨p, hp⟩, ha⟩ := h
  refine ⟨⟨p, hp⟩, ?_⟩
  rw [hp] at ha ⊢
  exact Ty.accepts_join (.inl rfl) ha

theorem Of.join_right (h : v.Of u) : v.Of (Ty.join [t, u]) := by
  obtain ⟨⟨p, hp⟩, ha⟩ := h
  refine ⟨⟨p, hp⟩, ?_⟩
  rw [hp] at ha ⊢
  exact Ty.accepts_join (.inr rfl) ha

/-- A value of a type may be kept where the type is declared. -/
theorem Of.fits (h : v.Of t) : v.fits (some t) := by
  unfold Value.fits
  split
  · rfl
  · rfl
  · next e _ => cases e; exact h.accepted

theorem of_unit : Value.unit.Of .unit := ⟨⟨_, rfl⟩, rfl⟩
theorem of_bool (b : Bool) : (Value.bool b).Of .bool := ⟨⟨_, rfl⟩, rfl⟩
theorem of_string (s : String) : (Value.string s).Of .string := ⟨⟨_, rfl⟩, rfl⟩

/-- A literal is of the type that the checker gives it. -/
theorem of_datumType {d : Datum} (h : (Check.datumType d).isDynamic = false) :
    (Value.datum d).Of (Check.datumType d) := by
  cases d with
  | number n => cases n <;> exact ⟨⟨_, rfl⟩, rfl⟩
  | run => cases h
  | _ => exact ⟨⟨_, rfl⟩, rfl⟩

/-! ## What values of a type are -/

theorem Of.type_eq {p : Primitive} (h : v.Of (.primitive p)) :
    v.type = .primitive p ∨ p = .float ∧ v.type = .int := by
  obtain ⟨⟨q, hq⟩, ha⟩ := h
  rw [hq, Ty.accepts_primitive] at ha
  rcases ha with rfl | ⟨hp, rfl⟩
  · exact .inl hq
  · exact .inr ⟨hp, hq⟩

theorem eq_bool_of_type (h : v.type = .bool) : ∃ b, v = .bool b := by
  unfold type at h
  split at h <;> cases h
  exact ⟨_, rfl⟩

theorem eq_int_of_type (h : v.type = .int) : ∃ n, v = .int n := by
  unfold type at h
  split at h <;> cases h
  exact ⟨_, rfl⟩

theorem eq_float_of_type (h : v.type = .float) : ∃ x, v = .float x := by
  unfold type at h
  split at h <;> cases h
  exact ⟨_, rfl⟩

theorem eq_string_of_type (h : v.type = .string) : ∃ s, v = .string s := by
  unfold type at h
  split at h <;> cases h
  exact ⟨_, rfl⟩

theorem Of.eq_bool (h : v.Of .bool) : ∃ b, v = .bool b :=
  eq_bool_of_type (h.type_eq.resolve_right fun e => nomatch e.1)

theorem Of.eq_int (h : v.Of .int) : ∃ n, v = .int n :=
  eq_int_of_type (h.type_eq.resolve_right fun e => nomatch e.1)

theorem Of.eq_string (h : v.Of .string) : ∃ s, v = .string s :=
  eq_string_of_type (h.type_eq.resolve_right fun e => nomatch e.1)

theorem Of.eq_number (h : v.Of t) (ht : t.isNumeric) : ∃ n, v = .number n := by
  rcases Ty.isNumeric_iff.mp ht with rfl | rfl
  · obtain ⟨n, rfl⟩ := h.eq_int
    exact ⟨_, rfl⟩
  · rcases h.type_eq with e | ⟨-, e⟩
    · obtain ⟨x, rfl⟩ := eq_float_of_type e
      exact ⟨_, rfl⟩
    · obtain ⟨n, rfl⟩ := eq_int_of_type e
      exact ⟨_, rfl⟩

theorem of_int (n : Int) : (Value.int n).Of .int := ⟨⟨_, rfl⟩, rfl⟩

/-- Every number is of the type of floats. -/
theorem of_number (n : Number) : (Value.number n).Of .float := by
  cases n <;> exact ⟨⟨_, rfl⟩, rfl⟩

/-- A condition is a truth value. -/
theorem Of.bool_of_accepts (h : v.Of t) (hd : t.isDynamic = false) (ht : Ty.bool.accepts t) :
    ∃ b, v = .bool b :=
  (h.widen hd ht).eq_bool

/-! ## Operations -/

end Value

/-- Whether a fault is about what the numbers of an operation are, rather than about what kinds of
values they are. -/
def RuntimeFault.isNumeric : RuntimeFault → Bool
  | operator .divisionByZero | operator .remainderByZero | operator (.outOfRange _)
  | integerTooLong => true
  | _ => false

namespace Value

variable {op : BinaryOperator} {l r t : Ty} {a b : Value}

theorem order?_of (h : l.isNumeric && r.isNumeric || (l = .string && r = .string))
    (ha : a.Of l) (hb : b.Of r) : ∃ o, a.order? b = some o := by
  simp only [Bool.or_eq_true, Bool.and_eq_true, decide_eq_true_eq] at h
  rcases h with ⟨hl, hr⟩ | ⟨rfl, rfl⟩
  · obtain ⟨m, rfl⟩ := ha.eq_number hl
    obtain ⟨n, rfl⟩ := hb.eq_number hr
    exact ⟨_, rfl⟩
  · obtain ⟨s, rfl⟩ := ha.eq_string
    obtain ⟨u, rfl⟩ := hb.eq_string
    exact ⟨_, rfl⟩

/-- A comparison of values of the types that the checker asks for has a result. -/
theorem compare_of (hop : op ∈ [.equal, .unequal, .less, .lessEqual, .greater, .greaterEqual])
    (h : Ty.binary? op l r = some t) (hl : l.isDynamic = false) (hr : r.isDynamic = false)
    (ha : a.Of l) (hb : b.Of r) : t = .bool ∧ ∃ c, a.compare op b = .ok c := by
  have ordered (hn : (if l.isDynamic || r.isDynamic || (l.isNumeric && r.isNumeric) ||
      (l = .string && r = .string) then some Ty.bool else none) = some t) :
      t = .bool ∧ ∃ o, a.order? b = some o := by
    rw [hl, hr, Bool.or_self, Bool.false_or] at hn
    split_ifs at hn with types
    exact ⟨(Option.some.inj hn).symm, order?_of types ha hb⟩
  simp only [List.mem_cons, List.not_mem_nil, or_false] at hop
  rcases hop with rfl | rfl | rfl | rfl | rfl | rfl
  iterate 2 exact ⟨(Option.some.inj h).symm, _, rfl⟩
  all_goals
    obtain ⟨result, o, ho⟩ := ordered h
    exact ⟨result, _, by unfold compare; rw [ho]⟩

/-- Of integers an operation makes an integer. -/
theorem numeric?_int {f : Number → Number → Except Number.Fault Number} (hf : numeric? op = some f)
    {i j : Int} {k : Number} (h : f (.int i) (.int j) = .ok k) : ∃ n, k = .int n := by
  cases op with
  | add | sub | mul =>
    cases hf
    cases h
    exact ⟨_, rfl⟩
  | div =>
    cases hf
    unfold Number.div at h
    split_ifs at h
    cases h
    exact ⟨_, rfl⟩
  | mod =>
    cases hf
    unfold Number.mod at h
    split_ifs at h
    cases h
    exact ⟨_, rfl⟩
  | _ => cases hf

/-- An arithmetic operation on numbers fails only for what they are. -/
theorem arithmetic_number (hop : op ∈ [.add, .sub, .mul, .div, .mod]) {m n : Number}
    (h : ∀ f k, numeric? op = some f → f m n = .ok k → (Value.number k).Of t) :
    match (Value.number m).arithmetic op (.number n) with
    | .ok v => v.Of t
    | .error f => (RuntimeFault.operator f).isNumeric := by
  obtain ⟨f, hf⟩ : ∃ f, numeric? op = some f := by
    simp only [List.mem_cons, List.not_mem_nil, or_false] at hop
    rcases hop with rfl | rfl | rfl | rfl | rfl <;> exact ⟨_, rfl⟩
  have noText (k : Number) : (Value.number k).asText = none := rfl
  unfold arithmetic
  rw [hf, noText, noText]
  dsimp only
  cases hk : f m n with
  | ok k => cases op <;> exact h f k hf hk
  | error fault => cases fault <;> cases op <;> rfl

/-- An arithmetic operation on values of the types that the checker asks for has a result of the
type that it infers, or fails for what the numbers are. -/
theorem arithmetic_of (hop : op ∈ [.add, .sub, .mul, .div, .mod])
    (h : Ty.binary? op l r = some t) (hl : l.isDynamic = false) (hr : r.isDynamic = false)
    (ha : a.Of l) (hb : b.Of r) :
    match a.arithmetic op b with
    | .ok v => v.Of t
    | .error f => (RuntimeFault.operator f).isNumeric := by
  have found : (if l.isNumeric && r.isNumeric then
        some (if l = .int ∧ r = .int then .int else .float)
      else if op = .add ∧ l = .string ∧ r = .string then some .string else none) = some t := by
    simp only [List.mem_cons, List.not_mem_nil, or_false] at hop
    rcases hop with rfl | rfl | rfl | rfl | rfl <;> simpa [Ty.binary?, hl, hr] using h
  split_ifs at found with numbers ints texts
  · obtain ⟨rfl, rfl⟩ := ints
    obtain ⟨i, rfl⟩ := ha.eq_int
    obtain ⟨j, rfl⟩ := hb.eq_int
    cases found
    refine arithmetic_number hop fun f k hf hk => ?_
    obtain ⟨n, rfl⟩ := numeric?_int hf hk
    exact of_int n
  · rw [Bool.and_eq_true] at numbers
    obtain ⟨m, rfl⟩ := ha.eq_number numbers.1
    obtain ⟨n, rfl⟩ := hb.eq_number numbers.2
    cases found
    exact arithmetic_number hop fun _ k _ _ => of_number k
  · obtain ⟨rfl, rfl, rfl⟩ := texts
    obtain ⟨s, rfl⟩ := ha.eq_string
    obtain ⟨u, rfl⟩ := hb.eq_string
    cases found
    exact of_string _

/-- A number has one with the other sign, of the same type. -/
theorem neg_of {n : Number} (h : (Value.number n).Of t) : (Value.number n.neg).Of t := by
  obtain ⟨_, ha⟩ := h
  cases n <;> exact ⟨⟨_, rfl⟩, ha⟩

end Value

end Sigil
