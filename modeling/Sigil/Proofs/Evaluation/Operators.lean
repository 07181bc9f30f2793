import Mathlib.Tactic.SplitIfs
import Sigil.Proofs.Evaluation.Rules
import Sigil.Proofs.Value.Typed

/-!
# Operators in checking and in evaluation

The rules for operators are written twice, for types in the checker and for
values in evaluation. They agree on the operands that they ask for
(`operators_agree`), but for one thing: to evaluation the run of a command is
as good as the text that it wrote, and the checker knows of texts only
(`Ty.StandsIn`). There what it reports is a false alarm.

Both are compared with what an operator asks for by itself (`Ty.suits`): what
the checker reports is in `Check.reports_binaryType`, how evaluation ends in
`Eval.mismatches_binary` and, where the right operand may be left out, in
`Eval.mismatches_logical`.
-/

namespace Sigil

/-! ## Types and values -/

namespace Ty

variable {op : BinaryOperator} {l r t : Ty}

/-- Whether a type is that of texts, or that of runs, which stand for texts. -/
def isText : Ty → Bool
  | string | command => true
  | _ => false

/-- Whether an operator is made for operands of two types. -/
def suits (op : BinaryOperator) (l r : Ty) : Bool :=
  match op with
  | .equal | .unequal => true
  | .and | .or => l = .bool && r = .bool
  | .less | .lessEqual | .greater | .greaterEqual | .add =>
    l.isNumeric && r.isNumeric || l.isText && r.isText
  | .sub | .mul | .div | .mod => l.isNumeric && r.isNumeric
  | .other _ => false

/-- An operator is applied to texts, and one of them is the run of a command. -/
def StandsIn (op : BinaryOperator) (l r : Ty) : Prop :=
  op ∈ [.add, .less, .lessEqual, .greater, .greaterEqual] ∧
    l.isText ∧ r.isText ∧ (l = .command ∨ r = .command)

instance : Decidable (StandsIn op l r) :=
  inferInstanceAs (Decidable (_ ∧ _))

/-- Evaluation joins and orders texts. -/
theorem StandsIn.suits (h : StandsIn op l r) : Ty.suits op l r := by
  obtain ⟨hop, hl, hr, -⟩ := h
  simp only [List.mem_cons, List.not_mem_nil, or_false] at hop
  rcases hop with rfl | rfl | rfl | rfl | rfl <;> simp [Ty.suits, hl, hr]

theorem accepts_bool (ht : t.isDynamic = false) : Ty.bool.accepts t = decide (t = .bool) := by
  cases t with
  | dynamic | unknown => cases ht
  | fn => rfl
  | primitive p => cases p <;> rfl

/-- Two types are neither both those of numbers nor both that of strings: they are not of texts
either, or one of them is that of runs. -/
theorem neither_iff : (l.isNumeric && r.isNumeric || (l = .string && r = .string)) = false ↔
    (l.isNumeric && r.isNumeric || l.isText && r.isText) = false ∨
      l.isText ∧ r.isText ∧ (l = .command ∨ r = .command) := by
  cases l with
  | primitive p =>
    cases r with
    | primitive q => cases p <;> cases q <;> decide
    | _ => simp [isNumeric, isText]
  | _ => simp [isNumeric, isText]

end Ty

namespace Value

variable {op : BinaryOperator} {a b : Value}

theorem isDynamic_type (a : Value) : a.type.isDynamic = false := by
  cases a with
  | closure c => rfl
  | datum d =>
    cases d with
    | number n => cases n <;> rfl
    | _ => rfl

theorem type_eq_bool : a.type = .bool ↔ ∃ x, a = bool x := by
  constructor
  · exact eq_bool_of_type
  · rintro ⟨x, rfl⟩
    rfl

theorem isNumeric_type : a.type.isNumeric ↔ ∃ n, a = number n := by
  constructor
  · intro h
    rcases Ty.isNumeric_iff.mp h with e | e
    · obtain ⟨n, rfl⟩ := eq_int_of_type e
      exact ⟨_, rfl⟩
    · obtain ⟨x, rfl⟩ := eq_float_of_type e
      exact ⟨_, rfl⟩
  · rintro ⟨n, rfl⟩
    cases n <;> rfl

theorem isText_type (a : Value) : a.type.isText = a.asText.isSome := by
  cases a with
  | closure c => rfl
  | datum d =>
    cases d with
    | number n => cases n <;> rfl
    | _ => rfl

theorem not_numeric (h : ∀ m n, a = number m → b = number n → False) :
    (a.type.isNumeric && b.type.isNumeric) = false := by
  rw [Bool.eq_false_iff, ne_eq, Bool.and_eq_true, isNumeric_type, isNumeric_type]
  rintro ⟨⟨m, hm⟩, n, hn⟩
  exact h m n hm hn

theorem numeric_numbers (m n : Number) :
    ((number m).type.isNumeric && (number n).type.isNumeric) = true :=
  Bool.and_eq_true_iff.mpr ⟨isNumeric_type.mpr ⟨m, rfl⟩, isNumeric_type.mpr ⟨n, rfl⟩⟩

/-- Two values have an order if an operator that orders is made for them. -/
theorem isSome_order? (a b : Value) : (a.order? b).isSome =
    (a.type.isNumeric && b.type.isNumeric || a.type.isText && b.type.isText) := by
  rw [isText_type, isText_type]
  unfold order?
  split
  · rw [numeric_numbers, Bool.true_or]
    rfl
  · next h =>
    rw [not_numeric h]
    cases a.asText <;> cases b.asText <;> rfl

/-- An operation ends with a mismatch of types. -/
def Mismatched {α : Type} (r : Except OperatorFault α) : Prop :=
  ∃ f, r = .error f ∧ (RuntimeFault.operator f).kind = .typeMismatch

theorem not_mismatched_ok {α : Type} (c : α) : ¬ Mismatched (.ok c) := by
  rintro ⟨f, h, -⟩
  cases h

theorem mismatched_mismatched {α : Type} : Mismatched (.error (mismatched op a b) : Except _ α) :=
  ⟨_, rfl, rfl⟩

theorem mismatched_compare
    (hop : op ∈ [.equal, .unequal, .less, .lessEqual, .greater, .greaterEqual]) :
    Mismatched (a.compare op b) ↔ Ty.suits op a.type b.type = false := by
  have ordered (op : BinaryOperator)
      (h : a.compare op b =
        (a.order? b).elim (.error (mismatched op a b)) fun o => .ok (holds op o)) :
      Mismatched (a.compare op b) ↔
        (a.type.isNumeric && b.type.isNumeric || a.type.isText && b.type.isText) = false := by
    rw [h, ← isSome_order?]
    cases a.order? b with
    | some o => exact iff_of_false (not_mismatched_ok _) Bool.true_eq_false.mp
    | none => exact iff_of_true mismatched_mismatched rfl
  simp only [List.mem_cons, List.not_mem_nil, or_false] at hop
  rcases hop with rfl | rfl | rfl | rfl | rfl | rfl
  iterate 2 exact iff_of_false (not_mismatched_ok _) Bool.true_eq_false.mp
  all_goals
    refine ordered _ ?_
    unfold compare
    cases a.order? b <;> rfl

/-- Arithmetic on what are neither numbers nor, under `+`, texts. -/
theorem arithmetic_neither (numbers : ∀ m n, a = number m → b = number n → False)
    (texts : ∀ s t, op = .add → a.asText = some s → b.asText = some t → False) :
    a.arithmetic op b = .error (mismatched op a b) := by
  unfold arithmetic
  split
  · next s t hs ht => exact (texts s t rfl hs ht).elim
  · split
    · next m n => exact (numbers _ _ rfl rfl).elim
    · rfl

theorem mismatched_arithmetic (hop : op ∈ [.add, .sub, .mul, .div, .mod]) :
    Mismatched (a.arithmetic op b) ↔ Ty.suits op a.type b.type = false := by
  have suits : Ty.suits op a.type b.type = (a.type.isNumeric && b.type.isNumeric ||
      decide (op = .add) && (a.asText.isSome && b.asText.isSome)) := by
    simp only [List.mem_cons, List.not_mem_nil, or_false] at hop
    rw [← isText_type, ← isText_type]
    rcases hop with rfl | rfl | rfl | rfl | rfl <;> simp [Ty.suits]
  rw [suits]
  by_cases numbers : ∃ m n, a = number m ∧ b = number n
  · obtain ⟨m, n, rfl, rfl⟩ := numbers
    rw [numeric_numbers, Bool.true_or]
    refine iff_of_false ?_ Bool.true_eq_false.mp
    rintro ⟨f, failed, kind⟩
    have numeric := arithmetic_number (m := m) (n := n) hop fun _ k _ _ => of_number k
    rw [failed] at numeric
    cases f <;> cases numeric <;> cases kind
  · have noNumbers m n (hm : a = number m) (hn : b = number n) : False :=
      numbers ⟨m, n, hm, hn⟩
    rw [not_numeric noNumbers, Bool.false_or]
    by_cases texts : ∃ s t, op = .add ∧ a.asText = some s ∧ b.asText = some t
    · obtain ⟨s, t, rfl, hs, ht⟩ := texts
      have joined : a.arithmetic .add b = .ok (string (s ++ t)) := by
        unfold arithmetic
        rw [hs, ht]
      rw [joined, hs, ht]
      exact iff_of_false (not_mismatched_ok _) (by simp)
    · have noTexts s t (ho : op = .add) (hs : a.asText = some s) (ht : b.asText = some t) :
          False := texts ⟨s, t, ho, hs, ht⟩
      rw [arithmetic_neither noNumbers noTexts]
      refine iff_of_true mismatched_mismatched ?_
      cases hs : a.asText with
      | none => simp
      | some s =>
        cases ht : b.asText with
        | none => simp
        | some t => simpa using fun ho => noTexts s t ho hs ht

end Value

/-! ## What the checker reports -/

namespace Ty

variable {op : BinaryOperator} {l r t : Ty}

theorem standsIn_iff (hop : op ∈ [.add, .less, .lessEqual, .greater, .greaterEqual]) :
    StandsIn op l r ↔ l.isText ∧ r.isText ∧ (l = .command ∨ r = .command) :=
  and_iff_right hop

/-- Of types that are not dynamic the checker reports those that an operator is not made for, and
those of runs that stand for texts. -/
theorem binary?_eq_none (hop : op ∈ BinaryOperator.all) (hl : l.isDynamic = false)
    (hr : r.isDynamic = false) :
    Ty.binary? op l r = none ↔ Ty.suits op l r = false ∨ StandsIn op l r := by
  have noText (h : op ∉ [.add, .less, .lessEqual, .greater, .greaterEqual]) :
      (Ty.suits op l r = false ∨ StandsIn op l r) ↔ Ty.suits op l r = false :=
    or_iff_left fun stands => h stands.1
  cases op with
  | equal | unequal =>
    rw [noText (by decide), binary?, suits]
    exact iff_of_false (Option.some_ne_none _) Bool.true_eq_false.mp
  | and | or =>
    rw [noText (by decide), binary?, suits, accepts_bool hl, accepts_bool hr]
    split_ifs with h <;> simp [h]
  | less | lessEqual | greater | greaterEqual =>
    rw [standsIn_iff (by decide), binary?, suits, ← neither_iff, hl, hr, Bool.or_self,
      Bool.false_or]
    split_ifs with h <;> simp [h]
  | add =>
    rw [standsIn_iff (by decide), binary?, suits, ← neither_iff, hl, hr, Bool.or_self]
    split_ifs with h k <;> simp_all
  | sub | mul | div | mod =>
    rw [noText (by decide), binary?, suits, hl, hr, Bool.or_self]
    split_ifs with h k <;> simp_all
  | other => exact absurd hop (by simp [BinaryOperator.all])

/-- Of types that are not dynamic the checker reports those that an operator is not made for. -/
theorem unary?_eq_none {op : UnaryOperator} (ht : t.isDynamic = false) :
    Ty.unary? op t = none ↔ (if op = .not then t ≠ .bool else t.isNumeric = false) := by
  cases op with
  | not => simp [unary?, accepts_bool ht]
  | _ => simp [unary?, ht]

end Ty

namespace Check

variable {α : Type}

/-- Whether a step of the checker reports a type. -/
def Reports (m : Check α) (c : Checker) : Prop :=
  ∃ d ∈ (m.run c).2.diagnostics.drop c.diagnostics.length, d.code = .typeMismatch

theorem reports_of {m : Check α} {c : Checker} (fs : List Finding) (span : Option Span)
    (h : (m.run c).2.diagnostics = c.diagnostics ++ fs.map (·.diagnostic span)) :
    Reports m c ↔ ∃ f ∈ fs, f.code = .typeMismatch := by
  unfold Reports
  rw [h, List.drop_left]
  constructor
  · rintro ⟨_, hd, code⟩
    obtain ⟨f, hf, rfl⟩ := List.mem_map.mp hd
    exact ⟨f, hf, code⟩
  · rintro ⟨f, hf, code⟩
    exact ⟨_, List.mem_map_of_mem hf, code⟩

theorem not_reports_pure {a : α} {c : Checker} : ¬ Reports (pure a : Check α) c := by
  rw [reports_of (m := pure a) [] none (List.append_nil _).symm]
  rintro ⟨f, hf, -⟩
  cases hf

theorem reports_mismatch {f : Finding} (hf : f.code = .typeMismatch) (span : Option Span)
    (c : Checker) : Reports (mismatch f span) c :=
  (reports_of [f] span rfl).mpr ⟨f, List.mem_singleton_self f, hf⟩

theorem reports_unless {f : Finding} (hf : f.code = .typeMismatch) (b : Bool) (t : Ty)
    (span : Option Span) (c : Checker) :
    Reports (do
      if !b then report f span
      return t) c ↔ b = false := by
  cases b with
  | true => exact iff_of_false not_reports_pure Bool.true_eq_false.mp
  | false =>
    apply iff_of_true _ rfl
    exact (reports_of [f] span rfl).mpr ⟨f, List.mem_singleton_self f, hf⟩

theorem reports_both {f : Ty → Finding} (hf : ∀ t, (f t).code = .typeMismatch) (p : Ty → Bool)
    (left right t : Ty) (span : Option Span) (c : Checker) :
    Reports (do
      for side in [left, right] do
        if !p side then report (f side) span
      return t) c ↔ (p left && p right) = false := by
  simp only [List.forIn_cons, List.forIn_nil]
  generalize p left = first
  generalize p right = second
  have reported (side : Ty) {fs : List Finding} (hs : f side ∈ fs) :
      ∃ g ∈ fs, g.code = .typeMismatch := ⟨f side, hs, hf side⟩
  cases first with
  | false =>
    apply iff_of_true _ rfl
    cases second with
    | false =>
      refine (reports_of [f left, f right] span ?_).mpr (reported left (by simp))
      exact List.append_assoc c.diagnostics [_] [_]
    | true => exact (reports_of [f left] span rfl).mpr (reported left (by simp))
  | true =>
    cases second with
    | false =>
      apply iff_of_true _ rfl
      exact (reports_of [f right] span rfl).mpr (reported right (by simp))
    | true => exact iff_of_false not_reports_pure Bool.true_eq_false.mp

theorem reports_binaryType {op : BinaryOperator} (hop : op ∈ BinaryOperator.all) (left right : Ty)
    (span : Option Span) (c : Checker) :
    Reports (binaryType op left right span) c ↔ Ty.binary? op left right = none := by
  cases op with
  | equal | unequal => exact iff_of_false not_reports_pure (Option.some_ne_none _)
  | and | or =>
    refine (reports_both (fun _ => rfl) _ _ _ _ _ _).trans ?_
    rw [Ty.binary?]
    split_ifs with h <;> simp [h]
  | less | lessEqual | greater | greaterEqual =>
    refine (reports_unless rfl _ _ _ _).trans ?_
    rw [Ty.binary?]
    split_ifs with h <;> simp [h]
  | add | sub | mul | div | mod =>
    simp only [binaryType, Ty.binary?]
    split_ifs
    iterate 4 exact iff_of_false not_reports_pure (by simp)
    exact iff_of_true (reports_mismatch rfl _ _) rfl
  | other => exact absurd hop (by simp [BinaryOperator.all])

theorem reports_unaryType (op : UnaryOperator) (operand : Ty) (span : Option Span) (c : Checker) :
    Reports (unaryType op operand span) c ↔ Ty.unary? op operand = none := by
  cases op with
  | not =>
    refine (reports_unless rfl _ _ _ _).trans ?_
    rw [Ty.unary?]
    split_ifs with h <;> simp [h]
  | neg | other =>
    simp only [unaryType, Ty.unary?]
    split_ifs
    · exact iff_of_false not_reports_pure (by simp)
    · exact iff_of_true (reports_mismatch rfl _ _) rfl

end Check

/-! ## How evaluation ends -/

namespace Eval

/-- Evaluation in a world ends with a mismatch of types. -/
def Mismatches {α : Type} (m : Eval α) (w : World) : Prop :=
  ∃ e, (m.run w).1 = .error (.error e) ∧ e.fault.kind = .typeMismatch

section

variable {α β : Type} {m : Eval α} {x : α} {w v : World}

/-- After what has a value it depends on the rest. -/
theorem mismatches_after (h : m.run w = (.ok x, v)) (k : α → Eval β) :
    Mismatches (m >>= k) w ↔ Mismatches (k x) v := by
  rw [Mismatches, run_bind, h]
  rfl

theorem Mismatches.before (h : Mismatches m w) (k : α → Eval β) : Mismatches (m >>= k) w := by
  obtain ⟨e, ended, kind⟩ := h
  refine ⟨e, ?_, kind⟩
  rw [run_bind]
  rcases hm : m.run w with ⟨_ | _, u⟩ <;> rw [hm] at ended <;> cases ended
  rfl

theorem not_mismatches_of_ok (h : m.run w = (.ok x, v)) : ¬ Mismatches m w := by
  rintro ⟨e, ended, -⟩
  rw [h] at ended
  cases ended

/-- What is made of a value does not matter. -/
theorem mismatches_map (m : Eval α) (k : α → β) (w : World) :
    Mismatches (do return k (← m)) w ↔ Mismatches m w := by
  constructor
  · rintro ⟨e, ended, kind⟩
    refine ⟨e, ?_, kind⟩
    rw [run_bind] at ended
    rcases hm : m.run w with ⟨_ | _, u⟩ <;> rw [hm] at ended <;> cases ended
    rfl
  · intro h
    exact h.before _

end

theorem mismatches_operated {α : Type} (r : Except OperatorFault α) (w : World) :
    Mismatches (operated r span) w ↔ Value.Mismatched r := by
  cases r with
  | ok c =>
    apply iff_of_false _ (Value.not_mismatched_ok c)
    rintro ⟨e, h, -⟩
    cases h
  | error fault =>
    constructor
    · rintro ⟨e, h, kind⟩
      cases h
      exact ⟨fault, rfl, kind⟩
    · rintro ⟨e, h, kind⟩
      cases h
      exact ⟨⟨.operator fault, span⟩, rfl, kind⟩

/-- A truth value is asked for. -/
theorem mismatches_requireBool (symbol : String) (a : Value) (span : Option Span) (w : World) :
    Mismatches (requireBool symbol a span) w ↔ ¬ ∃ x, a = .bool x := by
  unfold requireBool
  split
  · next x =>
    apply iff_of_false (not_mismatches_of_ok (x := x) rfl)
    exact not_not_intro ⟨x, rfl⟩
  · next other =>
    apply iff_of_true
    · exact ⟨_, rfl, rfl⟩
    · rintro ⟨x, rfl⟩
      exact other x rfl

/-- Two nodes are evaluated to two values, one after the other. -/
def Operands (eval : Node → FrameId → Eval Value) (left right : Node) (f : FrameId) (w : World)
    (a b : Value) : Prop :=
  ∃ u v, (eval left f).run w = (.ok a, u) ∧ (eval right f).run u = (.ok b, v)

variable {eval : Node → FrameId → Eval Value} {left right : Node} {f : FrameId} {w : World}
  {a b : Value} {op : BinaryOperator} {span : Option Span}

/-- An operator that always evaluates both operands. -/
theorem mismatches_binary (hop : op ∈ BinaryOperator.all) (both : op ∉ [.and, .or])
    (h : Operands eval left right f w a b) :
    Mismatches (binary eval span op left right f) w ↔ Ty.suits op a.type b.type = false := by
  obtain ⟨u, v, hl, hr⟩ := h
  have compared : Mismatches (do
      let a ← eval left f
      let b ← eval right f
      return Value.bool (← operated (a.compare op b) span) : Eval Value) w ↔
      Value.Mismatched (a.compare op b) := by
    rw [mismatches_after hl, mismatches_after hr, mismatches_map, mismatches_operated]
  have computed : Mismatches (do
      let a ← eval left f
      let b ← eval right f
      operated (a.arithmetic op b) span : Eval Value) w ↔
      Value.Mismatched (a.arithmetic op b) := by
    rw [mismatches_after hl, mismatches_after hr, mismatches_operated]
  cases op with
  | and | or => exact absurd (by decide) both
  | equal | unequal | less | lessEqual | greater | greaterEqual =>
    exact compared.trans (Value.mismatched_compare (by decide))
  | add | sub | mul | div | mod => exact computed.trans (Value.mismatched_arithmetic (by decide))
  | other => exact absurd hop (by simp [BinaryOperator.all])

/-- An operator that leaves out the right operand if the left one decides. -/
theorem mismatches_logical (hop : op ∈ [.and, .or]) (h : Operands eval left right f w a b) :
    Mismatches (binary eval span op left right f) w ↔
      ¬ ∃ x, a = .bool x ∧ (x = decide (op = .or) ∨ ∃ y, b = .bool y) := by
  obtain ⟨u, v, hl, hr⟩ := h
  have unfolded : binary eval span op left right f = (do
      let x ← requireBool op.symbol (← eval left f) left.span
      if x = decide (op = .or) then return .bool x
      else return .bool (← requireBool op.symbol (← eval right f) right.span)) := by
    simp only [List.mem_cons, List.not_mem_nil, or_false] at hop
    rcases hop with rfl | rfl <;> rfl
  rw [unfolded, mismatches_after hl]
  by_cases truth : ∃ x, a = .bool x
  · obtain ⟨x, rfl⟩ := truth
    rw [mismatches_after (x := x) (v := u) rfl]
    split_ifs with decides
    · apply iff_of_false (not_mismatches_of_ok rfl)
      exact not_not_intro ⟨x, rfl, .inl decides⟩
    · rw [mismatches_after hr, mismatches_map, mismatches_requireBool]
      apply not_congr
      constructor
      · intro truth
        exact ⟨x, rfl, .inr truth⟩
      · rintro ⟨y, hy, known | truth⟩
        · cases hy
          exact absurd known decides
        · exact truth
  · apply iff_of_true
    · exact ((mismatches_requireBool _ _ _ _).mpr truth).before _
    · rintro ⟨x, hx, -⟩
      exact truth ⟨x, hx⟩

/-- An operator on one operand. -/
theorem mismatches_unary {op : UnaryOperator} {operand : Node} {u : World}
    (h : (eval operand f).run w = (.ok a, u)) :
    Mismatches (unary eval span op operand f) w ↔
      if op = .not then a.type ≠ .bool else a.type.isNumeric = false := by
  unfold unary
  rw [mismatches_after h]
  cases op with
  | not => rw [if_pos rfl, mismatches_map, mismatches_requireBool, ne_eq, Value.type_eq_bool]
  | neg | other =>
    rw [if_neg (by simp)]
    split
    · contradiction
    · next n _ =>
      rw [Value.isNumeric_type.mpr ⟨n, rfl⟩]
      exact iff_of_false (not_mismatches_of_ok rfl) Bool.true_eq_false.mp
    · next noNumber _ =>
      apply iff_of_true ⟨_, rfl, rfl⟩
      rw [Bool.eq_false_iff, ne_eq, Value.isNumeric_type]
      rintro ⟨n, rfl⟩
      exact noNumber n rfl

end Eval

/-! ## The rules agree -/

section

variable {op : BinaryOperator} {l r : Ty}

/-- With operands of two values an operator ends with a mismatch of types. -/
def Eval.Refuses (span : Option Span) (op : BinaryOperator) (a b : Value) : Prop :=
  ∀ eval left right f w, Operands eval left right f w a b →
    Mismatches (binary eval span op left right f) w

/-- With operands of two values an operator does not end with a mismatch of types. -/
def Eval.Takes (span : Option Span) (op : BinaryOperator) (a b : Value) : Prop :=
  ∀ eval left right f w, Operands eval left right f w a b →
    ¬ Mismatches (binary eval span op left right f) w

/-- With operands of given types an operator ends with a mismatch of types unless it suits them. If
it may leave out the right operand, it does for some such operands. -/
theorem Eval.takes_of_suits (hop : op ∈ BinaryOperator.all) {a b : Value}
    (h : Ty.suits op a.type b.type) (span : Option Span) : Eval.Takes span op a b := by
  intro eval left right f w operands
  by_cases skips : op ∈ [.and, .or]
  · rw [mismatches_logical skips operands]
    apply not_not_intro
    have bools : a.type = .bool ∧ b.type = .bool := by
      simp only [List.mem_cons, List.not_mem_nil, or_false] at skips
      rcases skips with rfl | rfl <;> simpa [Ty.suits] using h
    obtain ⟨x, hx⟩ := Value.type_eq_bool.mp bools.1
    exact ⟨x, hx, .inr (Value.type_eq_bool.mp bools.2)⟩
  · rw [mismatches_binary hop skips operands, h]
    exact Bool.true_eq_false.mp

theorem Eval.refuses_of_not_suits (hop : op ∈ BinaryOperator.all) (both : op ∉ [.and, .or])
    {a b : Value} (h : Ty.suits op a.type b.type = false) (span : Option Span) :
    Eval.Refuses span op a b := by
  intro eval left right f w operands
  exact (mismatches_binary hop both operands).mpr h

theorem Eval.exists_refuses (hop : op ∈ [.and, .or]) (h : Ty.suits op l r = false)
    (hl : ∃ a : Value, a.type = l) (hr : ∃ b : Value, b.type = r) (span : Option Span) :
    ∃ a b : Value, a.type = l ∧ b.type = r ∧ Eval.Refuses span op a b := by
  obtain ⟨b, rfl⟩ := hr
  by_cases truth : l = .bool
  · subst truth
    refine ⟨.bool (!decide (op = .or)), b, rfl, rfl, ?_⟩
    intro eval left right f w operands
    rw [mismatches_logical hop operands]
    rintro ⟨x, hx, decides | ⟨y, rfl⟩⟩
    · cases hx
      simp at decides
    · simp only [List.mem_cons, List.not_mem_nil, or_false] at hop
      rcases hop with rfl | rfl <;> cases h
  · obtain ⟨a, rfl⟩ := hl
    refine ⟨a, b, rfl, rfl, ?_⟩
    intro eval left right f w operands
    rw [mismatches_logical hop operands]
    rintro ⟨x, rfl, -⟩
    exact truth rfl

/-- What the checker says of operands of two types, and what evaluation makes of them. -/
structure OperandsAgree (span : Option Span) (c : Checker) (op : BinaryOperator) (l r : Ty) :
    Prop where
  /-- Where nothing is reported, no operands of these types are mismatched. -/
  unreported : ¬ Check.Reports (Check.binaryType op l r span) c →
    ∀ a b : Value, a.type = l → b.type = r → Eval.Takes span op a b
  /-- Where something is reported, all such operands are, or some if the right one may be left
  out. -/
  reported : Check.Reports (Check.binaryType op l r span) c → ¬ Ty.StandsIn op l r →
    if op ∈ [.and, .or] then ∃ a b : Value, a.type = l ∧ b.type = r ∧ Eval.Refuses span op a b
    else ∀ a b : Value, a.type = l → b.type = r → Eval.Refuses span op a b
  /-- The report of a run that stands for a text is a false alarm. -/
  standsIn : Ty.StandsIn op l r → Check.Reports (Check.binaryType op l r span) c ∧
    ∀ a b : Value, a.type = l → b.type = r → Eval.Takes span op a b

theorem operandsAgree (hop : op ∈ BinaryOperator.all) (hl : ∃ a : Value, a.type = l)
    (hr : ∃ b : Value, b.type = r) (span : Option Span) (c : Checker) :
    OperandsAgree span c op l r := by
  have static : l.isDynamic = false ∧ r.isDynamic = false := by
    obtain ⟨a, rfl⟩ := hl
    obtain ⟨b, rfl⟩ := hr
    exact ⟨a.isDynamic_type, b.isDynamic_type⟩
  have reports : Check.Reports (Check.binaryType op l r span) c ↔
      Ty.suits op l r = false ∨ Ty.StandsIn op l r := by
    rw [Check.reports_binaryType hop, Ty.binary?_eq_none hop static.1 static.2]
  refine ⟨?_, ?_, ?_⟩
  · rintro unreported a b rfl rfl
    have suited := (not_or.mp (mt reports.mpr unreported)).1
    exact Eval.takes_of_suits hop (Bool.not_eq_false _ ▸ suited) span
  · intro reported stands
    have unsuited := (reports.mp reported).resolve_right stands
    split_ifs with skips
    · exact Eval.exists_refuses skips unsuited hl hr span
    · rintro a b rfl rfl
      exact Eval.refuses_of_not_suits hop skips unsuited span
  · intro stands
    refine ⟨reports.mpr (.inr stands), ?_⟩
    rintro a b rfl rfl
    exact Eval.takes_of_suits hop stands.suits span

/-- The rules of the checker for operators agree with evaluation on all operands of the types that
values have: those for two operands but for runs that stand for texts, those for one throughout. -/
theorem operators_agree (span : Option Span) (c : Checker) :
    (∀ op ∈ BinaryOperator.all, ∀ l r : Ty, (∃ a : Value, a.type = l) → (∃ b : Value, b.type = r) →
      OperandsAgree span c op l r) ∧
    ∀ (op : UnaryOperator) (a : Value) (eval : Node → FrameId → Eval Value) (operand : Node)
      (f : FrameId) (w u : World), (eval operand f).run w = (.ok a, u) →
      (Check.Reports (Check.unaryType op a.type span) c ↔
        Eval.Mismatches (Eval.unary eval span op operand f) w) := by
  constructor
  · intro op hop l r hl hr
    exact operandsAgree hop hl hr span c
  · intro op a eval operand f w u evaluated
    rw [Check.reports_unaryType, Ty.unary?_eq_none a.isDynamic_type,
      Eval.mismatches_unary evaluated]

/-- The sum of a number and a text is reported, and fails; that of a run and a text is reported, and
does not. -/
theorem operators_agree_sums :
    Check.Reports (Check.binaryType .add .int .string none) ⟨Scopes.empty, [], [], #[], 0⟩ ∧
      Eval.Mismatches (Eval.binary (Eval.evaluate none 1) none .add (.literal none (.int 1))
        (.literal none (.text "a")) rootFrame) World.initial ∧
      Check.Reports (Check.binaryType .add .command .string none) ⟨Scopes.empty, [], [], #[], 0⟩ ∧
      ¬ Eval.Mismatches (Eval.binary (Eval.evaluate none 1) none .add
        (.literal none (.run ⟨"echo", ["a"], 0, "a\n"⟩)) (.literal none (.text "b")) rootFrame)
        World.initial := by
  have rules := (operators_agree none ⟨Scopes.empty, [], [], #[], 0⟩).1 .add (by decide)
  have text : ∃ b : Value, b.type = .string := ⟨.string "a", rfl⟩
  have number := rules .int .string ⟨.int 1, rfl⟩ text
  have run := rules .command .string ⟨.run ⟨"echo", ["a"], 0, "a\n"⟩, rfl⟩ text
  have reported : Check.Reports (Check.binaryType .add .int .string none)
      ⟨Scopes.empty, [], [], #[], 0⟩ := ⟨_, List.mem_singleton_self _, rfl⟩
  have falseAlarm := run.standsIn (by decide)
  refine ⟨reported, ?_, falseAlarm.1, ?_⟩
  · have refused := number.reported reported (by decide)
    exact refused (.int 1) (.string "a") rfl rfl _ _ _ _ _ ⟨_, _, rfl, rfl⟩
  · exact falseAlarm.2 (.run ⟨"echo", ["a"], 0, "a\n"⟩) (.string "b") rfl rfl _ _ _ _ _
      ⟨_, _, rfl, rfl⟩

end

end Sigil
