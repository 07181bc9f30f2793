import Sigil.Node.Printer
import Sigil.Proofs.Token.Proper

/-!
# The text of numbers

Numbers as the reader of tokens cuts them. A number that is put together from
digits as numbers are (`NumberText.Formed`) is cut where it ends, whatever
follows it (`numberText_source`), so that `IsNumber cs content` says that the
text `cs` is a number which says `content`. Integers are such numbers
(`isNumber_int`), and so are floats without a sign if they are read back from
their text at all (`isNumber_float`).
-/

namespace Sigil

namespace Lexer

namespace NumberText

/-- A number as the reader cuts them. -/
structure Formed (t : NumberText) : Prop where
  whole : ∀ c ∈ t.whole, c.isDigit
  nonempty : t.whole ≠ []
  fraction : ∀ c ∈ t.fraction, c.isDigit
  exponent : ∀ e ∈ t.exponent, e.1 ∈ [[], ['+'], ['-']] ∧ e.2 ≠ [] ∧ ∀ c ∈ e.2, c.isDigit

/-- The text after the digits before the point. -/
def pointSource (t : NumberText) : List Char :=
  if t.fraction.isEmpty then [] else '.' :: t.fraction

/-- The text of the exponent. -/
def exponentSource (t : NumberText) : List Char :=
  match t.exponent with
  | none => []
  | some (sign, ds) => 'e' :: (sign ++ ds)

/-- The text of a number. -/
def source (t : NumberText) : List Char :=
  t.whole ++ (t.pointSource ++ t.exponentSource)

theorem length_source (t : NumberText) : t.source.length = t.length := by
  unfold source pointSource exponentSource length
  cases t.exponent <;> cases t.fraction.isEmpty <;> (simp; try omega)

end NumberText

/-- What a number does not go on with. -/
def EndsNumber (rest : List Char) : Prop :=
  ∀ c ∈ rest.head?, c.isDigit = false ∧ c ∉ ['.', 'e', 'E']

theorem exponentText_source {t : NumberText} (h : t.Formed) {rest : List Char}
    (hr : EndsNumber rest) : exponentText (t.exponentSource ++ rest) = t.exponent := by
  unfold NumberText.exponentSource
  cases he : t.exponent with
  | none =>
    cases rest with
    | nil => rfl
    | cons c rest =>
      have := (hr c rfl).2
      simp only [List.mem_cons, not_or] at this
      simp [exponentText, this]
  | some e =>
    obtain ⟨sign, ds⟩ := e
    obtain ⟨hs, hne, hd⟩ := h.exponent _ he
    obtain ⟨d, ds, rfl⟩ := List.exists_cons_of_ne_nil hne
    have digits : ((d :: ds) ++ rest).takeWhile Char.isDigit = d :: ds :=
      takeWhile_append_of_stop hd fun c hc => (hr c hc).1
    rw [List.cons_append] at digits
    have digit : d.isDigit := hd d List.mem_cons_self
    simp only [List.mem_cons, List.not_mem_nil, or_false] at hs
    rcases hs with rfl | rfl | rfl
    · have plus : d ≠ '+' := by rintro rfl; revert digit; decide
      have minus : d ≠ '-' := by rintro rfl; revert digit; decide
      simp [exponentText, plus, minus, digits]
    · simp [exponentText, digits]
    · simp [exponentText, digits]

/-- Where the exponent or what follows it starts, the digits have ended. -/
theorem exponentSource_stops {t : NumberText} {rest : List Char} (hr : EndsNumber rest) :
    ∀ c ∈ (t.exponentSource ++ rest).head?, c.isDigit = false ∧ c ≠ '.' := by
  unfold NumberText.exponentSource
  cases t.exponent with
  | none =>
    intro c hc
    have := hr c hc
    simp only [List.mem_cons, not_or] at this
    exact ⟨this.1, this.2.1⟩
  | some e =>
    rintro c hc
    cases hc
    decide

theorem pointSource_stops {t : NumberText} {rest : List Char} (hr : EndsNumber rest) :
    ∀ c ∈ (t.pointSource ++ (t.exponentSource ++ rest)).head?, c.isDigit = false := by
  unfold NumberText.pointSource
  split
  · exact fun c hc => (exponentSource_stops hr c hc).1
  · rintro c hc
    cases hc
    decide

/-- A number is cut where it ends. -/
theorem numberText_source {t : NumberText} (h : t.Formed) {rest : List Char}
    (hr : EndsNumber rest) : numberText (t.source ++ rest) = t := by
  have whole : (t.source ++ rest).takeWhile Char.isDigit = t.whole := by
    rw [NumberText.source, List.append_assoc, List.append_assoc]
    exact takeWhile_append_of_stop h.whole (pointSource_stops hr)
  have afterWhole : (t.source ++ rest).drop t.whole.length =
      t.pointSource ++ (t.exponentSource ++ rest) := by
    rw [NumberText.source, List.append_assoc, List.append_assoc, List.drop_left]
  have fraction : fractionText (t.pointSource ++ (t.exponentSource ++ rest)) = t.fraction := by
    unfold NumberText.pointSource
    split
    · next hf =>
      rw [List.isEmpty_iff.mp hf, List.nil_append]
      have stops := exponentSource_stops (t := t) hr
      unfold fractionText
      split
      · next heq => exact absurd rfl (stops '.' (by rw [heq]; rfl)).2
      · rfl
    · exact takeWhile_append_of_stop h.fraction fun c hc => (exponentSource_stops hr c hc).1
  have afterFraction :
      (if t.fraction.isEmpty then t.pointSource ++ (t.exponentSource ++ rest)
        else (t.pointSource ++ (t.exponentSource ++ rest)).drop (t.fraction.length + 1)) =
      t.exponentSource ++ rest := by
    unfold NumberText.pointSource
    split <;> simp
  simp only [numberText, whole, afterWhole, fraction, afterFraction, exponentText_source h hr]

/-- Whether a text is a number that says something. -/
def IsNumber (cs : List Char) (said : Token.Content) : Prop :=
  ∃ t : NumberText, t.Formed ∧ t.source = cs ∧ t.content = .ok said

theorem isDigit_of_mem_toDigits {n : Nat} {c : Char} (h : c ∈ Nat.toDigits 10 n) : c.isDigit :=
  Nat.isDigit_of_mem_toDigits (by decide) (by decide) h

theorem isNumber_int {n : Nat} (h : Number.isWritable n) :
    IsNumber (Nat.toDigits 10 n) (.integer n) := by
  refine ⟨⟨Nat.toDigits 10 n, [], none⟩,
    ⟨fun _ => isDigit_of_mem_toDigits, Nat.toDigits_ne_nil, nofun, nofun⟩, ?_, ?_⟩
  · simp [NumberText.source, NumberText.pointSource, NumberText.exponentSource]
  · simp only [Number.isWritable, Int.natAbs_natCast, decide_eq_true_eq] at h
    have short : (Nat.toDigits 10 n).length ≤ Number.maxDigits :=
      (Nat.length_toDigits_le_iff (by decide) (by decide)).mpr h
    have value : NumberText.digitsValue (Nat.toDigits 10 n) = n := Nat.ofDigitChars_ten_toDigits
    simp only [NumberText.content, List.isEmpty_nil, Option.isNone_none, Bool.and_self, if_true,
      if_pos short, value]

/-! ## Floats -/

/-- A decimal is laid out as a number. -/
theorem layOut_formed (style : Decimal.Layout) (d : Decimal) :
    ∃ t : NumberText, t.Formed ∧ t.source = d.layOut style := by
  unfold Decimal.layOut
  have digits : ∀ c ∈ Nat.toDigits 10 d.digits, c.isDigit := fun _ => isDigit_of_mem_toDigits
  have nonempty : Nat.toDigits 10 d.digits ≠ [] := Nat.toDigits_ne_nil
  generalize Nat.toDigits 10 d.digits = ds at digits nonempty ⊢
  have zero {n : Nat} {c : Char} (hc : c ∈ Decimal.zeros n) : c.isDigit := by
    rw [List.eq_of_mem_replicate hc]
    decide
  have length := List.length_pos_iff.mpr nonempty
  dsimp only
  split
  · split
    · refine ⟨⟨['0'], Decimal.zeros (-(ds.length + d.exponent)).toNat ++ ds, none⟩,
        ⟨by simp, nofun, fun c hc => ?_, nofun⟩, ?_⟩
      · exact (List.mem_append.mp hc).elim zero (digits c)
      · simp [NumberText.source, NumberText.pointSource, NumberText.exponentSource, nonempty]
    split
    · refine ⟨⟨ds ++ Decimal.zeros (ds.length + d.exponent - ds.length).toNat, ['0'], none⟩,
        ⟨fun c hc => ?_, by simp [nonempty], by simp, nofun⟩, ?_⟩
      · exact (List.mem_append.mp hc).elim (digits c) zero
      · simp [NumberText.source, NumberText.pointSource, NumberText.exponentSource]
    · refine ⟨⟨ds.take (ds.length + d.exponent).toNat, ds.drop (ds.length + d.exponent).toNat,
        none⟩, ⟨fun c hc => digits c (List.mem_of_mem_take hc), ?_,
          fun c hc => digits c (List.mem_of_mem_drop hc), nofun⟩, ?_⟩
      · rw [← List.length_pos_iff, List.length_take]
        omega
      · have : ds.drop (ds.length + d.exponent).toNat ≠ [] := by
          rw [← List.length_pos_iff, List.length_drop]
          omega
        simp [NumberText.source, NumberText.pointSource, NumberText.exponentSource, this]
  · refine ⟨⟨ds.take 1, ds.drop 1, some ([if (ds.length + d.exponent - 1 : Int) < 0 then '-' else '+'],
      Decimal.zeros (style.exponentDigits -
        (Nat.toDigits 10 (ds.length + d.exponent - 1 : Int).natAbs).length) ++
        Nat.toDigits 10 (ds.length + d.exponent - 1 : Int).natAbs)⟩,
      ⟨fun c hc => digits c (List.mem_of_mem_take hc), ?_,
        fun c hc => digits c (List.mem_of_mem_drop hc), ?_⟩, ?_⟩
    · rw [← List.length_pos_iff, List.length_take]
      omega
    · rintro e he
      cases he
      refine ⟨?_, by simp, fun c hc => ?_⟩
      · split <;> simp
      · exact (List.mem_append.mp hc).elim zero isDigit_of_mem_toDigits
    · obtain ⟨a, as, rfl⟩ := List.exists_cons_of_ne_nil nonempty
      cases as <;> simp [NumberText.source, NumberText.pointSource, NumberText.exponentSource]

end Lexer

namespace Number

/-- A finite float is read back from its text. -/
def ReadsBack (x : Float) : Prop :=
  ∀ significand exponent, Binary.ofFloat x = .finite false significand exponent →
    (Lexer.numberText (floatText x).toList).content = .ok (.float x)

/-- A float as scripts write it. -/
def floatSource (x : Float) : List Char :=
  if Binary.ofFloat x = .infinite false then "1e999".toList else (floatText x).toList

/-- Floats with the same bits are the same. -/
theorem float_ext {x y : Float} (h : x.toBits = y.toBits) : x = y := by
  obtain ⟨⟨a, ha⟩⟩ := x
  obtain ⟨⟨b, hb⟩⟩ := y
  cases show a = b from h
  rfl

theorem toBits_infinite {x : Float} (h : Binary.ofFloat x = .infinite false) :
    x.toBits.toNat = 2047 * 2 ^ 52 := by
  unfold Binary.ofFloat at h
  dsimp only at h
  have := x.toBits.toNat_lt
  split at h
  · split at h
    · simp only [Binary.infinite.injEq, decide_eq_false_iff_not] at h
      omega
    · cases h
  · split at h <;> cases h

/-- The text of the infinite float is a number that is too large. -/
theorem isNumber_infinite {x : Float} (h : Binary.ofFloat x = .infinite false) :
    Lexer.IsNumber "1e999".toList (.float x) := by
  refine ⟨⟨['1'], [], some ([], ['9', '9', '9'])⟩,
    ⟨List.all_eq_true.mp rfl, nofun, nofun, ?_⟩, rfl, ?_⟩
  · rintro e he
    cases he
    exact ⟨by decide, nofun, List.all_eq_true.mp rfl⟩
  · have large : (Float.ofScientific 1 false 400).toBits.toNat = 2047 * 2 ^ 52 := by
      decide +kernel
    have same : Float.ofScientific 1 false 400 = x :=
      float_ext (UInt64.toNat_inj.mp (large.trans (toBits_infinite h).symm))
    rw [← same]
    rfl

/-- A float that scripts can write is a number there. -/
theorem isNumber_float {x : Float} (h : isSpoken x) (hr : ReadsBack x) :
    Lexer.IsNumber (floatSource x) (.float x) := by
  unfold floatSource
  split
  · exact isNumber_infinite ‹_›
  · unfold isSpoken at h
    split at h
    · next significand exponent hx =>
      obtain ⟨t, formed, source⟩ : ∃ t : Lexer.NumberText, t.Formed ∧
          t.source = (floatText x).toList := by
        simp only [floatText, hx, Bool.false_eq_true, if_false, String.toList_ofList]
        split
        · exact ⟨⟨['0'], ['0'], none⟩,
          ⟨List.all_eq_true.mp rfl, nofun, List.all_eq_true.mp rfl, nofun⟩, rfl⟩
        · exact Lexer.layOut_formed floatLayout (Decimal.shortest significand exponent)
      have reads := hr significand exponent hx
      rw [← source, ← List.append_nil t.source, Lexer.numberText_source formed (by simp [Lexer.EndsNumber])] at reads
      exact ⟨t, formed, source, reads⟩
    · contradiction
    · cases h

end Number

end Sigil
