import Mathlib.Data.List.Induction
import Sigil.Proofs.Number.Sign
import Sigil.Proofs.Token.Rules

/-!
# What tokens hold

The tokens of a text say what tokens can say (`Token.Proper`): a variable has
a name, an integer is short enough to be written, and so on. The inside of a
substitution is shorter than the text that it was read from, so that tokens
nest no deeper than their text is long (`View.tokens_within`).
-/

namespace Sigil

namespace StringPart

/-- Parts of a string as the reader cuts them. -/
def Proper (afterText : Bool) : List StringPart → Prop
  | [] => True
  | .text s :: ps => afterText = false ∧ s ≠ "" ∧ Proper true ps
  | .variable name default _ :: ps => Lexer.isReference name default ∧ Proper false ps
  | .substitution .. :: ps => Proper false ps

end StringPart

namespace Token

/-- The parts of a string; other tokens have none. -/
def parts (t : Token) : List StringPart :=
  match t.content with
  | .string parts => parts
  | _ => []

/-- A token says what the reader can make it say. -/
def Proper (t : Token) : Prop :=
  match t.content with
  | .variable name => Lexer.isReference name none
  | .defaulted name default => Lexer.isReference name (some default)
  | .word => Lexer.isWord t.lexeme
  | .integer n => Number.isWritable n
  | .float x => Number.isSpoken x
  | .string parts => StringPart.Proper false parts
  | _ => True

/-- Proper tokens up to the end of the text, at most `k` of them one after and within the
other. -/
def Within : Nat → List Token → Prop
  | _, [] => True
  | 0, t :: _ => t.content = .endOfInput
  | k + 1, t :: ts => t.content = .endOfInput ∨ t.Proper ∧ Within k ts ∧
      ∀ view span, .substitution view span ∈ t.parts → Within k view.tokens.tokens

theorem within_nil (k : Nat) : Within k [] := by
  cases k <;> trivial

theorem Within.mono {j k : Nat} {ts : List Token} (h : Within j ts) (hjk : j ≤ k) :
    Within k ts := by
  induction k generalizing j ts with
  | zero => exact Nat.le_zero.mp hjk ▸ h
  | succ k ih =>
    cases ts with
    | nil => exact within_nil _
    | cons t ts =>
      cases j with
      | zero => exact .inl h
      | succ j =>
        have hjk := Nat.le_of_succ_le_succ hjk
        exact h.imp_right fun ⟨ht, hts, hv⟩ =>
          ⟨ht, ih hts hjk, fun view span hm => ih (hv view span hm) hjk⟩

end Token

namespace Lexer

/-! ## References -/

theorem isWordChar_of_isNameChar {c : Char} (h : isNameChar c) : isWordChar c := by
  simp only [isNameChar, Bool.or_eq_true, decide_eq_true_eq] at h
  rcases h with h | rfl
  · simp [isWordChar, h]
  · decide

theorem isWordChar_of_isDigit {c : Char} (h : c.isDigit) : isWordChar c := by
  simp [isWordChar, Char.isAlphanum, h]

/-- A text without its quotes has no other characters. -/
theorem mem_of_mem_stripQuotes {cs : List Char} {c : Char} (h : c ∈ stripQuotes cs) : c ∈ cs := by
  unfold stripQuotes at h
  split at h
  · split at h
    · exact List.mem_of_mem_drop (List.dropLast_subset _ h)
    · simpa using h
  · exact h

theorem reference_isReference {cs : List Char} {ref : Reference} (h : reference cs = .ok ref) :
    isReference (String.ofList ref.name) (ref.default.map String.ofList) := by
  have named {name : List Char} (starts : name.head?.any isNameStart)
      (chars : ∀ c ∈ name, isNameChar c) : Parser.isName (String.ofList name) := by
    simpa [Parser.isName, starts] using chars
  cases reference_eq_ok_iff.mp h with
  | plain starts chars => simp [isReference, named starts chars]
  | braced rest starts chars => simp [isReference, named starts chars]
  | defaulted rest starts chars stop =>
    simp only [isReference, named starts chars, Option.map_some, Option.all_some,
      String.toList_ofList, Bool.true_and, decide_eq_true_eq]
    exact fun brace => stop (mem_of_mem_stripQuotes brace)

/-! ## Numbers -/

theorem digitsValue_append (ds : List Char) (d : Char) :
    NumberText.digitsValue (ds ++ [d]) =
      10 * NumberText.digitsValue ds + (d.toNat - '0'.toNat) := by
  simp [NumberText.digitsValue, List.foldl_append]

theorem digit_lt {c : Char} (h : c.isDigit) : c.toNat - '0'.toNat < 10 := by
  simp only [Char.isDigit, Bool.and_eq_true, decide_eq_true_eq] at h
  have : c.toNat ≤ '9'.toNat := h.2
  have : '9'.toNat = 57 := rfl
  have : '0'.toNat = 48 := rfl
  omega

/-- Digits stand for a number with as many digits. -/
theorem digitsValue_lt (ds : List Char) (h : ∀ d ∈ ds, d.isDigit) :
    NumberText.digitsValue ds < 10 ^ ds.length := by
  induction ds using List.reverseRecOn with
  | nil => decide
  | append_singleton ds d ih =>
    have := ih fun c hc => h c (List.mem_append_left _ hc)
    have := digit_lt (h d (List.mem_append_right _ (List.mem_singleton_self d)))
    rw [digitsValue_append, List.length_append, List.length_singleton, Nat.pow_succ]
    omega

/-- An integer that is read is short enough to be written. -/
theorem isWritable_of_content {cs : List Char} {n : Nat}
    (h : (numberText cs).content = .ok (.integer n)) : Number.isWritable n := by
  unfold NumberText.content at h
  split at h
  · split at h <;> cases h
    have digits := digitsValue_lt (numberText cs).whole fun d hd => List.mem_takeWhile_imp hd
    simp only [Number.isWritable, Int.natAbs_natCast, decide_eq_true_eq]
    exact Nat.lt_of_lt_of_le digits (Nat.pow_le_pow_right (by decide) ‹_›)
  · cases h

/-- A float that is read has no sign. -/
theorem isSpoken_of_content {t : NumberText} {x : Float} (h : t.content = .ok (.float x)) :
    Number.isSpoken x := by
  unfold NumberText.content at h
  split at h
  · split at h <;> cases h
  · cases h
    exact Decimal.isSpoken_toFloat _

/-! ## Strings -/

/-- Parts cut from a text of `k` characters. -/
structure CutFrom (k : Nat) (parts : List StringPart) : Prop where
  proper : StringPart.Proper false parts
  shorter : ∀ view span, .substitution view span ∈ parts →
    view.inside.length + view.beyond.length ≤ k

theorem CutFrom.mono {j k : Nat} {parts : List StringPart} (h : CutFrom j parts) (hjk : j ≤ k) :
    CutFrom k parts :=
  ⟨h.proper, fun view span hm => Nat.le_trans (h.shorter view span hm) hjk⟩

/-- A text in front of nothing, or of a part that is no text. -/
theorem CutFrom.prependText {k : Nat} {text : List Char} {parts : List StringPart}
    (h : CutFrom k parts) (ht : StringPart.Proper true parts) :
    CutFrom k (prependText text parts) := by
  unfold Lexer.prependText
  split
  · exact h
  · refine ⟨⟨rfl, fun e => ?_, ht⟩, fun view span hm => h.shorter view span (by simpa using hm)⟩
    simp_all

theorem ReadsParts.cutFrom {p : Position} {text cs : List Char} {parts : List StringPart} {n : Nat}
    (h : ReadsParts p text cs parts n) : CutFrom cs.length parts := by
  induction h with
  | quote rest => exact CutFrom.prependText ⟨trivial, fun _ _ h => by cases h⟩ trivial
  | escaped means more ih => exact ih.mono (by simp only [List.length_cons]; omega)
  | @substitution p text inside rest parts n closed more ih =>
    have tail : CutFrom ('$' :: '(' :: (inside ++ ')' :: rest)).length parts :=
      ih.mono (by simp only [List.length_cons, List.length_append]; omega)
    refine CutFrom.prependText ⟨tail.proper, fun view span hv => ?_⟩ tail.proper
    rcases List.mem_cons.mp hv with e | hv
    · cases e
      simp only [List.length_cons, List.length_append]
      omega
    · exact tail.shorter view span hv
  | @«variable» p text taken rest name default parts n refers more ih =>
    have tail : CutFrom ('$' :: (taken ++ rest)).length parts :=
      ih.mono (by simp only [List.length_cons, List.length_append]; omega)
    have named := reference_isReference refers
    refine CutFrom.prependText ⟨⟨named, tail.proper⟩, fun view span hv => ?_⟩ ⟨named, tail.proper⟩
    exact tail.shorter view span (by simpa using hv)
  | char quote backslash sigil more ih => exact ih.mono (Nat.le_succ _)

/-! ## Tokens -/

theorem isWord_takeWhile (c : Char) (cs : List Char) (h : startsWord (c :: cs)) :
    isWord (String.ofList (c :: cs.takeWhile isWordChar)) := by
  have starts : startsWord (c :: cs.takeWhile isWordChar) := by
    cases cs with
    | nil => exact h
    | cons d ds =>
      -- what a slash or a dash needs after it belongs to the word
      by_cases hd : isWordChar d
      · rw [List.takeWhile_cons_of_pos hd]
        simpa [startsWord_cons] using h
      · rw [List.takeWhile_cons_of_neg hd]
        simp only [isWordChar, Char.isAlphanum] at hd
        simp [startsWord_cons] at h ⊢
        grind
  simp [isWord, starts]

/-- What a token is read to say. -/
theorem content_proper {p : Position} {c : Char} {inside beyond : List Char}
    {said : Token.Content} {n : Nat} (span : Span)
    (h : content p c inside beyond = .ok (said, n)) :
    Token.Proper ⟨said, String.ofList ((c :: inside ++ beyond).take (n + 1)), span⟩ ∧
      ∀ parts, said = .string parts → CutFrom (inside.length + beyond.length) parts := by
  rw [← List.length_append]
  cases content_eq_ok_iff.mp h with
  | opening | operator | mark => exact ⟨trivial, by rintro _ ⟨⟩⟩
  | «variable» refers | defaulted refers =>
    have named := reference_isReference refers
    exact ⟨named, by rintro _ ⟨⟩⟩
  | string cut => exact ⟨cut.cutFrom.proper, by rintro _ ⟨⟩; exact cut.cutFrom⟩
  | @raw _ _ text rest parted plain =>
    have cut : CutFrom (inside ++ beyond).length (prependText text []) :=
      CutFrom.prependText ⟨trivial, fun _ _ h => by cases h⟩ trivial
    exact ⟨cut.proper, by rintro _ ⟨⟩; exact cut⟩
  | integer beyond digit value => exact ⟨isWritable_of_content value, by rintro _ ⟨⟩⟩
  | float beyond digit value => exact ⟨isSpoken_of_content value, by rintro _ ⟨⟩⟩
  | word beyond starts =>
    refine ⟨?_, by rintro _ ⟨⟩⟩
    have word := isWord_takeWhile c inside starts
    have whole : (c :: inside ++ beyond).take ((inside.takeWhile isWordChar).length + 1) =
        c :: inside.takeWhile isWordChar := by
      obtain ⟨rest, hr⟩ := List.takeWhile_prefix isWordChar (l := inside)
      generalize inside.takeWhile isWordChar = word at hr ⊢
      simp [← hr]
    rw [← whole] at word
    exact word

end Lexer

namespace View

/-- How many characters lie ahead. -/
def length (v : View) : Nat :=
  v.inside.length + v.beyond.length

theorem length_advance (v : View) (n : Nat) : (v.advance n).length ≤ v.length - n := by
  simp only [length, advance, List.length_drop]
  omega

/-- The tokens of a view nest no deeper than it is long. -/
theorem tokens_within (v : View) : Token.Within v.length v.tokens.tokens := by
  induction hk : v.length using Nat.strongRecOn generalizing v with
  | ind k ih =>
    subst hk
    rw [View.tokens]
    have gap := length_advance v (Lexer.gapLength false v.inside)
    revert gap
    generalize v.advance (Lexer.gapLength false v.inside) = w
    intro gap
    dsimp only
    split
    · exact Token.Within.mono (j := 0) rfl (Nat.zero_le _)
    · next c cs hw =>
      split
      · exact Token.within_nil _
      · next said n hs =>
        obtain ⟨proper, cut⟩ :=
          Lexer.content_proper ⟨w.position, (w.advance (n + 1)).position⟩ hs
        have length : w.length = cs.length + w.beyond.length + 1 := by
          rw [View.length, hw, List.length_cons]
          omega
        have rest := length_advance w (n + 1)
        obtain ⟨k, hk⟩ : ∃ k, v.length = k + 1 := ⟨v.length - 1, by omega⟩
        rw [hk]
        refine .inr ⟨hw ▸ proper, ?_, fun view span hm => ?_⟩
        · exact (ih _ (by omega) _ rfl).mono (by omega)
        · cases said with
          | string parts =>
            have shorter : view.length ≤ k :=
              Nat.le_trans ((cut parts rfl).shorter view span hm) (by omega)
            exact (ih _ (by omega) view rfl).mono shorter
          | _ => cases hm

end View

end Sigil
