import Sigil.Proofs.Token.Placed

/-!
# What a token depends on

A token is read by its own characters. What comes after them matters only in
that nothing goes on with the token: if a text is cut off some way behind the
token, or goes on there with something that ends every token, the same token is
read from it, wherever it stands (`content_local`). For strings this holds of
each part in turn (`ReadsParts.local`); the inside of a substitution is the
same view, and ends at the parenthesis that closes it (`StringPart.Kin`).
-/

namespace Sigil

/-- Two parts of strings that say the same, wherever they stand. The inside of a substitution ends
at the parenthesis that closes it. -/
inductive StringPart.Kin : StringPart → StringPart → Prop
  | text (s : String) : Kin (.text s) (.text s)
  | variable (name : String) (default : Option String) (s s' : Span) :
    Kin (.variable name default s) (.variable name default s')
  | substitution {p p' : Position} (inside : List Char) {beyond beyond' : List Char}
    {s s' : Span} :
    Kin (.substitution ⟨p, inside, ')' :: beyond⟩ s) (.substitution ⟨p', inside, ')' :: beyond'⟩ s')

/-- Whether a token is a string. -/
def Token.Content.isString : Token.Content → Bool
  | .string _ => true
  | _ => false

/-- Two tokens say the same. -/
inductive Token.Content.Kin : Token.Content → Token.Content → Prop
  | string {ps qs : List StringPart} (h : List.Forall₂ StringPart.Kin ps qs) :
    Kin (.string ps) (.string qs)
  | plain {c : Token.Content} (h : c.isString = false) : Kin c c

namespace Lexer

/-! ## Cutting a text off behind a piece -/

/-- Characters that are found within a text are found in it alone. -/
theorem takeWhile_cut {p : Char → Bool} {cs : List Char} (rest : List Char)
    (h : ((cs ++ rest).takeWhile p).length ≤ cs.length) :
    cs.takeWhile p = (cs ++ rest).takeWhile p := by
  rw [List.takeWhile_append] at h ⊢
  split_ifs at h ⊢ with whole
  · rw [List.length_append] at h
    have none : rest.takeWhile p = [] := List.length_eq_zero_iff.mp (by omega)
    rw [none, List.append_nil]
    exact (List.takeWhile_prefix p).eq_of_length whole
  · rfl

theorem fractionText_cut {cs rest : List Char}
    (h : (if (fractionText (cs ++ rest)).isEmpty then 0
      else (fractionText (cs ++ rest)).length + 1) ≤ cs.length) :
    fractionText cs = fractionText (cs ++ rest) := by
  cases cs with
  | nil =>
    rw [List.nil_append] at h ⊢
    split_ifs at h with none
    · rw [List.isEmpty_iff.mp none]
      rfl
    · exact absurd h (Nat.not_succ_le_zero _)
  | cons c cs =>
    by_cases point : c = '.'
    · subst point
      refine takeWhile_cut rest ?_
      split_ifs at h with none
      · rw [show (cs ++ rest).takeWhile Char.isDigit = [] from List.isEmpty_iff.mp none]
        exact Nat.zero_le _
      · exact Nat.le_of_succ_le_succ h
    · simp [fractionText, point]

/-- An exponent has a mark and a digit. -/
theorem exponentText_short {cs : List Char}
    (h : NumberText.length ⟨[], [], exponentText cs⟩ ≤ 1) : exponentText cs = none := by
  cases some : exponentText cs with
  | none => rfl
  | some r =>
    rw [some] at h
    unfold exponentText at some
    split at some
    · split_ifs at some
      dsimp only at some
      split at some <;> cases some
      next digits =>
      have digits := List.length_pos_iff.mpr digits
      simp only [NumberText.length, List.length_nil, List.isEmpty_nil, if_true] at h
      omega
    · cases some

theorem exponentText_cut {cs : List Char} (rest : List Char)
    (h : NumberText.length ⟨[], [], exponentText (cs ++ rest)⟩ ≤ cs.length) :
    exponentText cs = exponentText (cs ++ rest) := by
  rcases cs with _ | ⟨e, _ | ⟨d, cs⟩⟩
  · rw [exponentText_short (h.trans (Nat.zero_le 1))]
    rfl
  · rw [exponentText_short h]
    simp [exponentText]
  -- digits that are cut off would make the number longer than the text
  have digits {ds : List Char} (within : ∀ d es, (ds ++ rest).takeWhile Char.isDigit = d :: es →
      es.length + 1 ≤ ds.length) :
      ds.takeWhile Char.isDigit = (ds ++ rest).takeWhile Char.isDigit := by
    refine takeWhile_cut rest ?_
    cases some : (ds ++ rest).takeWhile Char.isDigit with
    | nil => exact Nat.zero_le _
    | cons d es => exact within d es some
  by_cases mark : e = 'e' ∨ e = 'E'
  · by_cases plus : d = '+'
    · subst plus
      have same : cs.takeWhile Char.isDigit = (cs ++ rest).takeWhile Char.isDigit :=
        digits fun d es some => by
          simp [exponentText, mark, some, NumberText.length] at h
          omega
      simp [exponentText, mark, same]
    · by_cases minus : d = '-'
      · subst minus
        have same : cs.takeWhile Char.isDigit = (cs ++ rest).takeWhile Char.isDigit :=
          digits fun d es some => by
            simp [exponentText, mark, some, NumberText.length] at h
            omega
        simp [exponentText, mark, same]
      · have same : (d :: cs).takeWhile Char.isDigit = (d :: cs ++ rest).takeWhile Char.isDigit :=
          digits fun x es some => by
            rw [List.cons_append] at some
            simpa [exponentText, mark, plus, minus, some, NumberText.length] using h
        rw [List.cons_append] at same
        simp [exponentText, mark, plus, minus, same]
  · simp [exponentText, mark]

theorem numberText_cut (cs : List Char) {rest : List Char}
    (h : (numberText (cs ++ rest)).length ≤ cs.length) :
    numberText cs = numberText (cs ++ rest) := by
  unfold numberText at h ⊢
  dsimp only at h ⊢
  rw [NumberText.length_eq] at h
  dsimp only at h
  have whole : cs.takeWhile Char.isDigit = (cs ++ rest).takeWhile Char.isDigit :=
    takeWhile_cut rest (by omega)
  have within : (cs.takeWhile Char.isDigit).length ≤ cs.length := (List.takeWhile_prefix _).length_le
  simp only [← whole, List.drop_append_of_le_length within] at h ⊢
  have length : (cs.drop (cs.takeWhile Char.isDigit).length).length =
      cs.length - (cs.takeWhile Char.isDigit).length := List.length_drop
  generalize cs.drop (cs.takeWhile Char.isDigit).length = left at *
  have fraction : fractionText left = fractionText (left ++ rest) := fractionText_cut (by omega)
  simp only [← fraction] at h ⊢
  by_cases none : fractionText left = []
  · simp only [none, List.isEmpty_nil, if_true] at h ⊢
    rw [exponentText_cut rest (by omega)]
  · have proper := length_fractionText none
    have some : ¬ (fractionText left).isEmpty := by simpa using none
    simp only [if_neg some, List.drop_append_of_le_length proper] at h ⊢
    rw [exponentText_cut rest (by rw [List.length_drop]; omega)]

/-- What makes a word of a slash or a dash belongs to the word. -/
theorem startsWord_cut {c : Char} {cs rest : List Char}
    (h : startsWord (c :: (cs ++ rest)) → ((cs ++ rest).takeWhile isWordChar).length ≤ cs.length) :
    startsWord (c :: cs) = startsWord (c :: (cs ++ rest)) := by
  rcases cs with _ | ⟨d, cs⟩
  · rw [List.nil_append] at h ⊢
    rcases rest with _ | ⟨d, rest⟩
    · rfl
    by_cases word : isWordChar d
    · have no : startsWord (c :: d :: rest) = false := Bool.eq_false_iff.mpr fun starts => by
        have none := h starts
        rw [List.takeWhile_cons_of_pos word] at none
        exact absurd none (Nat.not_succ_le_zero _)
      rw [startsWord_cons] at no ⊢
      simp_all
    · rw [startsWord_cons, startsWord_cons]
      simp only [isWordChar, Char.isAlphanum] at word
      simp at word ⊢
      grind
  · rw [List.cons_append, startsWord_cons, startsWord_cons]
    rfl

/-- An operator that is found within a text is found in it alone. -/
theorem findOperator_cut (cs : List Char) {rest : List Char} (h : ∀ op : String,
    (operators.find? fun op => op.toList.isPrefixOf (cs ++ rest)) = some op →
      op.length ≤ cs.length) :
    (operators.find? fun op => op.toList.isPrefixOf cs) =
      operators.find? fun op => op.toList.isPrefixOf (cs ++ rest) := by
  generalize operators = ops at h ⊢
  induction ops with
  | nil => rfl
  | cons op ops ih =>
    have longer (found : op.toList.isPrefixOf cs) : op.toList.isPrefixOf (cs ++ rest) :=
      List.isPrefixOf_iff_prefix.mpr
        ((List.isPrefixOf_iff_prefix.mp found).trans (List.prefix_append cs rest))
    rw [List.find?_cons, List.find?_cons]
    rw [List.find?_cons] at h
    cases whole : op.toList.isPrefixOf (cs ++ rest) with
    | true =>
      rw [whole] at h
      have within := h op rfl
      have start := List.isPrefixOf_iff_prefix.mp whole
      rw [← String.length_toList] at within
      have found : op.toList.isPrefixOf cs := List.isPrefixOf_iff_prefix.mpr
        (List.prefix_of_prefix_length_le start (List.prefix_append cs rest) within)
      rw [found]
    | false =>
      rw [whole] at h
      have found : op.toList.isPrefixOf cs = false :=
        Bool.eq_false_iff.mpr fun found => by rw [longer found] at whole; cases whole
      rw [found]
      exact ih h

/-! ## References -/

/-- A reference is read by its own characters, unless it is a name that goes on. -/
theorem reference_local {cs rest rest' : List Char} {ref : Reference}
    (h : reference (cs ++ rest) = .ok ref) (length : ref.length = cs.length)
    (clear : ∀ c ∈ rest'.head?, isNameChar c → c ∈ rest.head?) :
    reference (cs ++ rest') = .ok ref := by
  refine ReadsReference.read ?_
  generalize whole : cs ++ rest = ds at h
  cases reference_eq_ok_iff.mp h with
  | @plain name left starts chars stop =>
    obtain ⟨rfl, rfl⟩ := List.append_inj whole length.symm
    refine .plain starts chars fun c hc => Bool.eq_false_iff.mpr fun goesOn => ?_
    have no := stop c (clear c hc goesOn)
    rw [goesOn] at no
    cases no
  | @braced name left starts chars =>
    obtain ⟨rfl, rfl⟩ : cs = '\x7b' :: (name ++ ['\x7d']) ∧ rest = left :=
      List.append_inj (by simp [whole]) (by simp at length ⊢; omega)
    simpa using ReadsReference.braced rest' starts chars
  | @defaulted name text left starts chars stop =>
    obtain ⟨rfl, rfl⟩ : cs = '\x7b' :: (name ++ ':' :: '-' :: (text ++ ['\x7d'])) ∧ rest = left :=
      List.append_inj (by simp [whole]) (by simp at length ⊢; omega)
    simpa using ReadsReference.defaulted rest' starts chars stop

/-! ## Strings -/

theorem prependText_kin (text : List Char) {ps qs : List StringPart}
    (h : List.Forall₂ StringPart.Kin ps qs) :
    List.Forall₂ StringPart.Kin (prependText text ps) (prependText text qs) := by
  unfold prependText
  split
  · exact h
  · exact .cons (.text _) h

theorem ReadsParts.pos {p : Position} {text cs : List Char} {parts : List StringPart} {n : Nat}
    (h : ReadsParts p text cs parts n) : 0 < n := by
  cases h <;> exact Nat.succ_pos _

theorem append_eq_cons {cs rest ds : List Char} {c : Char} (h : cs ++ rest = c :: ds)
    (some : 0 < cs.length) : ∃ cs', cs = c :: cs' ∧ cs' ++ rest = ds := by
  cases cs with
  | nil => exact absurd some (Nat.lt_irrefl 0)
  | cons d cs => cases h; exact ⟨cs, rfl, rfl⟩

/-- A text that goes on beyond the first part of another one has that part. -/
theorem append_eq_append {cs rest taken left : List Char} (h : cs ++ rest = taken ++ left)
    (within : taken.length ≤ cs.length) : ∃ cs', cs = taken ++ cs' ∧ cs' ++ rest = left := by
  obtain ⟨cs', rfl⟩ := List.prefix_of_prefix_length_le (h ▸ List.prefix_append taken left)
    (List.prefix_append cs rest) within
  rw [List.append_assoc] at h
  exact ⟨cs', rfl, List.append_cancel_left h⟩

/-- The parts of a string are read by its own characters. -/
theorem ReadsParts.local {p : Position} {text cs rest : List Char} {parts : List StringPart}
    {n : Nat} (h : ReadsParts p text (cs ++ rest) parts n) (within : n ≤ cs.length)
    (p' : Position) (rest' : List Char) :
    ∃ parts', ReadsParts p' text (cs ++ rest') parts' n ∧
      List.Forall₂ StringPart.Kin parts parts' := by
  generalize whole : cs ++ rest = ds at h
  induction h generalizing cs p' with
  | quote =>
    obtain ⟨cs, rfl, -⟩ := append_eq_cons whole within
    exact ⟨_, .quote (cs ++ rest'), prependText_kin _ .nil⟩
  | @escaped p text c d ds parts n means more ih =>
    have whole : cs ++ rest = ['\\', c] ++ ds := whole
    obtain ⟨cs, rfl, ahead⟩ := append_eq_append whole (by simp; omega)
    have within : n ≤ cs.length := by simp at within; omega
    obtain ⟨parts', read, kin⟩ := ih within ((p'.step '\\').step c) ahead
    exact ⟨parts', .escaped means read, kin⟩
  | @substitution p text inside ds parts n closed more ih =>
    have whole : cs ++ rest = '$' :: '(' :: (inside ++ [')']) ++ ds := by simpa using whole
    obtain ⟨cs, rfl, ahead⟩ := append_eq_append whole (by simp; omega)
    have within : n ≤ cs.length := by simp at within; omega
    obtain ⟨parts', read, kin⟩ := ih within _ ahead
    have rule : ReadsParts p' text _ _ _ := .substitution closed read
    have parted : '$' :: '(' :: (inside ++ ')' :: (cs ++ rest')) =
        '$' :: '(' :: (inside ++ [')']) ++ cs ++ rest' := by simp
    rw [parted] at rule
    exact ⟨_, rule, prependText_kin text (.cons (.substitution inside) kin)⟩
  | @«variable» p text taken ds name default parts n refers more ih =>
    have whole : cs ++ rest = '$' :: taken ++ ds := whole
    obtain ⟨cs, rfl, ahead⟩ := append_eq_append whole (by simp; omega)
    have within : n ≤ cs.length := by simp at within; omega
    obtain ⟨parts', read, kin⟩ := ih within _ ahead
    have refers' : reference (taken ++ (cs ++ rest')) = .ok ⟨name, default, taken.length⟩ := by
      refine reference_local refers rfl fun c hc _ => ?_
      -- the closing quote comes after the reference
      have behind : cs ≠ [] := List.ne_nil_of_length_pos (more.pos.trans_le within)
      rw [← ahead]
      rwa [List.head?_append_of_ne_nil _ behind] at hc ⊢
    have rule : ReadsParts p' text _ _ _ := .variable refers' read
    rw [← List.append_assoc] at rule
    exact ⟨_, rule, prependText_kin text (.cons (.variable ..) kin)⟩
  | @char p text c ds parts n quote backslash sigil more ih =>
    obtain ⟨cs, rfl, ahead⟩ := append_eq_cons whole (by omega)
    have within : n ≤ cs.length := by simp at within; omega
    obtain ⟨parts', read, kin⟩ := ih within (p'.step c) ahead
    exact ⟨parts', .char quote backslash sigil read, kin⟩

/-! ## Tokens -/

section

variable {c : Char} {cs rest rest' : List Char} (apart : Apart rest')
include apart

theorem numberText_local (h : (numberText (cs ++ rest)).length ≤ cs.length) :
    numberText (cs ++ rest') = numberText (cs ++ rest) :=
  (numberText_more apart cs).trans (numberText_cut cs h)

theorem startsWord_local (h : startsWord (c :: (cs ++ rest)) →
      ((cs ++ rest).takeWhile isWordChar).length ≤ cs.length) :
    startsWord (c :: (cs ++ rest')) = startsWord (c :: (cs ++ rest)) :=
  (startsWord_more apart c cs).trans (startsWord_cut h)

theorem word_local (h : ((cs ++ rest).takeWhile isWordChar).length ≤ cs.length) :
    (cs ++ rest').takeWhile isWordChar = (cs ++ rest).takeWhile isWordChar :=
  (takeWhile_more apart (fun _ => id) cs).trans (takeWhile_cut rest h)

theorem findOperator_local (h : ∀ op : String,
    (operators.find? fun op => op.toList.isPrefixOf (c :: (cs ++ rest))) = some op →
      op.length ≤ cs.length + 1) :
    (operators.find? fun op => op.toList.isPrefixOf (c :: (cs ++ rest'))) =
      operators.find? fun op => op.toList.isPrefixOf (c :: (cs ++ rest)) :=
  (List.find?_congr ((sameAhead_more apart cs).operator c)).trans (findOperator_cut (c :: cs) h)

end

/-- A token is the same where other characters come some way behind it, if they begin with something
that ends every token. -/
theorem content_local {p : Position} {c : Char} {cs more rest beyond : List Char}
    {said : Token.Content} {n : Nat}
    (h : content p c (cs ++ (more ++ rest)) beyond = .ok (said, n)) (length : n = cs.length)
    (p' : Position) {rest' beyond' : List Char} (apart : Apart rest')
    (clear : ∀ d ∈ (rest' ++ beyond').head?, isNameChar d = false) :
    ∃ said', content p' c (cs ++ (more ++ rest')) beyond' = .ok (said', n) ∧ said.Kin said' := by
  have within : cs.length ≤ (cs ++ more).length := by rw [List.length_append]; omega
  have referred {ref : Reference} (h : reference (cs ++ more ++ rest ++ beyond) = .ok ref)
      (length : ref.length = cs.length) : reference (cs ++ more ++ rest' ++ beyond') = .ok ref := by
    rw [List.append_assoc, List.append_assoc] at h ⊢
    refine reference_local h length fun d hd goesOn => ?_
    cases more with
    | nil =>
      rw [clear d hd] at goesOn
      cases goesOn
    | cons => exact hd
  have number (digit : c.isDigit)
      (length : (numberText (c :: (cs ++ more ++ rest))).length - 1 = cs.length) :
      numberText (c :: (cs ++ more ++ rest')) = numberText (c :: (cs ++ more ++ rest)) := by
    have short : (numberText (c :: (cs ++ more) ++ rest)).length ≤ (c :: (cs ++ more)).length := by
      rw [List.length_cons, List.cons_append]
      omega
    exact numberText_local apart short
  simp only [content_eq_ok_iff, ← List.append_assoc] at h ⊢
  generalize hi : cs ++ more ++ rest = inside at h
  cases h with
  | opening =>
    rw [List.append_assoc] at hi
    obtain ⟨cs, rfl, -⟩ := append_eq_cons hi (by omega)
    exact ⟨.delimiter, .opening .., .plain rfl⟩
  | «variable» refers => exact ⟨_, .variable (referred (hi ▸ refers) length), .plain rfl⟩
  | defaulted refers => exact ⟨_, .defaulted (referred (hi ▸ refers) length), .plain rfl⟩
  | string cut =>
    rw [← hi, List.append_assoc, List.append_assoc] at cut
    obtain ⟨parts', read, kin⟩ := cut.local length.le (p'.step '"') (more ++ (rest' ++ beyond'))
    rw [← List.append_assoc, ← List.append_assoc] at read
    exact ⟨_, .string read, .string kin⟩
  | @raw _ _ text left parted plain =>
    obtain ⟨rfl, -⟩ : cs = text ++ ['\''] ∧ more ++ rest ++ beyond = left :=
      List.append_inj (by simp [← hi] at parted; simpa using parted) (by simpa using length.symm)
    have parted' : text ++ ['\''] ++ more ++ rest' ++ beyond' =
        text ++ '\'' :: (more ++ rest' ++ beyond') := by simp
    exact ⟨_, .raw parted' plain, .string (prependText_kin text .nil)⟩
  | integer _ digit value =>
    subst hi
    rw [← number digit length] at value ⊢
    exact ⟨_, .integer beyond' digit value, .plain rfl⟩
  | float _ digit value =>
    subst hi
    rw [← number digit length] at value ⊢
    exact ⟨_, .float beyond' digit value, .plain rfl⟩
  | word _ starts =>
    subst hi
    have short := length.trans_le within
    rw [← startsWord_local apart fun _ => short] at starts
    rw [← word_local apart short]
    exact ⟨_, .word beyond' starts, .plain rfl⟩
  | @operator _ _ _ op other found =>
    subst hi
    have other' : startsWord (c :: (cs ++ more ++ rest')) = false := by
      refine (startsWord_local apart fun starts => ?_).trans other
      rw [other] at starts
      cases starts
    have found' := findOperator_local apart fun op' h => by
      cases found.symm.trans h
      omega
    exact ⟨_, .operator beyond' other' (found'.trans found), .plain rfl⟩
  | mark _ _ known => exact ⟨_, .mark _ _ known, .plain rfl⟩

end Lexer

end Sigil
