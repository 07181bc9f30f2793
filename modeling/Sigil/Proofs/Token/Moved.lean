import Mathlib.Data.List.Find
import Sigil.Proofs.Number.Text

/-!
# Pieces of a longer text

A text that stands in a longer one, with a line break after it
(`Placement`), has the same pieces there, but for where they stand: the same
numbers (`numberText_more`), references (`reference_more`) and strings
(`ReadsParts.moved`), and so the same tokens (`content_moved`). The inside of
a substitution in a string is a view of the text, which is moved with it and
has more text beyond it.
-/

namespace Sigil

/-- Where a text stands in a longer one: how many characters and lines come before it, and what
comes after it, which begins with a line break if there is anything. -/
structure Placement where
  offset : Nat
  lines : Nat
  more : List Char
  breaks : ∀ c ∈ more.head?, c = '\n'

/-- A text in itself. -/
def Placement.alone : Placement :=
  ⟨0, 0, [], nofun⟩

variable (m : Placement)

/-! ## Places -/

/-- A place of a text, in the longer one. -/
def Position.moved (p : Position) : Position :=
  ⟨p.offset + m.offset, p.line + m.lines, p.column⟩

theorem Position.step_moved (p : Position) (c : Char) :
    (p.moved m).step c = (p.step c).moved m := by
  unfold step moved
  split <;> simp only [Position.mk.injEq, and_true] <;> omega

theorem Position.after_moved (p : Position) (cs : List Char) :
    (p.moved m).after cs = (p.after cs).moved m := by
  induction cs generalizing p with
  | nil => rfl
  | cons c cs ih => rw [after_cons, after_cons, step_moved, ih]

/-- A piece of a text, in the longer one. -/
def Span.moved (s : Span) : Span :=
  ⟨s.start.moved m, s.stop.moved m⟩

/-- A stretch of a text, in the longer one: it ends as before, and there is more beyond it. -/
def View.moved (v : View) : View :=
  ⟨v.position.moved m, v.inside, v.beyond ++ m.more⟩

/-- A part of a string, in the longer text. -/
def StringPart.moved : StringPart → StringPart
  | text s => text s
  | .variable name default span => .variable name default (span.moved m)
  | substitution inside span => substitution (inside.moved m) (span.moved m)

/-- What a token says, in the longer text. -/
def Token.Content.moved : Token.Content → Token.Content
  | string parts => string (parts.map (·.moved m))
  | c => c

/-- A token, in the longer text. -/
def Token.moved (t : Token) : Token :=
  ⟨t.content.moved m, t.lexeme, t.span.moved m⟩

namespace Lexer

/-! ## What ends before the rest -/

/-- Whether a character goes on no token without quotes or braces. -/
def endsToken (c : Char) : Bool :=
  !isWordChar c && c ∉ ['=', '!', '<', '>', '&', '|', '*', '%', '(']

/-- What comes after a text begins with a character that ends every token without quotes or
braces. -/
def Apart (rest : List Char) : Prop :=
  ∀ c ∈ rest.head?, endsToken c

theorem isWordChar_of_endsToken {c : Char} (h : endsToken c) : isWordChar c = false := by
  rw [endsToken, Bool.and_eq_true, Bool.not_eq_true'] at h
  exact h.1

theorem apart_more (m : Placement) : Apart m.more := fun c hc => by
  rw [m.breaks c hc]
  decide

theorem apart_cons {c : Char} (h : endsToken c) (rest : List Char) : Apart (c :: rest) := by
  rintro _ ⟨⟩
  exact h

/-- No word goes on with what comes after the text. -/
theorem Apart.head {c : Char} {rest : List Char} (h : Apart (c :: rest)) : isWordChar c = false :=
  isWordChar_of_endsToken (h c rfl)

theorem Apart.head_ne {c d : Char} {rest : List Char} (h : Apart (c :: rest)) (hd : isWordChar d) :
    c ≠ d := by
  rintro rfl
  rw [h.head] at hd
  cases hd

section

variable {rest : List Char} (apart : Apart rest)
include apart

/-- Characters of a kind that the rest does not begin with go no further than the text. -/
theorem takeWhile_more {p : Char → Bool} (h : ∀ c, p c → isWordChar c) (cs : List Char) :
    (cs ++ rest).takeWhile p = cs.takeWhile p := by
  induction cs with
  | nil =>
    refine takeWhile_append_of_stop nofun fun c hc => Bool.eq_false_iff.mpr fun hp => ?_
    have word := isWordChar_of_endsToken (apart c hc)
    rw [h c hp] at word
    cases word
  | cons c cs ih =>
    rw [List.cons_append, List.takeWhile_cons, List.takeWhile_cons, ih]

theorem isPrefixOf_more {op : List Char} (h : op.all (!endsToken ·)) (cs : List Char) :
    op.isPrefixOf (cs ++ rest) = op.isPrefixOf cs := by
  induction op generalizing cs with
  | nil => rfl
  | cons o op ih =>
    rw [List.all_cons, Bool.and_eq_true, Bool.not_eq_true'] at h
    cases cs with
    | cons c cs =>
      rw [List.cons_append, List.isPrefixOf, List.isPrefixOf, ih h.2]
    | nil =>
      cases rest with
      | nil => rfl
      | cons c rest =>
        have differs : o ≠ c := by
          rintro rfl
          exact absurd (apart o rfl) (Bool.eq_false_iff.mp h.1)
        simp [List.isPrefixOf, differs]

theorem startsWord_more (c : Char) (cs : List Char) :
    startsWord (c :: cs ++ rest) = startsWord (c :: cs) := by
  rw [List.cons_append, startsWord_cons, startsWord_cons]
  cases cs with
  | cons d ds => rfl
  | nil =>
    cases rest with
    | nil => rfl
    | cons d rest =>
      -- what makes a word of a slash or a dash is a character of words
      have other := apart.head
      simp only [isWordChar, Char.isAlphanum, Bool.or_eq_false_iff, decide_eq_false_iff_not,
        List.mem_cons, List.not_mem_nil, or_false, not_or] at other
      simp [other]

/-! ## Numbers -/

theorem fractionText_more (cs : List Char) : fractionText (cs ++ rest) = fractionText cs := by
  cases cs with
  | cons c cs =>
    by_cases h : c = '.'
    · subst h
      exact takeWhile_more apart (fun _ => isWordChar_of_isDigit) cs
    · simp [fractionText, h]
  | nil =>
    cases rest with
    | nil => rfl
    | cons d rest => simp [fractionText, apart.head_ne (d := '.') (by decide)]

theorem exponentText_more (cs : List Char) : exponentText (cs ++ rest) = exponentText cs := by
  cases cs with
  | nil =>
    cases rest with
    | nil => rfl
    | cons d rest =>
      simp [exponentText, apart.head_ne (d := 'e') (by decide), apart.head_ne (d := 'E') (by decide)]
  | cons e cs =>
    have digits (cs : List Char) : (cs ++ rest).takeWhile Char.isDigit =
        cs.takeWhile Char.isDigit := takeWhile_more apart (fun _ => isWordChar_of_isDigit) cs
    cases cs with
    | nil =>
      cases rest with
      | nil => rfl
      | cons d rest =>
        have digits := digits []
        rw [List.nil_append] at digits
        simp [exponentText, apart.head_ne (d := '+') (by decide),
          apart.head_ne (d := '-') (by decide), digits]
    | cons c cs =>
      by_cases plus : c = '+'
      · subst plus
        simp [exponentText, digits]
      · by_cases minus : c = '-'
        · subst minus
          simp [exponentText, digits]
        · have digits := digits (c :: cs)
          rw [List.cons_append] at digits
          simp [exponentText, plus, minus, digits]

end

theorem length_fractionText {cs : List Char} (h : fractionText cs ≠ []) :
    (fractionText cs).length + 1 ≤ cs.length := by
  unfold fractionText at h ⊢
  split at h
  · exact Nat.succ_le_succ (List.takeWhile_prefix _).length_le
  · exact absurd rfl h

theorem numberText_more {rest : List Char} (apart : Apart rest) (cs : List Char) :
    numberText (cs ++ rest) = numberText cs := by
  have digits : (cs ++ rest).takeWhile Char.isDigit = cs.takeWhile Char.isDigit :=
    takeWhile_more apart (fun _ => isWordChar_of_isDigit) cs
  have whole : (cs.takeWhile Char.isDigit).length ≤ cs.length := (List.takeWhile_prefix _).length_le
  simp only [numberText, digits, List.drop_append_of_le_length whole, fractionText_more apart]
  generalize cs.drop (cs.takeWhile Char.isDigit).length = left
  by_cases h : fractionText left = []
  · simp [h, exponentText_more apart]
  · simp [h, List.drop_append_of_le_length (length_fractionText h), exponentText_more apart]

theorem length_exponentText {cs sign ds : List Char} (h : exponentText cs = some (sign, ds)) :
    sign.length + ds.length + 1 ≤ cs.length := by
  unfold exponentText at h
  split at h
  · next e cs =>
    split at h
    · extract_lets mark at h
      have signed : mark.length ≤ cs.length := by
        dsimp only [mark]
        split <;> simp
      clear_value mark
      have digits : ((cs.drop mark.length).takeWhile Char.isDigit).length ≤
          (cs.drop mark.length).length := (List.takeWhile_prefix _).length_le
      rw [List.length_drop] at digits
      split at h
      · cases h
      · cases h
        rw [List.length_cons]
        omega
    · cases h
  · cases h

/-- The characters of a number, by its parts. -/
theorem NumberText.length_eq (t : NumberText) : t.length = t.whole.length +
    ((if t.fraction.isEmpty then 0 else t.fraction.length + 1) +
      NumberText.length ⟨[], [], t.exponent⟩) := by
  simp [NumberText.length, Nat.add_assoc]

theorem length_numberText (cs : List Char) : (numberText cs).length ≤ cs.length := by
  have whole : (cs.takeWhile Char.isDigit).length ≤ cs.length := (List.takeWhile_prefix _).length_le
  have exponent (cs : List Char) : NumberText.length ⟨[], [], exponentText cs⟩ ≤ cs.length := by
    cases h : exponentText cs with
    | none => exact Nat.zero_le _
    | some r => exact (Nat.zero_add _).trans_le (length_exponentText h)
  have rest (cs : List Char) : (if (fractionText cs).isEmpty then 0
      else (fractionText cs).length + 1) + NumberText.length ⟨[], [], exponentText
        (if (fractionText cs).isEmpty then cs else cs.drop ((fractionText cs).length + 1))⟩ ≤
      cs.length := by
    split
    · exact (Nat.zero_add _).trans_le (exponent cs)
    · next h =>
      have after := exponent (cs.drop ((fractionText cs).length + 1))
      have fraction := @length_fractionText cs (by simpa using h)
      rw [List.length_drop] at after
      omega
  have := rest (cs.drop (cs.takeWhile Char.isDigit).length)
  rw [List.length_drop] at this
  rw [NumberText.length_eq]
  exact (Nat.add_le_add_left this (cs.takeWhile Char.isDigit).length).trans (by omega)

/-! ## References -/

section

variable {m}

/-- Characters of a kind that stop within a text are the same if more follows it. -/
theorem takeWhile_stopped {p : Char → Bool} {cs : List Char}
    (h : (cs.takeWhile p).length ≠ cs.length) (rest : List Char) :
    (cs ++ rest).takeWhile p = cs.takeWhile p := by
  rw [List.takeWhile_append, if_neg h]

theorem reference_more {cs : List Char} {ref : Reference} (h : reference cs = .ok ref) :
    reference (cs ++ m.more) = .ok ref ∧ ref.length ≤ cs.length := by
  cases reference_eq_ok_iff.mp h with
  | @plain name rest starts chars stop =>
    refine ⟨?_, by simp⟩
    rw [List.append_assoc]
    refine ReadsReference.read (.plain starts chars fun c hc => ?_)
    rw [List.head?_append] at hc
    cases rest with
    | nil =>
      rw [m.breaks c hc]
      decide
    | cons d rest => exact stop c hc
  | braced rest starts chars =>
    refine ⟨?_, by simp⟩
    simpa using (ReadsReference.braced (rest ++ m.more) starts chars).read
  | defaulted rest starts chars stop =>
    refine ⟨?_, by simp; omega⟩
    simpa using (ReadsReference.defaulted (rest ++ m.more) starts chars stop).read

/-! ## Strings -/

end

/-- Only a parenthesis matters after a character. -/
theorem Enclosure.next_more (p : Position) (c : Char) (cs : List Char)
    (enclosures : List Enclosure) :
    next p c (cs ++ m.more).head? enclosures = next p c cs.head? enclosures := by
  cases cs with
  | cons d cs => rfl
  | nil =>
    cases hm : m.more with
    | nil => rfl
    | cons d more =>
      obtain rfl := m.breaks d (by rw [hm]; rfl)
      cases enclosures with
      | nil => rfl
      | cons e outer => cases e <;> simp [next]

section

variable {m}

theorem prependText_moved (text : List Char) (parts : List StringPart) :
    prependText text (parts.map (·.moved m)) = (prependText text parts).map (·.moved m) := by
  unfold prependText
  split <;> rfl

theorem ReadsParts.moved {p : Position} {text cs : List Char} {parts : List StringPart} {n : Nat}
    (h : ReadsParts p text cs parts n) :
    ReadsParts (p.moved m) text (cs ++ m.more) (parts.map (·.moved m)) n ∧ n ≤ cs.length := by
  induction h with
  | quote rest =>
    rw [← prependText_moved]
    exact ⟨.quote (rest ++ m.more), Nat.succ_pos _⟩
  | escaped means more ih =>
    obtain ⟨same, shorter⟩ := ih
    rw [← Position.step_moved, ← Position.step_moved] at same
    exact ⟨.escaped means same, Nat.succ_le_succ (Nat.succ_le_succ shorter)⟩
  | @substitution p text inside rest parts n closed more ih =>
    obtain ⟨same, shorter⟩ := ih
    rw [← Position.step_moved, ← Position.after_moved, ← Position.step_moved,
      ← Position.step_moved] at same
    have again : ReadsParts (p.moved m) text _ _ _ := .substitution closed same
    refine ⟨?_, by simp only [List.length_cons, List.length_append]; omega⟩
    rw [← prependText_moved, List.cons_append, List.cons_append, List.append_assoc]
    rw [Position.step_moved, Position.step_moved, Position.after_moved, Position.step_moved] at again
    exact again
  | @«variable» p text taken rest name default parts n refers more ih =>
    obtain ⟨same, shorter⟩ := ih
    rw [← Position.after_moved, ← Position.step_moved] at same
    have refers' := (reference_more (m := m) refers).1
    rw [List.append_assoc] at refers'
    have again : ReadsParts (p.moved m) text _ _ _ := .variable refers' same
    refine ⟨?_, by simp only [List.length_cons, List.length_append]; omega⟩
    rw [← prependText_moved, List.cons_append, List.append_assoc]
    rw [Position.step_moved, Position.after_moved] at again
    exact again
  | char quote backslash sigil more ih =>
    obtain ⟨same, shorter⟩ := ih
    rw [← Position.step_moved] at same
    exact ⟨.char quote backslash sigil same, Nat.succ_le_succ shorter⟩

/-! ## Tokens -/

/-- What a token takes from the stretch that it is read in alone is the same in another. -/
structure SameAhead (inside inside' : List Char) : Prop where
  parenthesis : inside'.head? = some '(' ↔ inside.head? = some '('
  number (c : Char) : numberText (c :: inside') = numberText (c :: inside)
  startsWord (c : Char) : Lexer.startsWord (c :: inside') = Lexer.startsWord (c :: inside)
  word : inside'.takeWhile isWordChar = inside.takeWhile isWordChar
  operator (c : Char) : ∀ op ∈ operators,
    op.toList.isPrefixOf (c :: inside') = op.toList.isPrefixOf (c :: inside)

theorem sameAhead_self (inside : List Char) : SameAhead inside inside :=
  ⟨Iff.rfl, fun _ => rfl, fun _ => rfl, rfl, fun _ _ _ => rfl⟩

/-- A token is the same in a stretch that goes on with what ends it. -/
theorem sameAhead_more {rest : List Char} (apart : Apart rest) (inside : List Char) :
    SameAhead inside (inside ++ rest) where
  parenthesis := by
    cases inside with
    | cons d ds => rfl
    | nil =>
      constructor
      · intro h
        exact absurd (apart '(' h) (by decide)
      · nofun
  number c := numberText_more apart (c :: inside)
  startsWord c := startsWord_more apart c inside
  word := takeWhile_more apart (fun _ => id) inside
  operator c op hop := by
    have plain : ∀ op ∈ operators, op.toList.all (!endsToken ·) := by decide
    exact isPrefixOf_more apart (plain op hop) (c :: inside)

/-- A token is the same in another stretch, if the same characters come next and the stretch is the
same to it. -/
theorem content_congr {p : Position} {c : Char} {inside inside' beyond beyond' : List Char}
    (hi : SameAhead inside inside') (hb : inside' ++ beyond' = inside ++ beyond) :
    content p c inside' beyond' = content p c inside beyond := by
  have found : (operators.find? fun op => op.toList.isPrefixOf (c :: inside')) =
      operators.find? fun op => op.toList.isPrefixOf (c :: inside) :=
    List.find?_congr (hi.operator c)
  unfold content
  simp only [hb, hi.number, hi.startsWord, hi.word, found]
  congr 1
  split
  · next rest' =>
    obtain ⟨rest, rfl⟩ := List.head?_eq_some_iff.mp (hi.parenthesis.mp rfl)
    rfl
  · next other =>
    split
    · next rest =>
      obtain ⟨rest', rfl⟩ := List.head?_eq_some_iff.mp (hi.parenthesis.mpr rfl)
      exact absurd rfl (other rest')
    · rfl

theorem content_moved {p : Position} {c : Char} {inside inside' beyond beyond' : List Char}
    {said : Token.Content} {n : Nat} (hi : SameAhead inside inside')
    (hb : inside' ++ beyond' = inside ++ beyond ++ m.more)
    (h : content p c inside beyond = .ok (said, n)) :
    content (p.moved m) c inside' beyond' = .ok (said.moved m, n) ∧
      n ≤ inside.length + beyond.length := by
  rw [← List.length_append, content_eq_ok_iff]
  have within : inside.length ≤ (inside ++ beyond).length :=
    (List.prefix_append inside beyond).length_le
  cases content_eq_ok_iff.mp h with
  | opening rest =>
    obtain ⟨rest', rfl⟩ := List.head?_eq_some_iff.mp (hi.parenthesis.mpr rfl)
    exact ⟨.opening rest' beyond', Nat.succ_pos _⟩
  | «variable» refers =>
    obtain ⟨refers', shorter⟩ := reference_more (m := m) refers
    exact ⟨.variable (hb ▸ refers'), shorter⟩
  | defaulted refers =>
    obtain ⟨refers', shorter⟩ := reference_more (m := m) refers
    exact ⟨.defaulted (hb ▸ refers'), shorter⟩
  | string cut =>
    obtain ⟨same, shorter⟩ := cut.moved (m := m)
    rw [← hb, ← Position.step_moved] at same
    exact ⟨.string same, shorter⟩
  | @raw _ _ text rest parted plain =>
    have parted' : inside' ++ beyond' = text ++ '\'' :: (rest ++ m.more) := by
      rw [hb, parted, List.append_assoc, List.cons_append]
    refine ⟨?_, by rw [parted]; simp⟩
    rw [Token.Content.moved, ← prependText_moved]
    exact .raw parted' plain
  | integer _ digit value =>
    have shorter := length_numberText (c :: inside)
    rw [List.length_cons] at shorter
    rw [← hi.number] at value ⊢
    exact ⟨.integer beyond' digit value, by rw [hi.number]; omega⟩
  | float _ digit value =>
    have shorter := length_numberText (c :: inside)
    rw [List.length_cons] at shorter
    rw [← hi.number] at value ⊢
    exact ⟨.float beyond' digit value, by rw [hi.number]; omega⟩
  | word _ starts =>
    refine ⟨?_, (List.takeWhile_prefix _).length_le.trans within⟩
    rw [← hi.startsWord] at starts
    rw [← hi.word]
    exact .word beyond' starts
  | operator _ other found =>
    have starts := List.find?_some found
    rw [List.isPrefixOf_iff_prefix] at starts
    have length := starts.length_le
    rw [List.length_cons, String.length_toList] at length
    refine ⟨.operator beyond' (hi.startsWord c ▸ other) ?_, by omega⟩
    rw [List.find?_congr (hi.operator c), found]
  | mark _ _ known => exact ⟨.mark inside' beyond' known, Nat.zero_le _⟩

end

/-- Only the end of a text says that it is one. -/
theorem content_ne_endOfInput {p : Position} {c : Char} {inside beyond : List Char}
    {said : Token.Content} {n : Nat} (h : content p c inside beyond = .ok (said, n)) :
    said ≠ .endOfInput := by
  cases content_eq_ok_iff.mp h <;> rintro ⟨⟩

/-- A gap that ends within a text is the same if more follows. -/
theorem gapLength_inside {inComment : Bool} {cs : List Char}
    (h : gapLength inComment cs < cs.length) (rest : List Char) :
    gapLength inComment (cs ++ rest) = gapLength inComment cs := by
  induction cs generalizing inComment with
  | nil => exact absurd h (Nat.not_lt_zero _)
  | cons c cs ih =>
    rw [List.cons_append, gapLength, gapLength]
    rw [gapLength] at h
    split_ifs at h ⊢
    · rw [ih (by simpa using h)]
    · rw [ih (by simpa using h)]
    · rfl

theorem gapLength_le (inComment : Bool) (cs : List Char) : gapLength inComment cs ≤ cs.length := by
  induction cs generalizing inComment with
  | nil => exact Nat.le_refl 0
  | cons c cs ih =>
    rw [gapLength]
    split_ifs
    · exact Nat.succ_le_succ (ih _)
    · exact Nat.succ_le_succ (ih _)
    · exact Nat.zero_le _

theorem gapLength_append_le (inComment : Bool) (cs rest : List Char) :
    gapLength inComment cs ≤ gapLength inComment (cs ++ rest) := by
  induction cs generalizing inComment with
  | nil => exact Nat.zero_le _
  | cons c cs ih =>
    rw [List.cons_append, gapLength, gapLength]
    split_ifs
    · exact Nat.succ_le_succ (ih _)
    · exact Nat.succ_le_succ (ih _)
    · exact Nat.le_refl 0

/-- A gap that goes no further than a text is the same without what follows the text. -/
theorem gapLength_of_append {inComment : Bool} {cs rest : List Char}
    (h : gapLength inComment (cs ++ rest) ≤ cs.length) :
    gapLength inComment cs = gapLength inComment (cs ++ rest) := by
  rcases (gapLength_le inComment cs).lt_or_eq with inside | whole
  · exact (gapLength_inside inside rest).symm
  · exact Nat.le_antisymm (gapLength_append_le inComment cs rest) (h.trans whole.ge)

/-- A gap that a text ends with goes on after it: a line break ends a comment. -/
theorem gapLength_through {inComment : Bool} {cs : List Char}
    (h : gapLength inComment cs = cs.length) :
    gapLength inComment (cs ++ m.more) = cs.length + gapLength false m.more := by
  induction cs generalizing inComment with
  | nil =>
    rw [List.nil_append, List.length_nil, Nat.zero_add]
    cases hm : m.more with
    | nil => rfl
    | cons c more =>
      obtain rfl := m.breaks c (by rw [hm]; rfl)
      have blank : Text.isBlank '\n' := by decide
      simp [gapLength, blank]
  | cons c cs ih =>
    rw [List.cons_append, gapLength]
    rw [gapLength, List.length_cons] at h
    rw [List.length_cons]
    split_ifs at h ⊢
    · rw [ih (by simpa using h)]
      omega
    · rw [ih (by simpa using h)]
      omega

end Lexer

end Sigil
