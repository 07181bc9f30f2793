import Sigil.Proofs.Token.Mark

/-!
# Reading written tokens

The reader of tokens cuts legible chunks where they were put together:
references (`reference_braced`, `reference_plain`), the parts of strings
(`cuts_fragments`), single tokens (`content_readAs`), and whole views
(`View.tokens_say`).
-/

namespace Sigil

namespace Lexer

/-! ## References -/

theorem stripQuotes_pair {quote : Char} (hq : quote = '"' ∨ quote = '\'') {cs : List Char}
    (h : cs ≠ []) : stripQuotes (quote :: (cs ++ [quote])) = cs := by
  obtain ⟨d, ds, rfl⟩ := List.exists_cons_of_ne_nil h
  have last : (quote :: d :: (ds ++ [quote])).getLast? = some quote := by
    rw [← List.cons_append, ← List.cons_append, List.getLast?_append]
    rfl
  simp only [List.cons_append, stripQuotes, last]
  rw [if_pos ⟨trivial, hq⟩, List.drop_one, List.tail_cons, ← List.cons_append, List.dropLast_concat]

/-- The quotes that a default is given are taken off again. -/
theorem stripQuotes_defaultSource (s : String) : stripQuotes (defaultSource s) = s.toList := by
  unfold defaultSource
  generalize s.toList = cs
  match cs with
  | [] | [_] => rfl
  | c :: d :: cs =>
    obtain ⟨last, hl⟩ : ∃ last, (c :: d :: cs).getLast? = some last :=
      ⟨_, List.getLast?_eq_some_getLast (by simp)⟩
    simp only [hl]
    split_ifs with hq hc
    · exact stripQuotes_pair (.inr rfl) (List.cons_ne_nil c (d :: cs))
    · exact stripQuotes_pair (.inl rfl) (List.cons_ne_nil c (d :: cs))
    · simp only [stripQuotes, hl, if_neg hq]
      rfl

theorem brace_not_mem_defaultSource {s : String} (h : '\x7d' ∉ s.toList) :
    '\x7d' ∉ defaultSource s := by
  unfold defaultSource
  split
  · next c d cs last hs hl =>
    rw [hs] at h
    split_ifs <;> simp_all
  · exact h

theorem isName_iff {name : String} : Parser.isName name ↔
    name.toList.head?.any isNameStart ∧ ∀ c ∈ name.toList, isNameChar c := by
  simp [Parser.isName]

/-- A default within braces, with the mark before it. -/
def markedDefault : Option String → List Char
  | none => []
  | some d => ':' :: '-' :: defaultSource d

/-- What is written after the sigil of a reference in braces. -/
def bracedSource (name : String) (default : Option String) : List Char :=
  '\x7b' :: (name.toList ++ (markedDefault default ++ ['\x7d']))

theorem referenceSource_braced (name : String) (default : Option String) :
    referenceSource true name default = '$' :: bracedSource name default := by
  cases default <;> simp [referenceSource, bracedSource, markedDefault]

/-- A reference in braces is read to its end. -/
theorem reference_braced {name : String} {default : Option String}
    (h : isReference name default) (rest : List Char) :
    reference (bracedSource name default ++ rest) =
      .ok ⟨name.toList, default.map String.toList, (bracedSource name default).length⟩ := by
  simp only [isReference, Bool.and_eq_true] at h
  obtain ⟨starts, chars⟩ := isName_iff.mp h.1
  refine ReadsReference.read ?_
  cases default with
  | none => simpa [bracedSource, markedDefault] using ReadsReference.braced rest starts chars
  | some d =>
    have plain : '\x7d' ∉ defaultSource d := brace_not_mem_defaultSource (by simpa using h.2)
    have rule := ReadsReference.defaulted rest starts chars plain
    rw [stripQuotes_defaultSource] at rule
    simpa [bracedSource, markedDefault, Nat.add_assoc] using rule

/-- A name is read to its end. -/
theorem reference_plain {name : String} (h : isReference name none) {rest : List Char}
    (hr : ∀ c ∈ rest.head?, isNameChar c = false) :
    reference (name.toList ++ rest) = .ok ⟨name.toList, none, name.toList.length⟩ := by
  simp only [isReference, Option.all_none, Bool.and_true] at h
  obtain ⟨starts, chars⟩ := isName_iff.mp h
  exact ReadsReference.read (.plain starts chars hr)

/-! ## Strings -/

/-- Fragments with a text in front of them, unless it is empty. -/
def prependFragment (text : List Char) (fs : List Fragment) : List Fragment :=
  if text.isEmpty then fs else .text (String.ofList text) :: fs

theorem said_prependText {text : List Char} {parts : List StringPart} {fs : List Fragment}
    (h : List.Forall₂ StringPart.Says parts fs) :
    List.Forall₂ StringPart.Says (prependText text parts) (prependFragment text fs) := by
  unfold prependText prependFragment
  split
  · exact h
  · exact .cons rfl h

/-- Wherever it stands, a text is cut into parts that say `fs` and take up `n` characters. -/
def Cuts (opened : Position) (text cs : List Char) (n : Nat) (fs : List Fragment) : Prop :=
  ∀ p, ∃ parts, stringParts opened p text cs = .ok (parts, n) ∧
    List.Forall₂ StringPart.Says parts fs

variable {opened : Position} {text rest : List Char} {n : Nat} {fs : List Fragment}

theorem cuts_quote : Cuts opened text ('"' :: rest) 1 (prependFragment text []) :=
  fun _ => ⟨_, (ReadsParts.quote rest).read opened, said_prependText .nil⟩

/-- An escaped character is read as the character. -/
theorem cuts_escape {c d : Char} (he : escape c = some d)
    (h : Cuts opened (text ++ [d]) rest n fs) : Cuts opened text ('\\' :: c :: rest) (n + 2) fs := by
  intro p
  obtain ⟨parts, hp, hs⟩ := h ((p.step '\\').step c)
  exact ⟨parts, (ReadsParts.escaped he (stringParts_eq_ok_iff.mp hp)).read opened, hs⟩

theorem cuts_char {c : Char} (hq : c ≠ '"') (hb : c ≠ '\\') (hd : c ≠ '$')
    (h : Cuts opened (text ++ [c]) rest n fs) : Cuts opened text (c :: rest) (n + 1) fs := by
  intro p
  obtain ⟨parts, hp, hs⟩ := h (p.step c)
  exact ⟨parts, (ReadsParts.char hq hb hd (stringParts_eq_ok_iff.mp hp)).read opened, hs⟩

theorem cuts_escapeChar (c : Char) (h : Cuts opened (text ++ [c]) rest n fs) :
    Cuts opened text (escapeChar c ++ rest) (n + (escapeChar c).length) fs := by
  unfold escapeChar
  split
  case h_8 hb hq hd _ _ _ _ => exact cuts_char hq hb hd h
  all_goals exact cuts_escape rfl h

theorem cuts_escapeText {s : List Char} (h : Cuts opened (text ++ s) rest n fs) :
    Cuts opened text (s.flatMap escapeChar ++ rest) (n + (s.flatMap escapeChar).length) fs := by
  induction s generalizing text with
  | nil => simpa using h
  | cons c s ih =>
    rw [List.append_cons] at h
    have := cuts_escapeChar c (ih h)
    rw [List.flatMap_cons, List.append_assoc, List.length_append, Nat.add_comm (escapeChar c).length,
      ← Nat.add_assoc]
    exact this

theorem cuts_variable {name : String} {default : Option String} (hr : isReference name default)
    (h : Cuts opened [] rest n fs) :
    Cuts opened text (referenceSource true name default ++ rest)
      (n + (referenceSource true name default).length)
      (prependFragment text (.variable name default :: fs)) := by
  intro p
  rw [referenceSource_braced, List.cons_append]
  obtain ⟨parts, hp, hs⟩ := h ((p.step '$').after (bracedSource name default))
  have rule : ReadsParts p text _ _ _ :=
    .variable (reference_braced hr rest) (stringParts_eq_ok_iff.mp hp)
  refine ⟨_, rule.read opened, said_prependText (.cons ⟨String.ofList_toList, ?_⟩ hs)⟩
  cases default <;> simp

theorem cuts_substitution {inside : List Char} (hc : isClosed inside)
    (h : Cuts opened [] rest n fs) :
    Cuts opened text ('$' :: '(' :: (inside ++ ')' :: rest)) (n + inside.length + 3)
      (prependFragment text (.substitution inside :: fs)) := by
  intro p
  obtain ⟨parts, hp, hs⟩ := h ((((p.step '$').step '(').after inside).step ')')
  have rule : ReadsParts p text _ _ _ := .substitution hc (stringParts_eq_ok_iff.mp hp)
  exact ⟨_, rule.read opened, said_prependText (.cons ⟨rfl, rfl⟩ hs)⟩

theorem Cuts.cast {m : Nat} {cs : List Char} {gs : List Fragment} (h : Cuts opened text cs n fs)
    (hn : n = m) (hf : fs = gs) : Cuts opened text cs m gs :=
  hn ▸ hf ▸ h

/-- The parts of a string are cut as they were put together. -/
theorem cuts_fragments (h : Fragment.Proper (!text.isEmpty) fs) :
    Cuts opened text (fs.flatMap Fragment.source ++ '"' :: rest)
      ((fs.flatMap Fragment.source).length + 1) (prependFragment text fs) := by
  induction fs generalizing text with
  | nil => exact cuts_quote
  | cons f fs ih =>
    rw [List.flatMap_cons, List.append_assoc, List.length_append]
    cases f with
    | text s =>
      obtain ⟨first, nonempty, h⟩ := h
      have nonempty : s.toList.isEmpty = false := by simpa using nonempty
      simp only [Bool.not_eq_false', List.isEmpty_iff] at first
      subst first
      have tail : Cuts opened ([] ++ s.toList) _ _ _ := ih (by rwa [List.nil_append, nonempty])
      refine (cuts_escapeText tail).cast ?_ (by simp [prependFragment, nonempty])
      rw [Fragment.source, escapeText]
      omega
    | «variable» name default =>
      refine (cuts_variable h.1 (ih h.2)).cast ?_ rfl
      rw [Fragment.source]
      omega
    | substitution inside =>
      have source : Fragment.source (.substitution inside) = '$' :: '(' :: (inside ++ [')']) := rfl
      rw [source, List.cons_append, List.cons_append, List.append_assoc]
      refine (cuts_substitution h.1 (ih h.2)).cast ?_ rfl
      simp only [List.length_cons, List.length_append, List.length_nil]
      omega

/-! ## Tokens -/

/-- One token is read as it was written. -/
def ReadAs (m : Mark) (c : Char) (cs tail beyond : List Char) : Prop :=
  ∀ p, ∃ said, content p c (cs ++ tail) beyond = .ok (said, cs.length) ∧
    ∀ span, Token.Says ⟨said, String.ofList (c :: cs), span⟩ m

variable {c : Char} {cs tail beyond : List Char}

theorem readAs_string {fragments : List Fragment} (h : Fragment.Proper false fragments)
    (hs : (Mark.string fragments).source = c :: cs) :
    ReadAs (.string fragments) c cs tail beyond := by
  intro p
  cases hs
  have cut : Cuts p [] (fragments.flatMap Fragment.source ++ '"' :: (tail ++ beyond)) _ _ :=
    cuts_fragments h
  obtain ⟨parts, hp, said⟩ := cut (p.step '"')
  have inside : fragments.flatMap Fragment.source ++ '"' :: (tail ++ beyond) =
      fragments.flatMap Fragment.source ++ ['"'] ++ tail ++ beyond := by simp
  rw [inside] at hp
  refine ⟨.string parts, ?_, fun span => ⟨parts, rfl, said⟩⟩
  rw [List.length_append]
  exact (ReadsToken.string (stringParts_eq_ok_iff.mp hp)).read

theorem readAs_variable {name : String} (h : isReference name none)
    (hs : (Mark.variable name).source = c :: cs)
    (he : (Mark.variable name).endsBefore (tail.head?.or beyond.head?)) :
    ReadAs (.variable name) c cs tail beyond := by
  intro p
  cases hs
  have read : reference (name.toList ++ (tail ++ beyond)) =
      .ok ⟨name.toList, none, name.toList.length⟩ := by
    refine reference_plain h fun d hd => ?_
    rw [← List.head?_append, Option.mem_def.mp hd] at he
    simpa [Mark.endsBefore] using he
  rw [← List.append_assoc] at read
  refine ⟨_, (ReadsToken.variable read).read, fun span => ?_⟩
  exact congrArg Token.Content.variable String.ofList_toList

theorem readAs_defaulted {name default : String} (h : isReference name (some default))
    (hs : (Mark.defaulted name default).source = c :: cs) :
    ReadAs (.defaulted name default) c cs tail beyond := by
  intro p
  have source : (Mark.defaulted name default).source = '$' :: bracedSource name (some default) :=
    referenceSource_braced name (some default)
  cases source.symm.trans hs
  have read := reference_braced h (tail ++ beyond)
  rw [← List.append_assoc] at read
  refine ⟨_, (ReadsToken.defaulted read).read, fun span => ?_⟩
  simp [Token.Says]

theorem isNumber_starts {said : Token.Content} (h : IsNumber cs said) :
    ∃ d ds, cs = d :: ds ∧ d.isDigit := by
  obtain ⟨t, formed, rfl, -⟩ := h
  obtain ⟨d, ds, hd⟩ := List.exists_cons_of_ne_nil formed.nonempty
  exact ⟨d, ds ++ (t.pointSource ++ t.exponentSource), by rw [NumberText.source, hd]; rfl,
    formed.whole d (hd ▸ List.mem_cons_self)⟩

theorem readAs_number {m : Mark} {said : Token.Content} (h : IsNumber (c :: cs) said)
    (hr : EndsNumber tail) (hm : ∀ lexeme span, Token.Says ⟨said, lexeme, span⟩ m) :
    ReadAs m c cs tail beyond := by
  intro p
  obtain ⟨t, formed, source, value⟩ := h
  have digit : c.isDigit := by
    obtain ⟨d, ds, hd, digit⟩ := isNumber_starts ⟨t, formed, source, value⟩
    cases hd
    exact digit
  have read : numberText (c :: (cs ++ tail)) = t := by
    rw [← List.cons_append, ← source]
    exact numberText_source formed hr
  have length : t.length - 1 = cs.length := by
    rw [← t.length_source, source, List.length_cons, Nat.add_sub_cancel]
  refine ⟨said, ?_, fun span => hm _ span⟩
  rw [← read] at value
  rw [← length, ← read]
  obtain ⟨k, rfl⟩ | ⟨x, rfl⟩ := numberContent_cases value
  · exact (ReadsToken.integer beyond digit value).read
  · exact (ReadsToken.float beyond digit value).read

theorem startsWord_append (h : startsWord (c :: cs)) : startsWord (c :: (cs ++ tail)) := by
  rw [startsWord_cons] at h ⊢
  cases cs with
  | nil => simp_all
  | cons d ds => exact h

theorem readAs_word {s : String} (h : isWord s) (hs : s.toList = c :: cs)
    (he : (Mark.word s).endsBefore (tail.head?.or beyond.head?)) :
    ReadAs (.word s) c cs tail beyond := by
  intro p
  simp only [isWord, hs, Bool.and_eq_true, List.drop_one, List.tail_cons, List.all_eq_true] at h
  obtain ⟨starts, chars⟩ := h
  refine ⟨.word, ?_, fun span => ⟨rfl, by simp [← hs]⟩⟩
  have whole : (cs ++ tail).takeWhile isWordChar = cs := by
    refine takeWhile_append_of_stop chars fun d hd => ?_
    rw [Option.mem_def.mp hd] at he
    simpa [Mark.endsBefore] using he
  have rule : ReadsToken p c (cs ++ tail) beyond .word _ := .word beyond (startsWord_append starts)
  rw [whole] at rule
  exact rule.read

/-- What may follow an operator makes neither a longer one of it nor a word. -/
theorem readAs_operator {s : String} (h : s ∈ operators) (hs : s.toList = c :: cs)
    (he : (Mark.operator s).endsBefore (tail.head?.or beyond.head?)) :
    ReadAs (.operator s) c cs tail beyond := by
  intro p
  refine ⟨.operator, ?_, fun span => ⟨rfl, by simp [← hs]⟩⟩
  cases tail with
  | nil =>
    simp only [operators, List.mem_cons, List.not_mem_nil, or_false] at h
    rcases h with rfl | rfl | rfl | rfl | rfl | rfl | rfl | rfl | rfl | rfl | rfl | rfl | rfl | rfl |
      rfl | rfl | rfl <;> simp at hs <;> obtain ⟨rfl, rfl⟩ := hs <;> rfl
  | cons d ds =>
    simp only [Mark.endsBefore, List.head?_cons, Option.some_or, Option.all_some, List.mem_cons,
      List.not_mem_nil, or_false, not_or, Bool.and_eq_true, decide_eq_true_eq, Bool.or_eq_true,
      Bool.not_eq_true', Bool.or_eq_false_iff, decide_eq_false_iff_not] at he
    obtain ⟨⟨equals, arrow⟩, word⟩ := he
    have equals : '=' ≠ d := Ne.symm equals
    have arrow : '>' ≠ d := Ne.symm arrow
    simp only [operators, List.mem_cons, List.not_mem_nil, or_false] at h
    rcases h with rfl | rfl | rfl | rfl | rfl | rfl | rfl | rfl | rfl | rfl | rfl | rfl | rfl | rfl |
      rfl | rfl | rfl <;> simp at hs <;> obtain ⟨rfl, rfl⟩ := hs
    all_goals
      simp at word
      simp [content, startsWord, operators, List.isPrefixOf, equals, arrow, word]
      try rfl

theorem readAs_delimiter {s : String} (h : s ∈ Mark.delimiters) (hs : s.toList = c :: cs) :
    ReadAs (.delimiter s) c cs tail beyond := by
  intro p
  refine ⟨.delimiter, ?_, fun span => ⟨rfl, by simp [← hs]⟩⟩
  simp only [Mark.delimiters, List.mem_cons, List.not_mem_nil, or_false] at h
  rcases h with rfl | rfl | rfl | rfl | rfl | rfl | rfl <;> simp at hs <;> obtain ⟨rfl, rfl⟩ := hs <;>
    rfl

/-- A proper token is read as it was written. -/
theorem content_readAs {m : Mark} (h : m.Proper) (hs : m.source = c :: cs)
    (he : m.endsBefore (tail.head?.or beyond.head?)) : ReadAs m c cs tail beyond := by
  have ends (hn : (tail.head?.or beyond.head?).all fun d => !d.isDigit && d ∉ ['.', 'e', 'E']) :
      EndsNumber tail := by
    intro d hd
    rw [Option.mem_def.mp hd] at hn
    simpa using hn
  cases m with
  | word s => exact readAs_word h hs he
  | «variable» name => exact readAs_variable h hs he
  | defaulted name default => exact readAs_defaulted h hs
  | integer n => exact readAs_number (hs ▸ h) (ends he) fun _ _ => rfl
  | float x => exact readAs_number (hs ▸ h) (ends he) fun _ _ => rfl
  | string fragments => exact readAs_string h hs
  | operator s => exact readAs_operator h hs he
  | delimiter s => exact readAs_delimiter h hs

/-- Whether a character can be seen, and starts no comment. -/
def isVisible (c : Char) : Bool :=
  !Text.isBlank c && c ≠ '#'

theorem isVisible_of_isAlphanum (h : c.isAlphanum) : isVisible c := by
  have bounds : 48 ≤ c.toNat ∧ c.toNat ≤ 122 := by
    simp only [Char.isAlphanum, isAlpha_iff, Char.isDigit, Bool.or_eq_true, Bool.and_eq_true,
      decide_eq_true_eq, ge_iff_le, UInt32.le_iff_toNat_le] at h
    have : c.val.toNat = c.toNat := rfl
    have : '0'.val.toNat = 48 := rfl
    have : 'A'.val.toNat = 65 := rfl
    have : 'a'.val.toNat = 97 := rfl
    have : '9'.val.toNat = 57 := rfl
    have : 'Z'.val.toNat = 90 := rfl
    have : 'z'.val.toNat = 122 := rfl
    omega
  have hash : c ≠ '#' := by rintro rfl; revert h; decide
  simp only [isVisible, Text.isBlank, Text.inRanges, Text.blankRanges, List.any_cons, List.any_nil,
    Bool.or_false, Bool.and_eq_true, Bool.not_eq_true', Bool.or_eq_false_iff,
    Bool.and_eq_false_iff, decide_eq_false_iff_not, decide_eq_true_eq, hash, ne_eq, not_false_eq_true,
    and_true]
  omega

theorem isVisible_of_startsWord (h : startsWord (c :: cs)) : isVisible c := by
  rw [startsWord_cons] at h
  simp only [Bool.or_eq_true, Bool.and_eq_true, decide_eq_true_eq] at h
  rcases h with ((h | h) | h) | h
  · exact isVisible_of_isAlphanum (by simp [Char.isAlphanum, h])
  · simp only [List.mem_cons, List.not_mem_nil, or_false] at h
    rcases h with rfl | rfl | rfl <;> decide
  · obtain ⟨rfl, -⟩ := h
    decide
  · obtain ⟨rfl, -⟩ := h
    decide

theorem isVisible_number {said : Token.Content} (h : IsNumber cs said) :
    ∃ d ds, cs = d :: ds ∧ isVisible d := by
  obtain ⟨d, ds, hs, digit⟩ := isNumber_starts h
  exact ⟨d, ds, hs, isVisible_of_isAlphanum (by simp [Char.isAlphanum, digit])⟩

/-- A token starts with a character that belongs to no gap. -/
theorem source_starts {m : Mark} (h : m.Proper) :
    ∃ c cs, m.source = c :: cs ∧ isVisible c := by
  cases m with
  | word s =>
    simp only [Mark.Proper, isWord, Bool.and_eq_true] at h
    cases hs : s.toList with
    | nil => rw [hs] at h; cases h.1
    | cons c cs => exact ⟨c, cs, hs, isVisible_of_startsWord (hs ▸ h.1)⟩
  | «variable» name => exact ⟨'$', name.toList, rfl, by decide⟩
  | defaulted name default =>
    exact ⟨'$', _, referenceSource_braced name (some default), by decide⟩
  | integer n => exact isVisible_number h
  | float x => exact isVisible_number h
  | string fragments => exact ⟨'"', _, rfl, by decide⟩
  | operator s =>
    simp only [Mark.Proper, operators, List.mem_cons, List.not_mem_nil, or_false] at h
    rcases h with rfl | rfl | rfl | rfl | rfl | rfl | rfl | rfl | rfl | rfl | rfl | rfl | rfl | rfl |
      rfl | rfl | rfl <;> simp [Mark.source] <;> decide
  | delimiter s =>
    simp only [Mark.Proper, Mark.delimiters, List.mem_cons, List.not_mem_nil, or_false] at h
    rcases h with rfl | rfl | rfl | rfl | rfl | rfl | rfl <;> simp [Mark.source] <;> decide

theorem gapLength_gap (spaced : Bool) (h : isVisible c) :
    gapLength false (gap spaced ++ c :: cs) = (gap spaced).length := by
  simp only [isVisible, Bool.and_eq_true, Bool.not_eq_true', decide_eq_true_eq] at h
  have stop : gapLength false (c :: cs) = 0 := by
    simp [gapLength, h.1, h.2]
  cases spaced with
  | false => exact stop
  | true =>
    have blank : Text.isBlank ' ' := by decide
    simp [gap, gapLength, blank, h.1, h.2]

end Lexer

namespace View

theorem offset_advance {v : View} {n : Nat} (h : n ≤ v.inside.length) :
    (v.advance n).position.offset = v.position.offset + n := by
  simp only [advance, Position.offset_after, List.length_take]
  omega

theorem beyond_advance {v : View} {n : Nat} (h : n ≤ v.inside.length) :
    (v.advance n).beyond = v.beyond := by
  simp [advance, Nat.sub_eq_zero_of_le h]

/-- What is left of a text behind the characters that it begins with. -/
theorem advance_append (p : Position) (taken rest beyond : List Char) :
    (View.mk p (taken ++ rest) beyond).advance taken.length = ⟨p.after taken, rest, beyond⟩ := by
  simp [advance]

theorem tokens_nil {v : View} (h : v.inside = []) :
    v.tokens = ⟨[.atEnd (v.advance 0).position], none⟩ := by
  rw [tokens]
  dsimp only
  have none : Lexer.gapLength false v.inside = 0 := by rw [h]; rfl
  rw [none]
  split
  · rfl
  · next hc => simp [inside_advance, h] at hc

theorem tokens_cons {v w : View} {c : Char} {cs : List Char} {said : Token.Content} {n : Nat}
    (hw : v.advance (Lexer.gapLength false v.inside) = w) (hi : w.inside = c :: cs)
    (hc : Lexer.content w.position c cs w.beyond = .ok (said, n)) :
    v.tokens = (w.advance (n + 1)).tokens.cons
      ⟨said, String.ofList ((w.inside ++ w.beyond).take (n + 1)),
        ⟨w.position, (w.advance (n + 1)).position⟩⟩ := by
  rw [tokens]
  dsimp only
  rw [hw]
  split
  · next heq => rw [hi] at heq; cases heq
  · next heq =>
    cases hi.symm.trans heq
    rw [hc]

/-- The first token of a text, behind the gap before it. -/
theorem tokens_first {p : Position} {c : Char} {beyond : List Char} {said : Token.Content}
    (gap token rest : List Char)
    (passed : Lexer.gapLength false (gap ++ (c :: token ++ rest)) = gap.length)
    (hc : Lexer.content (p.after gap) c (token ++ rest) beyond = .ok (said, token.length)) :
    (View.mk p (gap ++ (c :: token ++ rest)) beyond).tokens =
      (View.mk ((p.after gap).after (c :: token)) rest beyond).tokens.cons
        ⟨said, String.ofList (c :: token), ⟨p.after gap, (p.after gap).after (c :: token)⟩⟩ := by
  have behind : (View.mk p (gap ++ (c :: token ++ rest)) beyond).advance
      (Lexer.gapLength false (gap ++ (c :: token ++ rest))) =
        ⟨p.after gap, c :: token ++ rest, beyond⟩ := by
    rw [passed, advance_append]
  have next := advance_append (p.after gap) (c :: token) rest beyond
  rw [List.length_cons] at next
  rw [tokens_cons behind rfl hc, next]
  simp

/-- A view that a fault is found at the start of. -/
theorem tokens_error {v w : View} {c : Char} {cs : List Char} {err : LexError}
    (hw : v.advance (Lexer.gapLength false v.inside) = w) (hi : w.inside = c :: cs)
    (hc : Lexer.content w.position c cs w.beyond = .error err) : v.tokens = ⟨[], some err⟩ := by
  rw [tokens]
  dsimp only
  rw [hw]
  split
  · next heq => rw [hi] at heq; cases heq
  · next heq =>
    cases hi.symm.trans heq
    rw [hc]

/-- Legible chunks are read as they were put together. The first token starts after the gap before
it. -/
theorem tokens_say (ps : List Chunk) (v : View) (hv : v.inside = textOf ps)
    (h : Legible v.beyond.head? ps) :
    ∃ t ts, v.tokens = ⟨t :: ts, none⟩ ∧ Token.Say (t :: ts) ps ∧
      ∀ p ∈ ps.head?, t.span.start.offset = v.position.offset + (gap p.spaced).length := by
  induction ps generalizing v with
  | nil => exact ⟨_, _, tokens_nil hv, rfl, nofun⟩
  | cons p ps ih =>
    obtain ⟨start, inside, beyond⟩ := v
    obtain ⟨proper, ends, h⟩ := h
    obtain ⟨c, cs, hs, visible⟩ := Lexer.source_starts proper
    obtain rfl : inside = gap p.spaced ++ (c :: cs ++ textOf ps) := by
      rw [← hs, ← List.append_assoc, ← textOf_cons]
      exact hv
    obtain ⟨said, hc, sayings⟩ := Lexer.content_readAs proper hs ends (start.after (gap p.spaced))
    obtain ⟨t, ts, ht, say, next⟩ :=
      ih ⟨(start.after (gap p.spaced)).after (c :: cs), textOf ps, beyond⟩ rfl h
    have first := tokens_first _ _ _ (Lexer.gapLength_gap p.spaced visible) hc
    refine ⟨_, t :: ts, first.trans (by rw [ht]; rfl), ⟨sayings _, fun q hq => ?_, say⟩,
      fun q hq => ?_⟩
    · have start := next q hq
      cases hq : q.spaced <;> simp [Parser.adjacent, start, hq, gap]
    · cases hq
      exact Position.offset_after ..

end View

end Sigil
