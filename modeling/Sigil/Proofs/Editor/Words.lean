import Sigil.Proofs.Editor.Lines

/-!
# Words under the cursor

An editor cuts the word at a place out of its line by itself, and ends words only
at some of the characters that are none of names. The word at one of the
characters of a token is the token with all that stands around it up to the next
stops (`wordAt_eq`). So where lines end as positions count them, a reference is
found if it stands alone between stops, and a place beyond the end of its line has
no answer (`Editor.hover_reference`).
-/

namespace Sigil

/-! ## Words -/

/-- What stands before the end of a text without a stop between. -/
def wordBefore (cs : List Char) : List Char :=
  (cs.reverse.takeWhile (! isWordStop ·)).reverse

/-- What a text starts with up to the first stop. -/
def wordAfter (cs : List Char) : List Char :=
  cs.takeWhile (! isWordStop ·)

variable {text first word rest : List Char} {line : Nat}

theorem wordBefore_append (h : ∀ c ∈ word, isWordStop c = false) (first : List Char) :
    wordBefore (first ++ word) = wordBefore first ++ word := by
  have whole : ∀ c ∈ word.reverse, (! isWordStop c) := fun c hc => by
    rw [h c (List.mem_reverse.mp hc)]
    rfl
  rw [wordBefore, List.reverse_append, List.takeWhile_append_of_pos whole, List.reverse_append,
    List.reverse_reverse, wordBefore]

theorem wordAfter_append (h : ∀ c ∈ word, isWordStop c = false) (rest : List Char) :
    wordAfter (word ++ rest) = word ++ wordAfter rest :=
  List.takeWhile_append_of_pos fun c hc => by
    rw [h c hc]
    rfl

theorem wordAfter_eq_nil_iff {cs : List Char} :
    wordAfter cs = [] ↔ ∀ c ∈ cs.head?, isWordStop c := by
  cases cs with
  | nil => simp [wordAfter]
  | cons c cs => simp [wordAfter, List.takeWhile_cons]

theorem wordBefore_eq_nil_iff {cs : List Char} :
    wordBefore cs = [] ↔ ∀ c ∈ cs.getLast?, isWordStop c := by
  rw [wordBefore, List.reverse_eq_nil_iff, ← List.head?_reverse]
  exact wordAfter_eq_nil_iff

/-- A line feed is a stop, so that what stands before it makes no difference. -/
theorem wordBefore_lastLine (cs : List Char) :
    wordBefore (Text.lastLine cs) = [] ↔ ∀ c ∈ cs.getLast?, isWordStop c := by
  rw [wordBefore_eq_nil_iff]
  obtain rfl | ⟨cs, c, rfl⟩ := List.eq_nil_or_concat cs
  · rfl
  · rw [List.concat_eq_append, Text.lastLine_append_singleton]
    split_ifs with h
    · subst h
      simp [isWordStop]
    · rw [List.getLast?_concat, List.getLast?_concat]

/-- The word at a character is what stands around the character between two stops. -/
theorem wordAt_eq (there : (Text.linesWithEnds text)[line]? = some (first ++ (word ++ rest)))
    (whole : ∀ c ∈ word, isWordStop c = false) {k : Nat} (hk : k < word.length) :
    wordAt text line (first.length + k) =
      .ok (some (String.ofList (wordBefore first ++ word ++ wordAfter rest))) := by
  have within : ¬ (first ++ (word ++ rest)).length < first.length + k := by
    rw [List.length_append, List.length_append]
    omega
  have taken : (first ++ (word ++ rest)).take (first.length + k) = first ++ word.take k := by
    rw [List.take_length_add_append, List.take_append_of_le_length hk.le]
  have left : (first ++ (word ++ rest)).drop (first.length + k) = word.drop k ++ rest := by
    rw [List.drop_length_add_append, List.drop_append_of_le_length hk.le]
  have around : wordBefore (first ++ word.take k) ++ wordAfter (word.drop k ++ rest) =
      wordBefore first ++ word ++ wordAfter rest := by
    rw [wordBefore_append fun c hc => whole c (List.mem_of_mem_take hc),
      wordAfter_append fun c hc => whole c (List.mem_of_mem_drop hc), List.append_assoc,
      ← List.append_assoc (word.take k), List.take_append_drop, List.append_assoc]
  have some_ : wordBefore first ++ word ++ wordAfter rest ≠ [] := by
    intro nothing
    have none := congrArg List.length nothing
    simp only [List.length_append, List.length_nil] at none
    omega
  rw [wordAt, there]
  simp only [within, if_false, taken, left]
  rw [wordBefore, wordAfter] at around
  rw [around, if_neg some_]

/-- The word at a character of some text that holds no stop is found with what stands around it. -/
theorem wordAt_append {before : List Char} (plain : Text.breaksPlainly before)
    (whole : ∀ c ∈ word, isWordStop c = false ∧ Text.isLineEnd c = false) (rest : List Char)
    {k : Nat} (hk : k < word.length) :
    wordAt (before ++ (word ++ rest)) (before.count '\n') ((Text.lastLine before).length + k) =
      .ok (some (String.ofList (wordBefore (Text.lastLine before) ++ word ++
        wordAfter (Text.firstLine rest)))) :=
  wordAt_eq (Text.getElem?_linesWithEnds plain (List.ne_nil_of_length_pos (Nat.zero_lt_of_lt hk))
    (fun c hc => (whole c hc).2) rest) (fun c hc => (whole c hc).1) hk

/-- Nothing else is found if stops stand around it. -/
theorem word_eq_iff (before word rest : List Char) :
    String.ofList (wordBefore (Text.lastLine before) ++ word ++ wordAfter (Text.firstLine rest)) =
        String.ofList word ↔
      (∀ c ∈ before.getLast?, isWordStop c) ∧ ∀ c ∈ rest.head?, isWordStop c := by
  rw [String.ofList_inj, ← wordBefore_lastLine, ← Text.head?_firstLine, ← wordAfter_eq_nil_iff]
  constructor
  · intro same
    have length := congrArg List.length same
    simp only [List.length_append] at length
    exact ⟨List.length_eq_zero_iff.mp (by omega), List.length_eq_zero_iff.mp (by omega)⟩
  · rintro ⟨nothing, nothing'⟩
    rw [nothing, nothing', List.nil_append, List.append_nil]

/-! ## References -/

namespace View

variable {source : List Char} {v : View}

theorem position_advance (v : View) (n : Nat) :
    (v.advance n).position = v.position.after ((v.inside ++ v.beyond).take n) := by
  rw [List.take_append, Position.after_append, advance]

/-- The text of a token stands where its span says. -/
theorem StandsIn.lexemes (h : v.StandsIn source) :
    ∀ t ∈ v.tokens.tokens, t.content = .endOfInput ∨ t.Proper ∧
      ∃ before rest, source = before ++ (t.lexeme.toList ++ rest) ∧
        t.span = ⟨.after .start before, .after .start (before ++ t.lexeme.toList)⟩ := by
  fun_induction View.tokens v with
  | case1 v w hw => exact List.forall_mem_singleton.mpr (.inl rfl)
  | case2 => exact List.forall_mem_nil _
  | case3 v w c cs hw said n hc rest lexeme ih =>
    have left : w.StandsIn source := h.advance _
    have proper := (Lexer.content_proper ⟨w.position, rest.position⟩ hc).1
    rw [← hw] at proper
    refine List.forall_mem_cons.mpr ⟨.inr ⟨proper, ?_⟩, ih (left.advance _)⟩
    obtain ⟨before, hs, hp⟩ := left
    refine ⟨before, (w.inside ++ w.beyond).drop (n + 1), ?_, ?_⟩
    · rw [String.toList_ofList, List.take_append_drop]
      exact hs
    · have stop : rest.position = _ := position_advance w (n + 1)
      rw [String.toList_ofList, Position.after_append, ← hp, stop]

end View

/-- What a name may hold neither ends a word nor a line. -/
theorem Lexer.isNameChar_plain {c : Char} (h : Lexer.isNameChar c) :
    isWordStop c = false ∧ Text.isLineEnd c = false := by
  have other {d : Char} (hd : Lexer.isNameChar d = false) : c ≠ d := by
    rintro rfl
    rw [h] at hd
    cases hd
  constructor
  · rw [isWordStop, decide_eq_false_iff_not]
    simp only [List.mem_cons, List.not_mem_nil, or_false, not_or]
    exact ⟨other rfl, other rfl, other rfl, other rfl, other rfl, other rfl, other rfl, other rfl,
      other rfl, other rfl, other rfl, other rfl, other rfl⟩
  · rw [Text.isLineEnd, decide_eq_false_iff_not]
    simp only [List.mem_cons, List.not_mem_nil, or_false, not_or]
    exact ⟨other rfl, other rfl, other rfl, other rfl, other rfl, other rfl, other rfl, other rfl,
      other rfl, other rfl⟩

/-- A token is a reference written with its name only, and without a default. -/
structure Token.Refers (t : Token) (name : String) : Prop where
  content : t.content = .variable name
  lexeme : t.lexeme = "$" ++ name

/-- A place in an editor is one of the characters of a span that lies in one line. -/
structure Span.Covers (s : Span) (line character : Nat) : Prop where
  line : line + 1 = s.start.line
  start : s.start.column ≤ character + 1
  stop : character + 1 < s.stop.column

variable {t : Token} {name : String}

theorem Token.Refers.named (h : t.Refers name) (proper : t.Proper) :
    ∀ c ∈ name.toList, Lexer.isNameChar c := by
  rw [Token.Proper, h.content] at proper
  have named := (Bool.and_eq_true_iff.mp (Bool.and_eq_true_iff.mp proper).1).2
  exact List.all_eq_true.mp named

theorem Token.Refers.toList (h : t.Refers name) : t.lexeme.toList = '$' :: name.toList := by
  rw [h.lexeme, String.toList_append]
  rfl

theorem Token.Refers.plain (h : t.Refers name) (proper : t.Proper) :
    ∀ c ∈ t.lexeme.toList, isWordStop c = false ∧ Text.isLineEnd c = false := by
  rw [h.toList]
  refine List.forall_mem_cons.mpr ⟨⟨rfl, rfl⟩, fun c hc => ?_⟩
  exact Lexer.isNameChar_plain (h.named proper c hc)

/-- Where the characters of a word stand, by line and column. -/
theorem Span.Covers.exists_eq {before word : List Char} {line character : Nat} (free : '\n' ∉ word)
    (h : Span.Covers ⟨.after .start before, .after .start (before ++ word)⟩ line character) :
    line = before.count '\n' ∧
      ∃ k < word.length, character = (Text.lastLine before).length + k := by
  obtain ⟨hl, hs, ht⟩ := h
  rw [Position.line_after_start] at hl
  rw [Position.column_after_start] at hs ht
  rw [Text.lastLine_append free, List.length_append] at ht
  exact ⟨Nat.succ.inj hl, character - (Text.lastLine before).length, by omega, by omega⟩

theorem wordAt_eq_error_iff {line character : Nat} :
    wordAt text line character = .error .pastEnd ↔
      ∃ cs, (Text.linesWithEnds text)[line]? = some cs ∧ cs.length < character := by
  rw [wordAt]
  cases (Text.linesWithEnds text)[line]? with
  | none => simp
  | some cs => simp

namespace Editor

variable {e : Editor} {address : String} {d : Document} {line character : Nat}

theorem hover_eq_error_iff : e.hover address line character = .error .pastEnd ↔
    ∃ d, e.document? address = some d ∧ wordAt d.text line character = .error .pastEnd := by
  rw [hover]
  cases e.document? address with
  | none => simp [pure, Except.pure]
  | some d =>
    cases found : wordAt d.text line character with
    | error f => simp [found, bind, Except.bind]
    | ok word => cases word <;> simp [found, pure, Except.pure]

/-- What is found at a reference is what the document knows of its name. -/
theorem hover_eq_ok (opened : e.document? address = some d) {s : Symbol}
    (found : wordAt d.text line character = .ok (some t.lexeme)) (h : t.Refers name)
    (proper : t.Proper) (known : d.symbols.get? name = some s) :
    e.hover address line character = .ok (some (describe s)) := by
  have bare : name.toList.dropWhile (· = '$') = name.toList := by
    refine List.dropWhile_eq_self_iff.mpr fun some_ dollar => ?_
    have named := h.named proper _ (List.getElem_mem some_)
    rw [of_decide_eq_true dollar] at named
    cases named
  have stripped : String.ofList (t.lexeme.toList.dropWhile (· = '$')) = name := by
    rw [h.toList, List.dropWhile_cons, if_pos (decide_eq_true rfl), bare, String.ofList_toList]
  rw [hover, opened]
  simp only [found, ok_bind, stripped, known]
  rfl

/-- What is shown about the word at a place. There is no answer exactly where the place lies beyond
the end of its line. Where all lines before a reference end as positions count them, the word at
any of its characters is the reference itself exactly if the characters around it, as far as there
are any, are stops; and then what is shown is the symbol. -/
theorem hover_reference (e : Editor) (address : String) (line character : Nat) :
    (e.hover address line character = .error .pastEnd ↔ ∃ d cs, e.document? address = some d ∧
      (Text.linesWithEnds d.text)[line]? = some cs ∧ cs.length < character) ∧
    ∀ d, e.document? address = some d → ∀ t ∈ (tokenize d.text).tokens, ∀ name s, t.Refers name →
      d.symbols.get? name = some s → t.span.Covers line character →
      Text.breaksPlainly (d.text.take t.span.start.offset) →
      let alone := (∀ c ∈ (d.text.take t.span.start.offset).getLast?, isWordStop c) ∧
        ∀ c ∈ (d.text.drop t.span.stop.offset).head?, isWordStop c
      (wordAt d.text line character = .ok (some t.lexeme) ↔ alone) ∧
        (alone → e.hover address line character = .ok (some (describe s))) := by
  refine ⟨?_, ?_⟩
  · rw [hover_eq_error_iff]
    simp only [wordAt_eq_error_iff, exists_and_left]
  · intro d opened t ht name s refers known covers plain alone
    have real : t.content ≠ .endOfInput := by
      rw [refers.content]
      exact fun h => by cases h
    obtain ⟨proper, before, rest, text, span⟩ :=
      ((View.standsIn_whole d.text).lexemes t ht).resolve_left real
    have whole := refers.plain proper
    have free : '\n' ∉ t.lexeme.toList := fun feed => by cases (whole _ feed).1
    have start : t.span.start.offset = before.length := by
      rw [span, Position.offset_after]
      exact Nat.zero_add _
    have stop : t.span.stop.offset = before.length + t.lexeme.toList.length := by
      rw [span, Position.offset_after, List.length_append]
      exact Nat.zero_add _
    have behind : d.text.drop t.span.stop.offset = rest := by
      rw [stop, text, List.drop_length_add_append, List.drop_left]
    have ahead : d.text.take t.span.start.offset = before := by
      rw [start, text, List.take_left]
    rw [span] at covers
    obtain ⟨hl, k, hk, hc⟩ := covers.exists_eq free
    have found := wordAt_append (ahead ▸ plain) whole rest hk
    rw [← text, ← hl, ← hc] at found
    have same : wordAt d.text line character = .ok (some t.lexeme) ↔ alone := by
      simp only [alone, ahead, behind]
      rw [found, ← word_eq_iff before t.lexeme.toList rest, String.ofList_toList, Except.ok.injEq,
        Option.some_inj]
    exact ⟨same, fun both => hover_eq_ok opened (same.mpr both) refers proper known⟩

/-- A text with a reference in parentheses. -/
def referenceSample : List Char :=
  "let $a = 1; ($a)".toList

/-- An editor with this text open. -/
def openSample : Editor :=
  (empty.update "m" referenceSample).2

/-- The reference is found, and a place behind the parentheses has no answer. -/
theorem hover_reference_sample :
    openSample.hover "m" 0 14 = .ok (some "$a: Int (var, defined at 1:1)") ∧
      openSample.hover "m" 0 17 = .error .pastEnd := by
  have opened : openSample.document? "m" = some (.ofText referenceSample) := rfl
  have text : (Document.ofText referenceSample).text = referenceSample := by
    decide +kernel
  constructor
  · have read : ⟨.variable "a", "$a", ⟨13, 1, 14⟩, ⟨15, 1, 16⟩⟩ ∈
        (tokenize (Document.ofText referenceSample).text).tokens := by
      decide +kernel
    have before : ((Document.ofText referenceSample).text.take 13).getLast? = some '(' := by
      decide +kernel
    have behind : ((Document.ofText referenceSample).text.drop 15).head? = some ')' := by
      decide +kernel
    have found := ((hover_reference openSample "m" 0 14).2 _ opened _ read "a"
      ⟨"a", .value, 0, 0, "Int"⟩ ⟨rfl, rfl⟩ (by decide +kernel) ⟨rfl, by decide, by decide⟩
      (by decide +kernel)).2
    refine (found ⟨?_, ?_⟩).trans (by decide +kernel)
    · rw [before]
      rintro _ ⟨⟩
      rfl
    · rw [behind]
      rintro _ ⟨⟩
      rfl
  · exact (hover_reference openSample "m" 0 17).1.mpr
      ⟨_, referenceSample, opened, by rw [text]; decide +kernel, by decide⟩

end Editor

end Sigil
