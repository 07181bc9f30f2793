import Sigil.Proofs.Token.Through

/-!
# Pieces of a text

A text may be written as one piece behind the other, and is then cut into the
tokens of the pieces, in turn (`Cuts`). A piece may be a mark of one character,
whatever follows it (`cuts_delimiter`); blanks, which have no tokens
(`cuts_blanks`); or a text with tokens of its own, before what ends every token
(`cuts_text`). If that has no more than one token (`IsToken`), and this is a
word, a parenthesis may follow too (`IsToken.cuts_paren`).
-/

namespace Sigil

namespace Lexer

variable {p : Position} {c : Char} {cs : List Char} {n : Nat}

theorem gapLength_of_mem_delimiters (hc : c ∈ delimiters) (cs : List Char) :
    gapLength false (c :: cs) = 0 := by
  have visible : delimiters.all fun d => !Text.isBlank d && d ≠ '#' := by decide
  have here := List.all_eq_true.mp visible c hc
  simp only [Bool.and_eq_true, Bool.not_eq_true', decide_eq_true_eq] at here
  simp [gapLength, here]

/-- A word that is all of a text is read before a parenthesis. -/
theorem content_word_paren {beyond : List Char} (h : content p c cs beyond = .ok (.word, cs.length))
    (q : Position) (more : List Char) :
    content q c (cs ++ '(' :: more) [] = .ok (.word, cs.length) := by
  generalize length : cs.length = n at h
  cases content_eq_ok_iff.mp h with
  | word beyond starts =>
    have all : cs.takeWhile isWordChar = cs := (List.takeWhile_sublist _).eq_of_length length.symm
    have whole : (cs ++ '(' :: more).takeWhile isWordChar = cs.takeWhile isWordChar := by
      rw [List.takeWhile_append, if_pos length.symm, List.takeWhile_cons_of_neg (by decide),
        List.append_nil, all]
    have starts : startsWord (c :: (cs ++ '(' :: more)) := by
      rw [startsWord_cons] at starts ⊢
      cases cs with
      | nil => simpa using starts
      | cons d cs => exact starts
    rw [← whole]
    exact (ReadsToken.word [] starts).read

end Lexer

/-! ## Pieces -/

/-- A mark of one character. -/
def Token.delimiterAt (before : List Char) (d : Char) : Token :=
  ⟨.delimiter, String.ofList [d], ⟨.after .start before, .after .start (before ++ [d])⟩⟩

theorem Token.delimiterAt_open (before : List Char) : (delimiterAt before '(').isDelimiter "(" := rfl

theorem Token.delimiterAt_close (before : List Char) : (delimiterAt before ')').isDelimiter ")" := rfl

/-- The tokens of a piece of a text, which come before those of what follows it. Where the piece
stands is told by what comes before it. -/
def Cuts (before piece more : List Char) (ts : List Token) : Prop :=
  (View.mk (.after .start before) (piece ++ more) []).tokens =
    (View.mk (.after .start (before ++ piece)) more []).tokens.prepend ts

section

variable {before piece more : List Char} {ts us : List Token}

theorem Cuts.append {other : List Char} (h : Cuts before piece (other ++ more) ts)
    (k : Cuts (before ++ piece) other more us) : Cuts before (piece ++ other) more (ts ++ us) := by
  unfold Cuts at h k ⊢
  rw [List.append_assoc, h, k, List.append_assoc, Lexed.prepend, Lexed.prepend, Lexed.prepend,
    List.append_assoc]

/-- Nothing is left of a piece at its end. -/
theorem cuts_nil : Cuts before [] more [] := by
  unfold Cuts
  rw [List.append_nil]
  rfl

/-- A piece that is all of a text. -/
theorem Cuts.whole (h : Cuts [] piece [] ts) :
    tokenize piece = ⟨ts ++ [.atEnd (.after .start piece)], none⟩ := by
  unfold Cuts at h
  rw [List.append_nil] at h
  exact h.trans (by rw [View.tokens_nil rfl]; simp [Lexed.prepend, View.advance])

/-- The marks of one character are tokens, whatever follows them. -/
theorem cuts_delimiter {d : Char} (hd : d ∈ Lexer.delimiters) :
    Cuts before [d] more [.delimiterAt before d] := by
  have cut := View.tokens_first (p := .after .start before) [] [] more
    (Lexer.gapLength_of_mem_delimiters hd more) (Lexer.ReadsToken.mark more [] hd).read
  exact cut.trans (by simp [Position.after_append, Lexed.prepend, Lexed.cons, Token.delimiterAt])

/-- A piece that begins with a mark. -/
theorem Cuts.delimiter {d : Char} (hd : d ∈ Lexer.delimiters)
    (h : Cuts (before ++ [d]) piece more ts) :
    Cuts before (d :: piece) more (.delimiterAt before d :: ts) :=
  (cuts_delimiter hd).append h

/-- Blanks are passed over. -/
theorem cuts_blanks {gap : List Char} (blank : ∀ c ∈ gap, Text.isBlank c) :
    Cuts before gap more [] := by
  have goesOn : Lexer.GoesOn gap more := by
    induction gap with
    | nil => exact Lexer.goesOn_nil more
    | cons c gap ih =>
      obtain ⟨hc, rest⟩ := List.forall_mem_cons.mp blank
      rw [Lexer.GoesOn, List.cons_append, Lexer.gapLength, if_pos hc, Bool.false_and, ih rest,
        List.length_cons]
      omega
  unfold Cuts
  rw [View.tokens_goesOn goesOn, Position.after_append]
  rfl

/-- A piece that begins with blanks. -/
theorem Cuts.blanks (gap : List Char) (blank : ∀ c ∈ gap, Text.isBlank c)
    (h : Cuts (before ++ gap) piece more ts) : Cuts before (gap ++ piece) more ts :=
  (cuts_blanks blank).append h

theorem blank_space : ∀ c ∈ [' '], Text.isBlank c :=
  List.forall_mem_singleton.mpr rfl

theorem blank_newline : ∀ c ∈ ['\n'], Text.isBlank c :=
  List.forall_mem_singleton.mpr rfl

theorem Position.placed_after (cs : List Char) :
    1 ≤ (after .start cs).line ∧ 1 ≤ (after .start cs).column := by
  have kept (cs : List Char) (p : Position) (h : 1 ≤ p.line ∧ 1 ≤ p.column) :
      1 ≤ (p.after cs).line ∧ 1 ≤ (p.after cs).column := by
    induction cs generalizing p with
    | nil => exact h
    | cons c cs ih =>
      refine ih (p.step c) ?_
      rw [step]
      split <;> simp only <;> omega
  exact kept cs .start ⟨le_rfl, le_rfl⟩

/-- A text with tokens of its own, before what ends every token, unless it ends in a comment that
goes on there. -/
theorem cuts_text {p : Position} (h : tokenize piece = ⟨ts ++ [.atEnd p], none⟩)
    (apart : Lexer.Apart more) (clear : more.head? = some '\n' ∨ Closed piece) :
    Cuts before piece more (ts.map (·.embedded ⟨.after .start before, more⟩)) := by
  unfold Cuts
  rw [Position.after_append]
  exact View.tokens_through (Position.placed_after before) apart h clear

end

/-! ## Texts of one token -/

/-- The text is one token, from its first character to its last. -/
def IsToken (text : List Char) (t : Token) : Prop :=
  tokenize text = ⟨[t, .atEnd (.after .start text)], none⟩ ∧ t.lexeme = String.ofList text

instance (text : List Char) (t : Token) : Decidable (IsToken text t) :=
  inferInstanceAs (Decidable (_ ∧ _))

namespace IsToken

variable {text : List Char} {t : Token}

theorem cut (h : IsToken text t) : tokenize text = ⟨[t] ++ [.atEnd (.after .start text)], none⟩ :=
  h.1

/-- The one token of a text begins where the text does and takes up all of it. -/
theorem reads (h : IsToken text t) : ∃ c cs said u, text = c :: cs ∧
    Lexer.gapLength false text = 0 ∧ Lexer.content .start c cs [] = .ok (said, cs.length) ∧
    t = ⟨said, String.ofList text, ⟨.start, .after .start text⟩⟩ ∧
    View.Reads (.whole text) [t] u ∧ u.inside = [] := by
  have lexeme := h.2
  obtain ⟨u, reads, -⟩ := View.exists_reads h.cut
  have first := reads
  cases first with
  | @token v w u c cs said n ts hw hi hc rest =>
    cases rest
    have inside : text.drop (Lexer.gapLength false text) = c :: cs := by
      rw [← hi, ← hw]
      rfl
    have none : w.beyond = [] := hw ▸ View.beyond_advance_nil rfl _
    rw [none, List.append_nil, hi] at lexeme
    have taken : (c :: cs).take (n + 1) = text := String.ofList_injective lexeme
    -- the lexeme is as long as the text, so that no gap comes before it
    have shorter := congrArg List.length inside
    have longer := congrArg List.length taken
    rw [List.length_drop, List.length_cons] at shorter
    rw [List.length_take, List.length_cons] at longer
    have gap : Lexer.gapLength false text = 0 := by omega
    rw [gap, List.drop_zero] at inside
    subst inside
    obtain rfl : w = ⟨.start, c :: cs, []⟩ := by
      rw [← hw, show (View.whole (c :: cs)).inside = c :: cs from rfl, gap]
      simp [View.advance, View.whole]
    have length : n = cs.length := by
      have := Lexer.content_length hc
      simp only [List.length_nil, List.length_cons] at this longer
      omega
    subst length
    refine ⟨c, cs, said, _, rfl, gap, hc, ?_, reads, ?_⟩
    · simp [View.advance]
    · simp [View.advance]

/-- No comment is open behind a token. -/
theorem closed (h : IsToken text t) : Closed text := by
  obtain ⟨-, -, -, u, -, -, -, -, reads, spent⟩ := h.reads
  exact View.closed_of_reads h.cut reads spent

theorem span (h : IsToken text t) : t.span = ⟨.start, .after .start text⟩ := by
  obtain ⟨-, -, -, -, -, -, -, rfl, -⟩ := h.reads
  rfl

/-- A token before what ends tokens. -/
theorem cuts (h : IsToken text t) {before more : List Char} (apart : Lexer.Apart more) :
    Cuts before text more [t.embedded ⟨.after .start before, more⟩] :=
  cuts_text h.cut apart (.inr h.closed)

/-- A word right before a parenthesis. -/
theorem cuts_paren (h : IsToken text t) (word : t.content = .word) {before more : List Char} :
    Cuts before text ('(' :: more)
      [⟨.word, t.lexeme, ⟨.after .start before, .after .start (before ++ text)⟩⟩] := by
  obtain ⟨c, cs, said, u, rfl, gap, content, rfl, -⟩ := h.reads
  obtain rfl : said = .word := word
  have passed : Lexer.gapLength false (c :: cs ++ '(' :: more) = 0 := by
    rw [Lexer.gapLength_inside (by rw [gap]; exact Nat.succ_pos _), gap]
  have cut := View.tokens_first (p := .after .start before) [] cs ('(' :: more) passed
    (Lexer.content_word_paren content _ more)
  exact cut.trans (by simp [Position.after_append, Lexed.prepend, Lexed.cons])

end IsToken

end Sigil
