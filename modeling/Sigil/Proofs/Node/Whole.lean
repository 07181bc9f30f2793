import Sigil.Proofs.Node.Taken
import Sigil.Proofs.Node.Tracked
import Sigil.Proofs.Token.Pieces

/-!
# Texts that are expressions

A text is an expression if the reader of expressions reads it from its first
token to its last (`IsExpression`). Such a text may stand in a longer one,
before a closing parenthesis or a comma: where its tokens are ahead and then the
mark, the same expression is read, and the mark is next
(`IsExpression.reads`). The tokens of a text with an end are taken to those of
the longer text first, and then to those before a mark.
-/

namespace Sigil

/-- The text is an expression, from its first token to its last. -/
def IsExpression (text : List Char) (n : Node) : Prop :=
  ∃ u, (Parser.expressionUpTo (text.length + 1)).run (.ofLexed (tokenize text) false 0) =
    .ok (n, u) ∧ u.Over

/-- Whether the text is an expression. -/
def isExpression (text : List Char) : Bool :=
  ((Parser.expressionUpTo (text.length + 1)).run (.ofLexed (tokenize text) false 0)).toOption.any
    fun r => r.2.ahead.head?.any (·.content = .endOfInput)

theorem isExpression_iff {text : List Char} : isExpression text ↔ ∃ n, IsExpression text n := by
  unfold isExpression IsExpression
  cases (Parser.expressionUpTo (text.length + 1)).run (.ofLexed (tokenize text) false 0) with
  | error e => simp [Except.toOption]
  | ok r =>
    obtain ⟨n, u⟩ := r
    have ended : u.ahead.head?.any (·.content = .endOfInput) ↔ u.Over := by
      unfold Stream.Over
      cases u.ahead <;> simp
    rw [Except.toOption, Option.any_some, ended]
    constructor
    · exact fun ended => ⟨n, u, rfl, ended⟩
    · rintro ⟨m, v, same, ended⟩
      cases same
      exact ended

/-- The end of a text is not among its tokens. -/
theorem tokenize_real {text : List Char} {ts : List Token} {p : Position}
    (cut : tokenize text = ⟨ts ++ [.atEnd p], none⟩) : ∀ t ∈ ts, t.content ≠ .endOfInput := by
  obtain ⟨ts', real, ⟨err, fails⟩ | ⟨q, cut'⟩⟩ := (View.whole text).tokens_end
  · cases cut.symm.trans fails
  · obtain ⟨rfl, -⟩ := List.append_inj' (congrArg Lexed.tokens (cut.symm.trans cut')) rfl
    exact real

namespace IsExpression

variable {text : List Char} {n : Node}

theorem isWritten (h : IsExpression text n) : n.isWritten := by
  obtain ⟨u, run, -⟩ := h
  exact ((Parser.able_tokenize text false _ (.refl _)).of_ok run).2

/-- The text can be cut into tokens. -/
theorem tokens (h : IsExpression text n) : ∃ ts p, tokenize text = ⟨ts ++ [.atEnd p], none⟩ := by
  obtain ⟨u, run, e, xs, ahead, ended⟩ := h
  obtain ⟨ts, real, ⟨err, fails⟩ | ⟨p, cut⟩⟩ := (View.whole text).tokens_end
  · -- the end that the reader came to would be one of the tokens before the fault
    obtain ⟨read, split, -⟩ := ((Parser.able_tokenize text false _ (.refl _)).of_ok run).1
    have all : (Stream.ofLexed (tokenize text) false 0).ahead = ts := congrArg Lexed.tokens fails
    refine absurd ended (real e ?_)
    rw [← all, split, ahead]
    exact List.mem_append_right _ List.mem_cons_self
  · exact ⟨ts, p, cut⟩

section

variable {ts : List Token} {p : Position} (h : IsExpression text n)
  (cut : tokenize text = ⟨ts ++ [.atEnd p], none⟩)
include h cut

/-- The tokens of the text nest, and the expression is read where they are in a longer text and
nothing else is ahead. -/
theorem embedded (e : Embedding) (names : ∀ c ∈ e.more.head?, Lexer.isNameChar c = false)
    {k : Nat} (hk : text.length < k) {t : Stream}
    (ahead : t.ahead = ts.map (·.embedded e) ++ [.atEnd (p.embedded e)]) :
    Token.nest 0 ts = some 0 ∧ ∃ v, (Parser.expressionUpTo k).run t =
      .ok (n.relabel e.relabel, v) ∧ v.ahead = [.atEnd (p.embedded e)] := by
  have real := tokenize_real cut
  obtain ⟨u, run, ended⟩ := h
  let c : Border e := ⟨ts, none, [.atEnd p], [.atEnd (p.embedded e)], real,
    .inr ⟨_, _, rfl, rfl, rfl, .inl rfl⟩⟩
  have plain (s : Stream) : ¬ c.Passed s := by
    rintro ⟨mark, stop, ends, -⟩
    cases ends
  have near : c.Near (t.ahead.length + 1) 0 false (.ofLexed (tokenize text) false 0) t :=
    ⟨congrArg Lexed.error cut, ⟨[], ts, rfl, rfl, congrArg Lexed.tokens cut, ahead⟩,
      (fun begun => by cases begun), Nat.lt_succ_self _⟩
  obtain ⟨-, m, v, ⟨rfl, along⟩, run'⟩ :=
    Parser.tracks_expressionUpTo names hk c _ 0 false _ t (.inl near) n u run
  obtain ⟨read, left, split, nested, hu, hv⟩ := (along.resolve_right (plain u)).ahead
  obtain ⟨x, xs, hx, spent⟩ := ended
  cases left with
  | nil =>
    rw [show ts = read from split.trans (List.append_nil read)]
    exact ⟨nested, v, run'.resolve_right (plain u), hv⟩
  | cons y left =>
    rw [hu, List.cons_append] at hx
    cases hx
    refine absurd spent (real x ?_)
    rw [show ts = _ from split]
    exact List.mem_append_right _ List.mem_cons_self

/-- Where the tokens of the text are ahead in a longer one, and then a mark, the expression is read
up to the mark. -/
theorem reads (e : Embedding) (names : ∀ c ∈ e.more.head?, Lexer.isNameChar c = false) {k : Nat}
    (hk : text.length < k) {mark : Token} (ends : mark.endsExpression) {rest : List Token}
    {s : Stream} (ahead : s.ahead = ts.map (·.embedded e) ++ mark :: rest) :
    ∃ m u, (Parser.expressionUpTo k).run s = .ok (m, u) ∧ m.erase = n.erase ∧
      u.ahead = mark :: rest := by
  -- a stream with these tokens alone, which is otherwise the same
  let t : Stream := { s with
    ahead := ts.map (·.embedded e) ++ [.atEnd (p.embedded e)], error := none }
  obtain ⟨-, v, run, hv⟩ := h.embedded cut e names hk (t := t) rfl
  have followed : t.Followed mark rest s := by
    refine ⟨rfl, ⟨_, _, rfl, ahead, rfl, fun x hx => ?_⟩, rfl⟩
    obtain ⟨y, hy, rfl⟩ := List.mem_map.mp hx
    exact (Token.content_embedded y).not.mpr (tokenize_real cut y hy)
  obtain ⟨m, u, run', rfl, left⟩ := Parser.expressionUpTo_persists ends k t s followed _ v run
  exact ⟨_, u, run', Node.erase_relabel rfl n, left.over ⟨_, _, hv, rfl⟩⟩

end

/-- The expression is the only entry of the text. -/
theorem parsed (h : IsExpression text n) : ∃ span, parseProgram text = .ok (.program span [n]) := by
  obtain ⟨u, run, e, es, ahead, spent⟩ := h
  exact Parser.parseProgram_of_over run (Stream.next_of_ahead ahead) spent

end IsExpression

/-! ## Expressions in longer texts -/

/-- An expression stands in a text: it is read from the tokens of a piece of the text. -/
structure Stands (least : Nat) (n : Node) (before piece more : List Char) (x : Token)
    (ts : List Token) : Prop where
  cuts : Cuts before piece more (x :: ts)
  opens : x.isDelimiter ")" = false
  takes : ∀ k, least < k → Parser.TakesTree (Parser.expressionUpTo k) n (x :: ts)

variable {text more : List Char} {n : Node}

theorem IsExpression.stands (h : IsExpression text n) (before : List Char)
    (apart : Lexer.Apart more) (clear : more.head? = some '\n' ∨ Closed text) :
    ∃ x ts, Stands text.length n before text more x ts := by
  obtain ⟨ts, p, cut⟩ := h.tokens
  have names : ∀ c ∈ more.head?, Lexer.isNameChar c = false := by
    have none : ∀ c ∈ ([] : List Char).head?, Lexer.isNameChar c = false := fun _ h => by cases h
    simpa using apart.names none
  let e : Embedding := ⟨.after .start before, more⟩
  let alone : Stream := ⟨ts.map (·.embedded e) ++ [.atEnd (p.embedded e)], none, false, none, 0⟩
  have ahead : alone.ahead = ts.map (·.embedded e) ++ [.atEnd (p.embedded e)] := rfl
  obtain ⟨nested, -⟩ := h.embedded cut e names (Nat.lt_succ_self _) ahead
  cases ts with
  | nil =>
    obtain ⟨u, run, -⟩ := h
    refine absurd run (Parser.stalls_expressionUpTo _ _ ⟨.atEnd p, [], ?_, rfl⟩ _)
    rw [cut]
    rfl
  | cons x ts =>
    refine ⟨x.embedded e, ts.map (·.embedded e), cuts_text cut apart clear, ?_, ?_⟩
    · obtain ⟨k, turns, -⟩ := Token.nest_cons nested
      refine Bool.eq_false_iff.mpr fun closes => ?_
      rw [Token.isDelimiter_embedded] at closes
      obtain ⟨content, lexeme, span⟩ := x
      obtain ⟨rfl, rfl⟩ : content = .delimiter ∧ lexeme = ")" := by
        simpa [Token.isDelimiter] using closes
      have none : Token.turn 0 ⟨.delimiter, ")", span⟩ = none := rfl
      cases none.symm.trans turns
    · intro k hk s mark rest ends ahead
      obtain ⟨m, u, run, same, left⟩ := h.reads cut e names hk ends ahead
      exact ⟨m, u, run, same, left⟩

/-- At the end of a line, anything may follow. -/
theorem IsExpression.line (h : IsExpression text n) (before more : List Char) :
    ∃ x ts, Stands text.length n before (text ++ ['\n']) more x ts := by
  have apart : Lexer.Apart ('\n' :: more) := Lexer.apart_cons (by decide) _
  obtain ⟨x, ts, stands⟩ := h.stands before apart (.inl rfl)
  have newline : Cuts (before ++ text) ['\n'] more [] := cuts_blanks blank_newline
  have cuts := stands.cuts.append newline
  rw [List.append_nil] at cuts
  exact ⟨x, ts, cuts, stands.opens, stands.takes⟩

/-- The piece with parentheses about it. -/
theorem Stands.enclosed {least : Nat} {before piece : List Char} {x : Token} {ts : List Token}
    (h : Stands least n (before ++ ['(']) piece (')' :: more) x ts) :
    Cuts before ('(' :: (piece ++ [')'])) more (.delimiterAt before '(' ::
      (x :: ts ++ [.delimiterAt (before ++ ['('] ++ piece) ')'])) := by
  have closing : Cuts (before ++ ['('] ++ piece) [')'] more [.delimiterAt _ ')'] :=
    cuts_delimiter (by decide)
  exact (h.cuts.append closing).delimiter (by decide)

end Sigil
