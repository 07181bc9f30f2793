import Sigil.Proofs.Node.Whole

/-!
# Operands with operators between them

A number, a reference or an expression in parentheses is an operand
(`IsOperand`), and a text may go on behind one with operators and further
operands, with blanks between them (`Chain.Written`). The whole text is read as
the tree that the operands and operators are meant as, unless a piece of them
between logical operators has several comparisons
(`Parser.parseProgram_chain`).
-/

namespace Sigil

/-- A text that is an operand by itself, and its tree. -/
inductive IsOperand : List Char → Node → Prop
  | token {text : List Char} {t : Token} {n : Node} (h : IsToken text t)
    (operand : t.operand? = some n) : IsOperand text n
  | enclosed {text : List Char} {n : Node} (h : IsExpression text n) (closed : Closed text) :
    IsOperand ('(' :: (text ++ [')'])) n

/-- Blanks, at least one. -/
def IsGap (gap : List Char) : Prop :=
  gap ≠ [] ∧ ∀ c ∈ gap, Text.isBlank c

/-- A text that is operators with the operands behind them. -/
inductive Chain.Written : List Char → List Link → Prop
  | nil : Written [] []
  | cons {before behind operand more : List Char} {op : BinaryOperator} {n : Node}
    {links : List Link} (hb : IsGap before) (known : op ∈ BinaryOperator.all) (ha : IsGap behind)
    (h : IsOperand operand n) (rest : Written more links) :
    Written (before ++ (op.symbol.toList ++ (behind ++ (operand ++ more)))) ((op, n) :: links)

theorem IsGap.apart {gap : List Char} (h : IsGap gap) (more : List Char) :
    Lexer.Apart (gap ++ more) := by
  obtain ⟨some, blank⟩ := h
  cases gap with
  | nil => exact absurd rfl some
  | cons c gap => exact Lexer.apart_cons (Lexer.endsToken_of_isBlank (blank c List.mem_cons_self)) _

theorem Chain.Written.apart {text : List Char} {links : List Link} (h : Written text links) :
    Lexer.Apart text := by
  cases h with
  | nil => exact fun _ none => by cases none
  | cons hb => exact hb.apart _

/-- The token of an operator. -/
theorem cuts_symbol {op : BinaryOperator} (known : op ∈ BinaryOperator.all)
    (before : List Char) {more : List Char} (apart : Lexer.Apart more) :
    ∃ o, Cuts before op.symbol.toList more [o] ∧ o.content = .operator ∧ o.lexeme = op.symbol := by
  have tokens : ∀ op ∈ BinaryOperator.all, IsToken op.symbol.toList
      ⟨.operator, op.symbol, ⟨.start, .after .start op.symbol.toList⟩⟩ := by decide +kernel
  exact ⟨_, (tokens op known).cuts apart, rfl, rfl⟩

namespace Parser

open Chain

variable {text more : List Char} {n : Node} {links : List Link}

/-- The tokens of an operand, which is read from them if it is not called. -/
theorem cuts_operand (h : IsOperand text n) (before : List Char) (apart : Lexer.Apart more) :
    ∃ x ts, Cuts before text more (x :: ts) ∧ startsArgument x ∧
      (∀ name, x.content = .variable name → ts = []) ∧
      ∀ k, text.length ≤ k → Takes (signed (expressionUpTo k)) Node.erase n.erase (x :: ts)
        fun t => !t.isDelimiter "(" := by
  have bare (t : Token) (h : !t.isDelimiter "(") : t.isDelimiter "(" = false := by simpa using h
  cases h with
  | @token _ t _ h operand =>
    have same : (t.embedded ⟨.after .start before, more⟩).operand? = some n := by
      obtain ⟨content, lexeme, span⟩ := t
      cases content <;> exact operand
    have starts : startsArgument (t.embedded ⟨.after .start before, more⟩) := by
      obtain ⟨content, lexeme, span⟩ := t
      cases content <;> first | rfl | cases operand
    exact ⟨_, [], h.cuts apart, starts, fun _ _ => rfl, fun k _ =>
      takes_signed (not_isSign_of_startsArgument starts) bare (takes_operand same)⟩
  | @enclosed text _ h closed =>
    have closing : Lexer.Apart (')' :: more) := Lexer.apart_cons (by decide) more
    obtain ⟨x, ts, stands⟩ := h.stands (before ++ ['(']) closing (.inr closed)
    refine ⟨_, _, stands.enclosed, rfl, (fun name content => by cases content), fun k hk => ?_⟩
    have short : text.length < k := by
      simp only [List.length_cons, List.length_append] at hk
      omega
    exact takes_signed rfl bare (takes_enclosed (Token.delimiterAt_open _)
      (Token.delimiterAt_close _) stands.opens (stands.takes k short))

/-- The tokens of operators and operands, which are read as links. -/
theorem cuts_links (h : Written text links) (before : List Char) : ∃ ts, Cuts before text [] ts ∧
    ∀ p, ∃ y ys, ts ++ [.atEnd p] = y :: ys ∧ y.isDelimiter "(" = false ∧
      y.isOperator "=" = false ∧ ∀ k, text.length ≤ k → ∀ s : Stream, s.ahead = y :: ys →
        ∃ t, Links (signed (expressionUpTo k)) s links t ∧ t.ahead = [.atEnd p] := by
  induction h generalizing before with
  | nil =>
    refine ⟨[], cuts_nil, fun p => ⟨.atEnd p, [], rfl, rfl, rfl, fun k _ s ahead => ?_⟩⟩
    exact ⟨s, ⟨rfl, _, Stream.next_of_ahead ahead, Token.not_isOneOf_of_end rfl _⟩, ahead⟩
  | @cons gap gap' operand more op n links hb known ha h rest ih =>
    obtain ⟨us, others, reads⟩ := ih (before ++ gap ++ op.symbol.toList ++ gap' ++ operand)
    have apart : Lexer.Apart (more ++ []) := by
      rw [List.append_nil]
      exact rest.apart
    obtain ⟨x, ts, cuts, starts, -, takes⟩ :=
      cuts_operand h (before ++ gap ++ op.symbol.toList ++ gap') apart
    have spaced : Lexer.Apart (gap' ++ (operand ++ more) ++ []) := by
      rw [List.append_nil]
      exact ha.apart _
    obtain ⟨o, symbol, operator, lexeme⟩ := cuts_symbol known (before ++ gap) spaced
    have all := (symbol.append ((cuts.append others).blanks gap' ha.2)).blanks gap hb.2
    refine ⟨_, all, fun p => ?_⟩
    obtain ⟨y, ys, next, bare, -, reads⟩ := reads p
    refine ⟨o, x :: ts ++ (us ++ [.atEnd p]), by simp, ?_, ?_, fun k hk s ahead => ?_⟩
    · simp [Token.isDelimiter, operator]
    · have other : ∀ op ∈ BinaryOperator.all, op.symbol ≠ "=" := by decide
      simp [Token.isOperator, lexeme, other op known]
    · simp only [List.length_append] at hk
      rw [next] at ahead
      exact links_cons operator lexeme known (takes k (by omega)) (by simp [bare]) ahead
        (reads k (by omega))

/-- A text of operands with operators between them is read as the tree that they are meant as, if
each piece of them between logical operators has no more than one comparison. -/
theorem parseProgram_chain {first : List Char} (h : IsOperand first n) (rest : Written more links) :
    if comparable (links.map Prod.fst) then
      ∃ span m, parseProgram (first ++ more) = .ok (.program span [m]) ∧ m.same (tree n links)
    else ∃ found, parseProgram (first ++ more) = .error (.parse ⟨.betweenComparisons, found⟩) := by
  obtain ⟨us, others, reads⟩ := cuts_links rest ([] ++ first)
  have apart : Lexer.Apart (more ++ []) := by
    rw [List.append_nil]
    exact rest.apart
  obtain ⟨x, ts, cuts, starts, target, takes⟩ := cuts_operand h [] apart
  have cut := (cuts.append others).whole
  obtain ⟨y, ys, next, bare, other, reads⟩ := reads (.after .start (first ++ more))
  have ahead : (Stream.ofLexed (tokenize (first ++ more)) false 0).ahead = x :: ts ++ y :: ys := by
    rw [cut, ← next]
    exact List.append_assoc _ _ _
  obtain ⟨short, rest⟩ : first.length ≤ (first ++ more).length ∧ more.length ≤ (first ++ more).length := by
    simp
  obtain ⟨u, gets, left⟩ := (takes _ short).gets (by simp [bare]) ahead
  obtain ⟨t, links, ended⟩ := reads _ rest u left
  have noTarget (name : String) (content : x.content = .variable name) : ∃ z,
      (Stream.ofLexed (tokenize (first ++ more)) false 0).peek 1 = .ok z ∧
        z.isOperator "=" = false := by
    rw [target name content] at ahead
    exact ⟨y, Stream.peek_of_ahead (by rw [ahead]; rfl), other⟩
  have read := parseProgram_operation starts (Stream.next_of_ahead ahead) noTarget gets links
    (Stream.next_of_ahead ended) rfl
  split_ifs at read ⊢
  · obtain ⟨span, m, parsed, same⟩ := read
    exact ⟨span, m, parsed, same_of_parseProgram parsed same⟩
  · exact read

/-- Operators of three levels, and an operand in parentheses. -/
def chainSample : List Char :=
  " - (2 - 3) * 4 < 5".toList

theorem parseProgram_chain_chainSample : ∃ n, IsOperand "$x".toList (.reference none "x" none) ∧
    Written chainSample [(.sub, n), (.mul, .literal none (.int 4)), (.less, .literal none (.int 5))] ∧
    ∃ span m, parseProgram ("$x".toList ++ chainSample) = .ok (.program span [m]) ∧
      m.same (tree (.reference none "x" none)
        [(.sub, n), (.mul, .literal none (.int 4)), (.less, .literal none (.int 5))]) := by
  obtain ⟨n, hn⟩ := isExpression_iff.mp (show isExpression "2 - 3".toList by decide +kernel)
  have first : IsToken "$x".toList ⟨.variable "x", "$x", ⟨.start, ⟨2, 1, 3⟩⟩⟩ := by decide +kernel
  have four : IsToken "4".toList ⟨.integer 4, "4", ⟨.start, ⟨1, 1, 2⟩⟩⟩ := by decide +kernel
  have five : IsToken "5".toList ⟨.integer 5, "5", ⟨.start, ⟨1, 1, 2⟩⟩⟩ := by decide +kernel
  have gap : IsGap [' '] := ⟨List.cons_ne_nil _ _, blank_space⟩
  have written : Written chainSample
      [(.sub, n), (.mul, .literal none (.int 4)), (.less, .literal none (.int 5))] := by
    have split : chainSample = [' '] ++ (BinaryOperator.sub.symbol.toList ++ ([' '] ++
        (('(' :: ("2 - 3".toList ++ [')'])) ++ ([' '] ++ (BinaryOperator.mul.symbol.toList ++
          ([' '] ++ ("4".toList ++ ([' '] ++ (BinaryOperator.less.symbol.toList ++
            ([' '] ++ ("5".toList ++ []))))))))))) := by decide
    rw [split]
    refine .cons gap (by decide) gap (.enclosed hn (by decide +kernel)) ?_
    refine .cons gap (by decide) gap (.token four rfl) ?_
    exact .cons gap (by decide) gap (.token five rfl) .nil
  have operand : IsOperand "$x".toList (.reference none "x" none) := .token first rfl
  have read := parseProgram_chain operand written
  have single : comparable [.sub, .mul, .less] := by decide
  simp only [List.map_cons, List.map_nil, single, if_true] at read
  exact ⟨n, operand, written, read⟩

end Parser

end Sigil
