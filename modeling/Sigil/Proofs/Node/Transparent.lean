import Sigil.Proofs.Node.Whole

/-!
# Parentheses and the two styles of commands

What is read of an expression does not depend on whether the text ends behind it
or a parenthesis or a comma comes. So an expression in parentheses is that
expression, and a command is the same whether parentheses are about all of its
arguments, right behind its name, or about each of them
(`Parser.parseProgram_parentheses`). The end of a line behind each expression
ends a comment that it may have there.
-/

namespace Sigil

/-- A command with parentheses about all of its arguments. -/
def callStyle (word : List Char) (args : List (List Char)) : List Char :=
  word ++ '(' :: ([',', ' '].intercalate (args.map (· ++ ['\n'])) ++ [')'])

/-- A command with parentheses about each of its arguments. -/
def commandStyle (word : List Char) (args : List (List Char)) : List Char :=
  word ++ args.flatMap fun arg => ' ' :: '(' :: (arg ++ ['\n'] ++ [')'])

namespace Parser

variable {k : Nat} {args : List (List Char × Node)}

/-! ## Arguments -/

/-- Expressions behind commas. -/
def items (args : List (List Char × Node)) : List Char :=
  args.flatMap fun a => ',' :: ' ' :: (a.1 ++ ['\n'])

/-- Expressions in parentheses. -/
def groups (args : List (List Char × Node)) : List Char :=
  args.flatMap fun a => ' ' :: '(' :: (a.1 ++ ['\n'] ++ [')'])

theorem length_lt_flatMap {piece : List Char × Node → List Char}
    (longer : ∀ a, a.1.length < (piece a).length) :
    ∀ a ∈ args, a.1.length < (args.flatMap piece).length := by
  intro a ha
  have here : (piece a).Sublist (args.flatMap piece) :=
    List.sublist_flatten_of_mem (List.mem_map_of_mem ha)
  exact (longer a).trans_le here.length_le

theorem length_lt_items : ∀ a ∈ args, a.1.length < (items args).length :=
  length_lt_flatMap fun a => by simp only [List.length_cons, List.length_append]; omega

theorem length_lt_groups : ∀ a ∈ args, a.1.length < (groups args).length :=
  length_lt_flatMap fun a => by simp only [List.length_cons, List.length_append]; omega

section

variable (h : ∀ a ∈ args, IsExpression a.1 a.2) (short : ∀ a ∈ args, a.1.length < k)
include h short

theorem cuts_items (before more : List Char) : ∃ us, Cuts before (items args) more us ∧
    Laps (nextItem (expressionUpTo k)) Node.erase Token.endsExpression (args.map (·.2.erase)) us := by
  induction args generalizing before with
  | nil => exact ⟨[], cuts_nil, .nil⟩
  | cons a args ih =>
    obtain ⟨ha, h⟩ := List.forall_mem_cons.mp h
    obtain ⟨hk, short⟩ := List.forall_mem_cons.mp short
    obtain ⟨us, cuts, laps⟩ := ih h short (before ++ [','] ++ [' '] ++ (a.1 ++ ['\n']))
    obtain ⟨x, ts, stands⟩ := ha.line (before ++ [','] ++ [' ']) (items args ++ more)
    refine ⟨_, ((stands.cuts.append cuts).blanks [' '] blank_space).delimiter (by decide),
      .cons rfl ?_ laps⟩
    exact takes_nextItem rfl (stands.takes k hk)

theorem cuts_groups (before more : List Char) : ∃ us, Cuts before (groups args) more us ∧
    Laps (nextArgument (expressionUpTo k)) Node.erase (fun _ => true) (args.map (·.2.erase)) us := by
  induction args generalizing before with
  | nil => exact ⟨[], cuts_nil, .nil⟩
  | cons a args ih =>
    obtain ⟨ha, h⟩ := List.forall_mem_cons.mp h
    obtain ⟨hk, short⟩ := List.forall_mem_cons.mp short
    obtain ⟨us, cuts, laps⟩ := ih h short (before ++ [' '] ++ ('(' :: (a.1 ++ ['\n'] ++ [')'])))
    obtain ⟨x, ts, stands⟩ := ha.line (before ++ [' '] ++ ['(']) (')' :: (groups args ++ more))
    refine ⟨_, (stands.enclosed.append cuts).blanks [' '] blank_space, .cons rfl ?_ laps⟩
    exact takes_nextArgument (Token.delimiterAt_open _) (Token.delimiterAt_close _) stands.opens
      (stands.takes k hk)

end

/-! ## Whole texts -/

/-- An expression in parentheses is the only entry of a text. -/
theorem parseProgram_enclosed {text : List Char} {n : Node} (h : IsExpression text n) :
    ∃ span m, parseProgram ('(' :: (text ++ ['\n'] ++ [')'])) = .ok (.program span [m]) ∧
      m.erase = n.erase := by
  obtain ⟨x, ts, stands⟩ := h.line ([] ++ ['(']) (')' :: [])
  refine parseProgram_of_takes rfl stands.enclosed.whole (.inr rfl) ?_
  refine takes_enclosed (Token.delimiterAt_open _) (Token.delimiterAt_close _) stands.opens ?_
  refine stands.takes _ ?_
  simp only [List.length_cons, List.length_append]
  omega

theorem callStyle_cons (word first : List Char) (args : List (List Char × Node)) :
    callStyle word (first :: args.map Prod.fst) =
      word ++ '(' :: (first ++ ['\n'] ++ items args ++ [')']) := by
  have joined : [',', ' '].intercalate ((first :: args.map Prod.fst).map (· ++ ['\n'])) =
      first ++ ['\n'] ++ items args := by
    induction args generalizing first with
    | nil => simp [List.intercalate, items]
    | cons a args ih =>
      have rest := ih a.1
      simp only [List.map_cons, List.intercalate_cons_cons, items, List.flatMap_cons] at rest ⊢
      rw [rest]
      simp
  rw [callStyle, joined]

theorem commandStyle_cons (word first : List Char) (args : List (List Char × Node)) :
    commandStyle word (first :: args.map Prod.fst) =
      word ++ ([' '] ++ ('(' :: (first ++ ['\n'] ++ [')']) ++ groups args)) := by
  rw [commandStyle, List.flatMap_cons, List.flatMap_map]
  rfl

section

variable {word text : List Char} {t : Token} {n : Node} (hw : IsToken word t)
  (plain : t.isPlainWord) (hn : IsExpression text n) (h : ∀ a ∈ args, IsExpression a.1 a.2)
include hw plain hn h

/-- A command with parentheses about all of its arguments is the only entry of a text. -/
theorem parseProgram_callStyle : ∃ span c,
    parseProgram (callStyle word (text :: args.map Prod.fst)) = .ok (.program span [c]) ∧
      c.erase = (Node.command none [] t.lexeme (n :: args.map Prod.snd)).erase := by
  obtain ⟨content, free⟩ : t.content = .word ∧ t.lexeme ∉ Token.keywords := by
    simpa [Token.isPlainWord] using plain
  rw [callStyle_cons]
  obtain ⟨k, hk⟩ : ∃ k, (word ++ '(' :: (text ++ ['\n'] ++ items args ++ [')'])).length = k :=
    ⟨_, rfl⟩
  obtain ⟨first, others⟩ : text.length < k ∧ (items args).length < k := by
    simp only [List.length_cons, List.length_append] at hk
    omega
  obtain ⟨us, cuts, laps⟩ := cuts_items h (fun a ha => (length_lt_items a ha).trans others)
    (word ++ ['('] ++ (text ++ ['\n'])) [')']
  obtain ⟨x, ts, stands⟩ := hn.line (word ++ ['(']) (items args ++ [')'])
  have closing : Cuts (word ++ ['('] ++ (text ++ ['\n'] ++ items args)) [')'] []
    [.delimiterAt _ ')'] := cuts_delimiter (by decide)
  have inside := ((stands.cuts.append cuts).append closing).delimiter (by decide)
  have all : Cuts [] (word ++ _) [] _ := (hw.cuts_paren content).append inside
  refine parseProgram_of_command (by simp [Token.isPlainWord, free]) (Token.delimiterAt_open word)
    all.whole ?_ rfl
  rw [if_pos (by simp [adjacent, Token.delimiterAt]), hk, List.map_cons, List.map_map]
  exact takes_callArguments (Token.delimiterAt_open word) (Token.delimiterAt_close _) stands.opens
    (stands.takes k first) laps

/-- A command with parentheses about each of its arguments is the only entry of a text. -/
theorem parseProgram_commandStyle : ∃ span c,
    parseProgram (commandStyle word (text :: args.map Prod.fst)) = .ok (.program span [c]) ∧
      c.erase = (Node.command none [] t.lexeme (n :: args.map Prod.snd)).erase := by
  rw [commandStyle_cons]
  obtain ⟨k, hk⟩ : ∃ k,
      (word ++ ([' '] ++ ('(' :: (text ++ ['\n'] ++ [')']) ++ groups args))).length = k := ⟨_, rfl⟩
  obtain ⟨first, others⟩ : text.length < k ∧ (groups args).length < k := by
    simp only [List.length_cons, List.length_append] at hk
    omega
  obtain ⟨us, cuts, laps⟩ := cuts_groups h (fun a ha => (length_lt_groups a ha).trans others)
    (word ++ [' '] ++ ('(' :: (text ++ ['\n'] ++ [')']))) []
  obtain ⟨x, ts, stands⟩ := hn.line (word ++ [' '] ++ ['(']) (')' :: (groups args ++ []))
  have inside := (stands.enclosed.append cuts).blanks [' '] blank_space
  have apart : Lexer.Apart ([' '] ++ ('(' :: (text ++ ['\n'] ++ [')']) ++ groups args) ++ []) :=
    Lexer.apart_cons (by decide) _
  have all : Cuts [] (word ++ _) [] _ := (hw.cuts apart).append inside
  refine parseProgram_of_command (by rw [Token.isPlainWord_embedded, plain])
    (Token.delimiterAt_open _) all.whole ?_ rfl
  have gap (more : List Char) : adjacent (t.embedded ⟨.after .start [], more⟩)
      (.delimiterAt (word ++ [' ']) '(') = false := by
    simp [adjacent, Token.delimiterAt, Token.embedded, hw.span, Span.embedded, Position.embedded,
      Position.offset_after, Position.start]
  rw [gap, if_neg Bool.false_ne_true, hk, List.map_cons, List.map_map]
  have lap (piece : List Char) : Takes (nextArgument (expressionUpTo k)) (Option.map Node.erase)
      (some n.erase) (.delimiterAt (word ++ [' ']) '(' :: (x :: ts ++ [.delimiterAt piece ')']))
      fun _ => true :=
    takes_nextArgument (Token.delimiterAt_open _) (Token.delimiterAt_close _) stands.opens
      (stands.takes k first)
  exact takes_arguments (.cons rfl (lap _) laps)

end

/-- Parentheses about an expression mean nothing, and both styles of a command are one: an
expression in parentheses is the only entry of a text, and so are the commands, which are the
same. -/
theorem parseProgram_parentheses :
    (∀ text n, IsExpression text n → (∃ span, parseProgram text = .ok (.program span [n])) ∧
      ∃ span m, parseProgram ('(' :: (text ++ ['\n'] ++ [')'])) = .ok (.program span [m]) ∧
        m.same n) ∧
    ∀ word t (args : List (List Char × Node)), IsToken word t → t.isPlainWord → args ≠ [] →
      (∀ a ∈ args, IsExpression a.1 a.2) → ∃ span c span' c',
        parseProgram (callStyle word (args.map Prod.fst)) = .ok (.program span [c]) ∧
        parseProgram (commandStyle word (args.map Prod.fst)) = .ok (.program span' [c']) ∧
        c.same c' ∧ c.same (.command none [] (String.ofList word) (args.map Prod.snd)) := by
  refine ⟨fun text n h => ⟨h.parsed, ?_⟩, fun word t args hw plain some h => ?_⟩
  · obtain ⟨span, m, parsed, same⟩ := parseProgram_enclosed h
    exact ⟨span, m, parsed, same_of_parseProgram parsed same⟩
  · obtain ⟨a, args, rfl⟩ := List.exists_cons_of_ne_nil some
    obtain ⟨ha, h⟩ := List.forall_mem_cons.mp h
    obtain ⟨span, c, parsed, same⟩ := parseProgram_callStyle hw plain ha h
    obtain ⟨span', c', parsed', same'⟩ := parseProgram_commandStyle hw plain ha h
    refine ⟨span, c, span', c', parsed, parsed', ?_, ?_⟩
    · exact same_of_parseProgram parsed (same.trans same'.symm)
    · exact same_of_parseProgram parsed (by rw [same, hw.2]; rfl)

/-- An expression with a comment at its end. -/
def commentedSample : List Char :=
  "$a = f 1 # )".toList

theorem parseProgram_parentheses_commentedSample : ∃ n m t, IsExpression commentedSample n ∧
    IsExpression "return".toList m ∧ IsToken "g".toList t ∧ t.isPlainWord ∧
    (∃ span k, parseProgram ('(' :: (commentedSample ++ ['\n'] ++ [')'])) =
      .ok (.program span [k]) ∧ k.same n) ∧
    ∃ span c span' c',
      parseProgram (callStyle "g".toList [commentedSample, "return".toList]) =
        .ok (.program span [c]) ∧
      parseProgram (commandStyle "g".toList [commentedSample, "return".toList]) =
        .ok (.program span' [c']) ∧ c.same c' ∧ c.same (.command none [] "g" [n, m]) := by
  obtain ⟨n, hn⟩ := isExpression_iff.mp (show isExpression commentedSample by decide +kernel)
  obtain ⟨m, hm⟩ := isExpression_iff.mp (show isExpression "return".toList by decide +kernel)
  have word : IsToken "g".toList ⟨.word, "g", ⟨.start, ⟨1, 1, 2⟩⟩⟩ := by decide +kernel
  refine ⟨n, m, _, hn, hm, word, by decide, (parseProgram_parentheses.1 _ n hn).2, ?_⟩
  refine parseProgram_parentheses.2 _ _ [(commentedSample, n), ("return".toList, m)] word
    (by decide) (List.cons_ne_nil _ _) ?_
  exact List.forall_mem_cons.mpr ⟨hn, List.forall_mem_cons.mpr ⟨hm, List.forall_mem_nil _⟩⟩

end Parser

end Sigil
