import Sigil.Proofs.Node.Alone
import Sigil.Proofs.Node.Tracked
import Sigil.Proofs.Token.Scanned

/-!
# Substitutions in quotes

The end of a substitution is found in two ways. Bare, it is where the entries in
it end, as the tokens are read; in a string, a raw scan looks for it, and what
comes before it is cut into tokens again. A text that the readers of tokens and
of entries go through up to its last character, the closing parenthesis, has
the same tokens and the same entries without it (`Parser.near_enclosed`,
`Parser.entries_border`), and the raw scan finds the same parenthesis
(`View.isClosed_enclosed`). So the substitution means the same in quotes
(`parseProgram_quoted`).
-/

namespace Sigil

/-- The text of a substitution. -/
def inSubstitution (s : List Char) : List Char :=
  '$' :: '(' :: (s ++ [')'])

/-- A text in quotes. -/
def inQuotes (cs : List Char) : List Char :=
  '"' :: (cs ++ ['"'])

/-- Where a text in quotes stands. -/
def Embedding.quotes : Embedding :=
  ⟨⟨1, 1, 2⟩, ['"']⟩

theorem Embedding.closed_quotes :
    ∀ ch ∈ quotes.more.head?, Lexer.isNameChar ch = false := by
  rintro _ ⟨⟩
  decide

/-- The mark that a substitution starts with, at the start of a text. -/
def Token.opening : Token :=
  ⟨.delimiter, "$(", ⟨.start, ⟨2, 1, 3⟩⟩⟩

/-- What comes after that mark: a stretch, and what lies beyond it. -/
def View.opened (s beyond : List Char) : View :=
  ⟨⟨2, 1, 3⟩, s, beyond⟩

/-- A text that starts with a token. -/
theorem tokenize_cons {c : Char} {cs : List Char} {said : Token.Content} {n : Nat}
    (visible : Lexer.isVisible c) (hc : Lexer.content .start c cs [] = .ok (said, n)) :
    tokenize (c :: cs) = ((View.whole (c :: cs)).advance (n + 1)).tokens.cons
      ⟨said, String.ofList ((c :: cs).take (n + 1)),
        ⟨.start, ((View.whole (c :: cs)).advance (n + 1)).position⟩⟩ := by
  have gap : (View.whole (c :: cs)).advance (Lexer.gapLength false (c :: cs)) =
      View.whole (c :: cs) := by
    rw [show Lexer.gapLength false (c :: cs) = 0 from Lexer.gapLength_gap false visible]
    simp [View.advance, View.whole]
  have tokens := View.tokens_cons gap rfl hc
  rwa [View.whole, List.append_nil] at tokens

/-! ## Bare -/

theorem tokenize_opening (cs : List Char) :
    tokenize ('$' :: '(' :: cs) = (View.opened cs []).tokens.cons .opening := by
  have hc : Lexer.content .start '$' ('(' :: cs) [] = .ok (.delimiter, 1) := rfl
  have rest : (View.whole ('$' :: '(' :: cs)).advance 2 = View.opened cs [] := by
    simp [View.advance, View.whole, View.opened, Position.start, Position.step]
  have tokens := tokenize_cons (by decide) hc
  rwa [rest] at tokens

namespace Parser

section

variable {expression : Parser Node} {s t : Stream} {n : Node} {opening : Token}

/-- A substitution is read as entries and the mark that closes them. -/
theorem run_substitution (ho : s.Next opening) (hd : opening.isDelimiter "$(")
    (h : (substitution expression).run s = .ok (n, t)) :
    ∃ body u mark, (entries expression (some ")")).run (s.pop opening) = .ok (body, u) ∧
      u.Next mark ∧ mark.isDelimiter ")" ∧
      n = .substitution (some ⟨opening.span.start, mark.span.stop⟩) body := by
  rw [substitution, StateT.run_bind, run_delimiter, ho, ok_bind, if_pos hd, ok_bind,
    StateT.run_bind] at h
  obtain ⟨⟨body, u⟩, hb, h⟩ := bind_eq_ok h
  rw [StateT.run_bind, run_delimiter] at h
  obtain ⟨⟨x, v⟩, hx, h⟩ := bind_eq_ok h
  obtain ⟨mark, hm, hx⟩ := bind_eq_ok hx
  split_ifs at hx with closes
  · cases hx
    cases h
    have last : (u.pop x).previous = some x := by unfold Stream.pop; split <;> rfl
    refine ⟨body, u, x, hb, hm, closes, ?_⟩
    show Node.substitution (some ⟨_, ((u.pop x).previous.getD _).span.stop⟩) _ = _
    rw [last]
    rfl
  · exact ((unexpected_wp (Q := fun _ _ => False)).of_ok hx).elim

theorem run_primary_opening (expression : Parser Node) (ho : s.Next .opening) :
    (primary expression).run s = (substitution expression).run s := by
  rw [primary, run_peek_bind ho]
  rfl

end

/-- What is read of a text that is one substitution: the entries in it, and the mark after
them. -/
theorem parseProgram_opening {cs : List Char} {outer inner : Option Span} {b : List Node}
    (h : parseProgram ('$' :: '(' :: cs) = .ok (.program outer [.substitution inner b])) :
    ∃ u mark, (entries (expressionUpTo (cs.length + 2)) (some ")")).run
        ⟨(View.opened cs []).tokens.tokens, (View.opened cs []).tokens.error, false,
          some .opening, 1⟩ = .ok (b, u) ∧
      u.Next mark ∧ mark.isDelimiter ")" ∧ mark ∈ (View.opened cs []).tokens.tokens ∧
      Node.areWritten b ∧ inner = some ⟨.start, mark.span.stop⟩ := by
  have next : (Stream.ofLexed (tokenize ('$' :: '(' :: cs)) false 0).Next .opening := by
    rw [tokenize_opening]
    rfl
  obtain ⟨⟨⟨span, body⟩, v⟩, hp, h⟩ := bind_eq_ok h
  cases h
  rw [run_program, next, ok_bind] at hp
  obtain ⟨⟨ns, v⟩, he, hp⟩ := bind_eq_ok hp
  cases hp
  obtain ⟨t, hn⟩ := entries_kept next (by decide) nofun he
  have primary := (wraps_expressionWith _).kept next rfl rfl hn
  rw [run_primary_opening _ next] at primary
  obtain ⟨body, u, mark, hb, hm, closes, same⟩ := run_substitution next rfl primary
  cases same
  rw [tokenize_opening] at hb
  have within := View.tokens_within (View.opened cs [])
  have able : Able (expressionUpTo (cs.length + 2)) ⟨(View.opened cs []).tokens.tokens,
      (View.opened cs []).tokens.error, false, some .opening, 1⟩ :=
    expressionUpTo_able _ _ (Nat.lt_succ_of_lt (Nat.lt_succ_self _)) _ within
  obtain ⟨⟨read, ahead, -⟩, written⟩ := (entries_wp _ able).of_ok hb
  obtain ⟨xs, found⟩ := Stream.Next.cons hm (Token.isDelimiter_content closes)
  refine ⟨u, mark, hb, hm, closes, ?_, written, rfl⟩
  rw [show (View.opened cs []).tokens.tokens = read ++ u.ahead from ahead, found]
  exact List.mem_append_right _ List.mem_cons_self

section

variable {e : Embedding} {E E' : Parser Node} {b : List Node} {u : Stream} {x : Token}

/-- Up to the mark after the text in parentheses, the entries are those of the text in the longer
one, and all its parentheses are closed. -/
theorem entries_border {c : Border e} {n : Nat} {s t : Stream} {mark stop : Token}
    (he : Tracks e E E') (ends : c.ending = [mark, stop]) (near : c.Near n 0 false s t)
    (run : (entries E (some ")")).run s = .ok (b, u)) (hx : u.Next x) (hd : x.isDelimiter ")")
    (outside : x ∉ c.tokens) :
    Token.nest 0 c.tokens = some 0 ∧
      ∃ t', (entries E' none).run t = .ok (Node.relabelAll e.relabel b, t') := by
  have found : ¬ c.Early u := by
    rintro (passed | ⟨y, inside, -, next⟩)
    · exact Token.isDelimiter_content hd (passed.next hx)
    · cases hx.symm.trans next
      exact outside inside
  obtain ⟨-, _, t', ⟨rfl, still⟩, ran⟩ := entries_trails he (.border ends) (.inl near) b u run
  refine ⟨?_, t', ran.resolve_right found⟩
  obtain ⟨read, left, split, nested, ahead, -⟩ := (still.resolve_right found).ahead
  cases left with
  | nil => rwa [split, List.append_nil]
  | cons y left =>
    cases hx.symm.trans (Stream.next_of_ahead ahead)
    exact absurd (split ▸ List.mem_append_right read List.mem_cons_self) outside

/-- The streams of a text in parentheses, with what comes after it, and in a longer text. -/
theorem near_enclosed {v : View} {s : List Char} (h : v.Encloses s)
    (closed : ∀ ch ∈ e.more.head?, Lexer.isNameChar ch = false) (previous : Option Token)
    (consumed : Nat) :
    let inside : View := ⟨v.position, s, ')' :: v.beyond⟩
    ∃ (c : Border e) (mark stop : Token) (p : Position) (n : Nat), c.ending = [mark, stop] ∧
      inside.tokens = ⟨c.tokens ++ [.atEnd p], none⟩ ∧
      (∀ t ∈ c.tokens, t.span.stop.offset ≤ v.position.offset + s.length) ∧
      c.Near n 0 false ⟨v.tokens.tokens, v.tokens.error, false, previous, consumed⟩
        (.ofLexed (inside.embedded e).tokens false 0) := by
  intro inside
  obtain ⟨ts, mark, stop, hv, hm, hw, within⟩ := h
  have hw : inside.tokens = ⟨ts ++ [.atEnd mark.span.start], none⟩ := hw
  have real : ∀ t ∈ ts, t.content ≠ .endOfInput := by
    obtain ⟨ts', real, ⟨err, same⟩ | ⟨p, same⟩⟩ := inside.tokens_end
    · cases hw.symm.trans same
    · have same := congrArg Lexed.tokens (hw.symm.trans same)
      rwa [(List.append_inj' same rfl).1]
  have carried : (inside.embedded e).tokens = inside.tokens.embedded e :=
    (inside.tokens_embedded_closed closed).whole (by rw [hw])
  refine ⟨⟨ts, none, [mark, .atEnd stop], [(Token.atEnd mark.span.start).embedded e], real,
    .inr ⟨_, _, rfl, rfl, rfl, .inr ⟨mark, hm, rfl⟩⟩⟩, mark, _, _, _, rfl, hw,
    fun t ht => within t (List.mem_append_left _ ht), by rw [hv],
    ⟨[], ts, rfl, rfl, by rw [hv], ?_⟩, nofun, Nat.lt_succ_self _⟩
  rw [carried, hw]
  simp [Stream.ofLexed, Lexed.embedded]

end

end Parser

/-! ## In quotes -/

/-- The text in quotes is a string with one part. -/
theorem stringParts_inSubstitution {s : List Char} (h : Lexer.isClosed s) : ∃ inner,
    Lexer.stringParts .start (Position.start.step '"') [] (inSubstitution s ++ ['"']) =
      .ok ([.substitution ((View.opened s [')']).embedded .quotes) inner], s.length + 4) := by
  have start : ((Position.start.step '"').step '$').step '(' =
      Position.embedded .quotes ⟨2, 1, 3⟩ := by decide
  have text : inSubstitution s ++ ['"'] = '$' :: '(' :: (s ++ [')', '"']) := by
    simp [inSubstitution]
  have rule : Lexer.ReadsParts (Position.start.step '"') [] _ _ _ := .substitution h (.quote [])
  have count : 1 + s.length + 3 = s.length + 4 := by omega
  rw [text, rule.read .start, start, count]
  exact ⟨_, rfl⟩

/-- The text in quotes is one token. -/
theorem tokenize_inQuotes {s : List Char} (h : Lexer.isClosed s) : ∃ inner lexeme span p,
    tokenize (inQuotes (inSubstitution s)) = ⟨[⟨.string [.substitution
      ((View.opened s [')']).embedded .quotes) inner], lexeme, span⟩, .atEnd p], none⟩ := by
  obtain ⟨inner, parts⟩ := stringParts_inSubstitution h
  have hc : Lexer.content .start '"' (inSubstitution s ++ ['"']) [] = .ok (.string
      [.substitution ((View.opened s [')']).embedded .quotes) inner], s.length + 4) := by
    simp only [Lexer.content, List.append_nil, parts]
    rfl
  have tokens := tokenize_cons (by decide) hc
  have spent : ((View.whole ('"' :: (inSubstitution s ++ ['"']))).advance
      (s.length + 4 + 1)).inside = [] := by
    rw [View.inside_advance, List.drop_eq_nil_iff]
    simp [View.whole, inSubstitution]
  rw [View.tokens_nil spent] at tokens
  exact ⟨_, _, _, _, tokens⟩

namespace Parser

/-- A string with one substitution. -/
theorem run_string {E : Parser Node} {inside : View} {inner : Span} {span : Option Span}
    {b : List Node} {s u : Stream} (place : Span)
    (run : (program E).run (.ofLexed inside.tokens false 0) = .ok ((span, b), u)) :
    (string E place [.substitution inside inner]).run s =
      .ok (.interpolation (some place) [.node (.substitution (some inner) b)], s) := by
  have part : (stringPart E (.substitution inside inner)).run s =
      .ok (.node (.substitution (some inner) b), s) := by
    have nested : (liftM ((program E).run (.ofLexed inside.tokens false 0)) :
        Parser ((Option Span × List Node) × Stream)).run s = .ok (((span, b), u), s) := by
      rw [run]
      rfl
    rw [stringPart, StateT.run_bind, nested]
    rfl
  have some : (string E place [.substitution inside inner]).run s =
      ([StringPart.substitution inside inner].mapM (stringPart E)).run s >>= fun r =>
        .ok (.interpolation (some place) r.1, r.2) := rfl
  rw [some, List.mapM_cons, StateT.run_bind, part]
  rfl

/-- The text in quotes is one string with one substitution, whose entries are those in it. -/
theorem parseProgram_inQuotes {s : List Char} {span : Option Span} {b : List Node} {u : Stream}
    (h : Lexer.isClosed s) (run : (program (expressionUpTo (s.length + 5))).run
      (.ofLexed ((View.opened s [')']).embedded .quotes).tokens false 0) = .ok ((span, b), u)) :
    ∃ outer inner, parseProgram (inQuotes (inSubstitution s)) =
      .ok (.program outer [.interpolation outer [.node (.substitution inner b)]]) := by
  obtain ⟨inner, lexeme, place, p, tokens⟩ := tokenize_inQuotes h
  have length : (inQuotes (inSubstitution s)).length + 1 = s.length + 5 + 1 := by
    simp [inQuotes, inSubstitution]
  let x : Token := ⟨.string [.substitution ((View.opened s [')']).embedded .quotes) inner], lexeme,
    place⟩
  have next : (Stream.ofLexed ⟨[x, .atEnd p], none⟩ false 0).Next x := rfl
  have read : (primary (expressionUpTo (s.length + 5))).run
      (.ofLexed ⟨[x, .atEnd p], none⟩ false 0) =
      .ok (.interpolation (some place) [.node (.substitution (some inner) b)],
        ⟨[.atEnd p], none, false, some x, 1⟩) := by
    rw [primary, run_peek_bind next]
    exact run_string place run
  have ends : Stream.Next ⟨[.atEnd p], none, false, some x, 1⟩ (.atEnd p) := rfl
  have whole := (wraps_expressionWith _).whole next rfl read ends rfl
  have all : (entries (expressionUpTo (s.length + 5 + 1)) none).run _ = _ :=
    entries_whole next (by simp [x, Token.isDelimiter]) nofun whole ends rfl
  refine ⟨some place, some inner, ?_⟩
  rw [parseProgram, length, tokens, run_program, next, ok_bind, all]
  rfl

end Parser

/-- A substitution means the same bare and in quotes: if a text is read as one substitution that
ends with it, the text in quotes is read as one string, which is that substitution. The raw scan
that finds the end in the string has to pass over the comments and the defaults in the
substitution, as it does if there are none (`Token.allSteady_tokenize`). -/
theorem parseProgram_quoted (s : List Char) (outer : Option Span) (span : Span) (b : List Node)
    (h : parseProgram (inSubstitution s) = .ok (.program outer [.substitution (some span) b]))
    (whole : span.stop.offset = (inSubstitution s).length)
    (steady : Token.AllSteady (inSubstitution s) (tokenize (inSubstitution s)).tokens) :
    ∃ outer' inner b', parseProgram (inQuotes (inSubstitution s)) =
      .ok (.program outer' [.interpolation outer' [.node (.substitution inner b')]]) ∧
        Node.sameAll b b' := by
  obtain ⟨u, mark, run, hm, closes, inside, written, ends⟩ := Parser.parseProgram_opening h
  cases ends
  have length : (inSubstitution s).length = s.length + 3 := by simp [inSubstitution]
  rw [length] at whole
  have encloses : (View.opened (s ++ [')']) []).Encloses s := by
    refine View.tokens_enclosed _ s rfl ⟨mark, inside, closes, ?_⟩
    show mark.span.stop.offset = 2 + s.length + 1
    dsimp only at whole
    omega
  -- without the closing mark, the text has the same entries in the longer one
  obtain ⟨c, x, y, p, n, ending, tokens, within, near⟩ :=
    Parser.near_enclosed encloses Embedding.closed_quotes (some .opening) 1
  have outside : mark ∉ c.tokens := fun found => by
    have stops : mark.span.stop.offset ≤ 2 + s.length := within mark found
    dsimp only at whole
    omega
  have tracks := Parser.tracks_expressionUpTo (j := (s ++ [')']).length + 2) (k := s.length + 5)
    Embedding.closed_quotes (by simp)
  obtain ⟨nested, t, again⟩ := Parser.entries_border tracks ending near run hm closes outside
  -- its parentheses are closed, so that the raw scan finds its end
  have closed : Lexer.isClosed s := by
    have here : (inSubstitution s).drop 2 = s ++ [')'] := rfl
    have tokenized : tokenize (inSubstitution s) = _ := tokenize_opening _
    rw [tokenized] at steady
    refine View.isClosed_enclosed here (u := .opening) rfl steady encloses ?_
    rw [tokens]
    exact Token.nest_snoc nested (Token.turn_of_content (t := .atEnd p) nofun 0)
  obtain ⟨place, program⟩ := Parser.program_of_entries again
  obtain ⟨outer', inner, quoted⟩ := Parser.parseProgram_inQuotes closed program
  refine ⟨outer', inner, _, quoted, Node.sameAll_of_eraseAll_eq b ?_ written⟩
  exact (Node.eraseAll_relabelAll rfl b).symm

/-- A script with a string, a default, a substitution and a comment in it. -/
def quotedSample : List Char :=
  "echo \"b)\" $\x7bx:-(y)\x7d $(z) # all\n".toList

/-- The substitution that a text is read as, if it is: where the script stands, where the
substitution in it does, and the entries. -/
def substitution? : Except Stop Node → Option (Option Span × Option Span × List Node)
  | .ok (.program outer [.substitution inner b]) => some (outer, inner, b)
  | _ => none

theorem substitution?_eq_some_iff {r : Except Stop Node} {outer inner : Option Span}
    {b : List Node} : substitution? r = some (outer, inner, b) ↔
      r = .ok (.program outer [.substitution inner b]) := by
  unfold substitution?
  split <;> simp_all

/-- Whether a script consists of a substitution in quotes. -/
def Node.isQuoted : Node → Bool
  | .program _ [.interpolation _ [.node (.substitution ..)]] => true
  | _ => false

theorem parseProgram_quoted_sample : ∃ outer span b outer' inner b',
    parseProgram (inSubstitution quotedSample) =
      .ok (.program outer [.substitution (some span) b]) ∧
    parseProgram (inQuotes (inSubstitution quotedSample)) =
      .ok (.program outer' [.interpolation outer' [.node (.substitution inner b')]]) ∧
    Node.sameAll b b' := by
  have checked : (substitution? (parseProgram (inSubstitution quotedSample))).map
      (fun t => t.2.1.map (·.stop.offset)) = some (some (inSubstitution quotedSample).length) := by
    decide +kernel
  obtain ⟨⟨outer, place, b⟩, bare, checked⟩ := Option.map_eq_some_iff.mp checked
  obtain ⟨span, rfl, whole⟩ := Option.map_eq_some_iff.mp checked
  have h := substitution?_eq_some_iff.mp bare
  obtain ⟨outer', inner, b', quoted, same⟩ := parseProgram_quoted quotedSample outer span b h
    whole (by decide +kernel)
  exact ⟨outer, span, b, outer', inner, b', h, quoted, same⟩

/-- A substitution that ends before the text does, in a comment: the comment is no comment in
quotes. -/
theorem parseProgram_quoted_comment :
    (∃ outer inner b, parseProgram (inSubstitution "a) #".toList) =
      .ok (.program outer [.substitution inner b])) ∧
    ∀ outer outer' inner b, parseProgram (inQuotes (inSubstitution "a) #".toList)) ≠
      .ok (.program outer [.interpolation outer' [.node (.substitution inner b)]]) := by
  have bare : (substitution? (parseProgram (inSubstitution "a) #".toList))).isSome := by
    decide +kernel
  have quoted : (parseProgram (inQuotes (inSubstitution "a) #".toList))).toOption.any
      Node.isQuoted = false := by
    decide +kernel
  refine ⟨?_, fun outer outer' inner b same => ?_⟩
  · obtain ⟨⟨outer, inner, b⟩, bare⟩ := Option.isSome_iff_exists.mp bare
    exact ⟨outer, inner, b, substitution?_eq_some_iff.mp bare⟩
  · rw [same] at quoted
    cases quoted

end Sigil
