import Sigil.Proofs.Node.Alone
import Sigil.Proofs.Node.CoveredExpressions
import Sigil.Proofs.Node.Echoed
import Sigil.Proofs.Node.Erased
import Sigil.Proofs.Token.Excerpt
import Sigil.Session

/-!
# Entries by themselves

The text of an entry's span holds the tokens from which the entry was read, or,
if there were parentheses about it, from which the expression in them was
(`Parser.spells_of_run`). The text has no other tokens, and the reader of
expressions never looks at what stands before and behind these in a way that
would change what it reads of them. So it finds the entry again, and the end of
the text behind it (`Parser.parseProgram_excerpt`).
-/

namespace Sigil

/-- The tokens of a contained text stand in order. -/
theorem Stream.laid_tokenize {source : List Char} (contained : (View.whole source).Contained) :
    (ofLexed (tokenize source) false 0).Laid True 0 source.length := by
  obtain ⟨limit, laid, ends⟩ := laid_ofLexed (View.whole source)
    (fun _ : True => ⟨View.bounded_whole source, contained⟩) false
  obtain rfl : limit = source.length := (ends trivial).trans (Nat.zero_add _)
  exact laid

namespace Parser

variable {α β : Type} {k : Nat} {s t u : Stream} {n : Node}

/-! ## What no expression starts with -/

/-- Nothing is read where a semicolon comes next. -/
def Spurns (m : Parser α) : Prop :=
  ∀ s place, s.Next ⟨.delimiter, ";", place⟩ → Yields m s fun _ _ => False

theorem Spurns.bind {m : Parser α} {f : α → Parser β} (h : Spurns m) : Spurns (m >>= f) :=
  fun s place hs => .bind ((h s place hs).mono fun _ _ none => none.elim)

theorem Spurns.next {f : Token → Parser α}
    (h : ∀ place, Spurns (f ⟨.delimiter, ";", place⟩)) : Spurns (peek 0 >>= f) :=
  fun s place hs => .bind (yields_next fun x hx => by
    cases hs.symm.trans hx
    exact h place s place hs)

theorem Spurns.start {f : Token → Parser α} (h : ∀ x, Spurns (f x)) : Spurns (peek 0 >>= f) :=
  .next fun _ => h _

section

variable (expression : Parser Node)

theorem spurns_primary : Spurns (primary expression) :=
  .next fun _ _ _ _ => yields_unexpected

theorem spurns_application : Spurns (application expression) :=
  .next fun _ => spurns_primary expression

theorem spurns_postfixCalls : Spurns (postfixCalls expression) :=
  .start fun _ => (spurns_application expression).bind

theorem spurns_signed : Spurns (signed expression) := by
  intro s place hs
  refine .bind (Yields.mono (Q := fun _ t => t = s) ?_ ?_)
  · refine yields_iterate (I := fun _ t => t = s) (fun signs t same => ?_) rfl
    subst same
    refine .bind (.bind (yields_test fun x hx => .bind (yields_test fun y hy => ?_)))
    cases hs.symm.trans hx
    cases hs.symm.trans hy
    exact .pure (.pure rfl)
  · rintro signs _ rfl
    exact (spurns_postfixCalls expression).bind _ place hs

variable {operand : Parser Node}

theorem spurns_chain (ops : List BinaryOperator) (h : Spurns operand) :
    Spurns (chain ops operand) :=
  .start fun _ => h.bind

theorem spurns_comparison (h : Spurns operand) : Spurns (comparison operand) :=
  .start fun _ => h.bind

theorem spurns_operation (h : Spurns operand) : Spurns (operation operand) :=
  spurns_chain _ (spurns_chain _ (spurns_comparison (spurns_chain _ (spurns_chain _ h))))

theorem spurns_expressionUpTo (k : Nat) : Spurns (expressionUpTo k) := by
  cases k with
  | zero => exact fun _ _ _ => .throw
  | succ k => exact .next fun _ => spurns_operation (spurns_signed _)

end

/-! ## Where an entry is spelled -/

/-- An expression that was read is one that spells its span, perhaps within parentheses. -/
theorem spells_of_run {enclosed : Prop} {base limit : Nat} (hs : s.Laid enclosed base limit)
    (h : (expressionUpTo k).run s = .ok (n, t)) : ∃ j before u v after, s.Took before u ∧
      (expressionUpTo j).run u = .ok (n, v) ∧ Spells u v n ∧ v.Took after t := by
  induction k generalizing s t with
  | zero => cases h
  | succ k ih =>
    obtain ⟨-, spells | ⟨before, u, v, after, took, run, took'⟩⟩ :=
      covers_expressionUpTo k base limit s hs n t h
    · exact ⟨k + 1, [], s, t, [], .refl s, h, spells, .refl t⟩
    · obtain ⟨j, before', u', v', after', tookIn, run, spells, tookOut⟩ := ih (took.laid hs) run
      exact ⟨j, _, u', v', _, took.trans tookIn, run, spells, tookOut.trans took'⟩

/-! ## The text of an entry -/

/-- The tokens of a text that were read from one place to another, with those before and behind. -/
theorem tokens_split {source : List Char} {v w : Stream} {before read : List Token}
    (sound : (tokenize source).error = none) (hw : w.Laid True 0 source.length)
    (took : (Stream.ofLexed (tokenize source) false 0).Took before v) (took' : v.Took read w) :
    ∃ behind z u, w.ahead = behind ++ [.atEnd z] ∧
      (View.whole source).Reads (before ++ (read ++ behind)) u ∧
      ∀ t ∈ before ++ (read ++ behind), t ∈ (tokenize source).tokens := by
  obtain ⟨ts, u, reads, ⟨e, tokens, -⟩ | ⟨p, tokens, -⟩⟩ := (View.whole source).tokens_reads
  · cases sound.symm.trans (congrArg Lexed.error tokens)
  · have both := took.trans took'
    obtain ⟨z, last, -⟩ := hw.ends (both.error.trans sound)
    obtain ⟨behind, ahead⟩ := List.getLast?_eq_some_iff.mp last
    have all : ts ++ [.atEnd p] = before ++ (read ++ behind) ++ [z] := by
      have := both.ahead
      rw [ahead, Stream.ofLexed, show (tokenize source).tokens = _ from congrArg _ tokens] at this
      simpa using this
    obtain ⟨rfl, same⟩ := List.append_inj' all rfl
    cases same
    refine ⟨behind, p, u, ahead, reads, fun t ht => ?_⟩
    rw [show (tokenize source).tokens = _ from congrArg _ tokens]
    exact List.mem_append_left _ ht

/-- Where an expression is read, a token is next. -/
theorem next_of_expression {j : Nat} (run : (expressionUpTo j).run s = .ok (n, t)) :
    ∃ x, s.Next x ∧ ¬ x.isDelimiter ";" := by
  have looks (j : Nat) : ∃ f, expressionUpTo (j + 1) = peek 0 >>= f := ⟨_, rfl⟩
  cases j with
  | zero => cases run
  | succ j =>
    obtain ⟨f, opens⟩ := looks j
    have opened := run
    rw [opens, StateT.run_bind, run_peek] at opened
    obtain ⟨_, peeked, -⟩ := bind_eq_ok opened
    obtain ⟨x, next, -⟩ := bind_eq_ok peeked
    refine ⟨x, next, fun semi => ?_⟩
    obtain ⟨content, lexeme, place⟩ := x
    obtain ⟨rfl, rfl⟩ : content = .delimiter ∧ lexeme = ";" := by
      simpa [Token.isDelimiter] using semi
    exact spurns_expressionUpTo _ _ place next n t run

/-- An expression that is read up to the end of a text is its only entry. -/
theorem parseProgram_of_over {text : List Char} {e : Token}
    (run : (expressionUpTo (text.length + 1)).run (.ofLexed (tokenize text) false 0) = .ok (n, t))
    (last : t.Next e) (spent : e.content = .endOfInput) :
    ∃ span, parseProgram text = .ok (.program span [n]) := by
  obtain ⟨x, next, semi⟩ := next_of_expression run
  obtain ⟨y, ys, ahead⟩ : ∃ y ys, (Stream.ofLexed (tokenize text) false 0).ahead = y :: ys := by
    obtain ⟨ts, -, ⟨err, cut⟩ | ⟨p, cut⟩⟩ := (View.whole text).tokens_end
    · refine List.exists_cons_of_length_pos (Stream.length_of_peek next ?_)
      rw [Stream.ofLexed, tokenize, cut]
      rfl
    · refine List.exists_cons_of_ne_nil ?_
      rw [Stream.ofLexed, tokenize, cut]
      exact List.concat_ne_nil _ ts
  cases next.symm.trans (Stream.next_of_ahead ahead)
  have real : x.content ≠ .endOfInput := fun ends =>
    stalls_expressionUpTo _ _ ⟨x, ys, ahead, ends⟩ _ run
  refine ⟨some ⟨x.span.start, (t.previous.getD x).span.stop⟩, ?_⟩
  rw [parseProgram, run_program, show Stream.peek _ _ = _ from next, ok_bind,
    entries_whole next semi real run last spent]
  rfl

/-- An expression is the only entry of a text with the tokens that were read for it. -/
theorem parseProgram_of_kin {text : List Char} {j i : Nat} {v w : Stream} {behind : List Token}
    {z : Position} (h : v.Kin ⟨behind, i⟩ ((tokenize text).tokens.length + 1) text.length
      (.ofLexed (tokenize text) false 0)) (run : (expressionUpTo j).run v = .ok (n, w))
    (ahead : w.ahead = behind ++ [.atEnd z]) :
    ∃ span m, parseProgram text = .ok (.program span [m]) ∧ m.erase = n.erase := by
  obtain ⟨-, m, t, ⟨same, along⟩, reread⟩ :=
    echoes_expressionUpTo j (text.length + 1) v _ (Nat.le_succ _) (.inl h) n w run
  have found : ¬ w.Lost ⟨behind, i⟩ := fun lost => by
    have bound := lost.2
    rw [ahead, List.length_append, List.length_singleton] at bound
    exact absurd bound (Nat.not_succ_le_self _)
  replace reread := reread.resolve_right found
  obtain ⟨e, last, spent⟩ : ∃ e, t.Next e ∧ e.content = .endOfInput := by
    have kin := along.resolve_right found
    have length := kin.length
    obtain ⟨ps, p, q, -, ht, -⟩ := kin.ahead
    rw [ahead, ht] at length
    simp only [List.length_append, List.length_map, List.length_singleton] at length
    obtain rfl := List.length_eq_zero_iff.mp (show ps.length = 0 by omega)
    exact ⟨.atEnd q, Stream.next_of_ahead ht, rfl⟩
  obtain ⟨span, parsed⟩ := parseProgram_of_over reread last spent
  exact ⟨span, m, parsed, same⟩

/-- An expression that spells its span is read from the text of its span. -/
theorem parseProgram_excerpt {source : List Char} {j : Nat} {before : List Token} {v w : Stream}
    (sound : (tokenize source).error = none) (contained : (View.whole source).Contained)
    (took : (Stream.ofLexed (tokenize source) false 0).Took before v)
    (run : (expressionUpTo j).run v = .ok (n, w)) (spells : Spells v w n) :
    ∃ s span m, n.span = some s ∧ parseProgram (s.slice source) = .ok (.program span [m]) ∧
      m.erase = n.erase := by
  obtain ⟨x, y, hx, last, span⟩ := spells
  have hv := took.laid (Stream.laid_tokenize contained)
  have since := Stream.Since.node hv (lays_expressionUpTo j _ _ v hv n w run)
  obtain ⟨inner, took'⟩ := since.took hx
  obtain ⟨behind, z, u, ahead, reads, mem⟩ := tokens_split sound since.later took took'
  replace last : y ∈ (x :: inner).getLast? := by
    rw [took'.previous, List.getLast?_cons, Option.some_or] at last
    rw [List.getLast?_cons]
    exact last
  obtain ⟨ps, q, hps, kins, tokens⟩ := View.tokens_excerpt reads
    (fun t ht => View.bounded_whole source t (mem t ht)) last
  have kin := Stream.kin_start (took.error.trans sound) (p := z)
    (by rw [took'.ahead, ahead, hps]) tokens kins (fun p hp => ?_) (View.tokens_within _)
  · obtain ⟨place, m, parsed, same⟩ := parseProgram_of_kin kin run ahead
    exact ⟨_, place, m, span, parsed, same⟩
  · have here : p.1 ∈ x :: inner := hps ▸ List.mem_map_of_mem hp
    exact ⟨took'.real _ here,
      contained.token (mem _ (List.mem_append_right _ (List.mem_append_left _ here)))⟩

end Parser

/-- The spans of a contained script that has entries nest, with those of its nodes, and the text of
the span of an entry is a script with this entry alone. -/
theorem parseProgram_spans (source : List Char) (n : Node)
    (contained : (View.whole source).Contained) (h : parseProgram source = .ok n)
    (entries : n.children ≠ []) :
    (∀ m ∈ n.walk, ∃ s, m.span = some s ∧ s.Between 0 source.length ∧
      (∀ c ∈ m.children, ∃ t, c.span = some t ∧ t.Between s.start.offset s.stop.offset) ∧
      m.children.Pairwise fun a b =>
        ∃ s t, a.span = some s ∧ b.span = some t ∧ s.stop.offset ≤ t.start.offset) ∧
    ∀ m ∈ n.children, ∃ s span k, m.span = some s ∧ (Entry.of source m).source = s.slice source ∧
      parseProgram (s.slice source) = .ok (.program span [k]) ∧ m.same k := by
  have script := isScript_of_parseProgram h
  obtain ⟨⟨⟨span, body⟩, u⟩, hu, made⟩ := bind_eq_ok h
  cases made
  have laid := Stream.laid_tokenize contained
  obtain ⟨gains, inner, x, hx, hspan⟩ :=
    Parser.yields_program (Parser.lays_expressionUpTo _) laid _ u hu
  constructor
  · have since := (Stream.Since.nodes laid gains entries).made (n := .program span body) hx hspan
    have stand := since.gains.stand.mono (Nat.zero_le _) since.later.floor_le_limit
    intro m hm
    have mem := List.mem_singleton_self (Node.program span body)
    obtain ⟨s, hs, between⟩ := stand.inside _ mem m hm
    obtain ⟨t, ht, -, row⟩ := stand.nested _ mem m hm
    cases hs.symm.trans ht
    exact ⟨s, hs, between, row.between, row.pairwise⟩
  · intro m hm
    obtain ⟨before, v, w, after, took, run, took'⟩ := inner m hm
    obtain ⟨j, before', v', w', after', tookIn, run, spells, tookOut⟩ :=
      Parser.spells_of_run (took.laid laid) run
    obtain ⟨s, span, k, hs, parsed, same⟩ := Parser.parseProgram_excerpt
      (Parser.sound_of_program (w := .whole source) hu) contained (took.trans tookIn) run spells
    refine ⟨s, span, k, hs, ?_, parsed, Node.same_of_erase_eq m same.symm ?_⟩
    · rw [Entry.of, hs]
      rfl
    · exact Node.areWritten_iff.mp script m hm

/-- A script with an entry in parentheses, of which none are left in its span. -/
def parenthesizedSample : List Char :=
  "(f \"$(y)\");g 1".toList

theorem parseProgram_spans_parenthesizedSample : (View.whole parenthesizedSample).Contained ∧
    ∃ n, parseProgram parenthesizedSample = .ok n ∧ n.children ≠ [] ∧
      ∀ m ∈ n.children, ∃ s span k, m.span = some s ∧
        parseProgram (s.slice parenthesizedSample) = .ok (.program span [k]) ∧ m.same k := by
  have accepted : (parseProgram parenthesizedSample).toOption.any fun n => !n.children.isEmpty := by
    decide +kernel
  have contained : View.isContained 1 (.whole parenthesizedSample) := by decide +kernel
  replace contained := View.contained_of_isContained contained
  refine ⟨contained, ?_⟩
  cases h : parseProgram parenthesizedSample with
  | error e =>
    rw [h] at accepted
    cases accepted
  | ok n =>
    have entries : n.children ≠ [] := fun none => by
      rw [h, Except.toOption, Option.any_some, none] at accepted
      cases accepted
    obtain ⟨-, reread⟩ := parseProgram_spans _ n contained h entries
    refine ⟨n, rfl, entries, fun m hm => ?_⟩
    obtain ⟨s, span, k, hs, -, parsed, same⟩ := reread m hm
    exact ⟨s, span, k, hs, parsed, same⟩

end Sigil
