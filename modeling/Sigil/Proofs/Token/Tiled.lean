import Sigil.Proofs.Token.Placed
import Sigil.Proofs.Token.Scanned

/-!
# Tokens tile a text

The tokens of a text that can be read to its end lie side by side in it
(`Lexer.Tiles`): each stands for the characters that it was read from, and
between them there are blanks and comments only (`Lexer.Gap`).

The places that reading gives are those of the text it is read from, at whatever
offset the reading starts and however deep a substitution lies in strings
(`View.Shows`): the line counts the line feeds before a place, and the column the
characters since the last of them (`Position.IsTrue`). Both follow from what the
readers keep, that a view goes on with the rest of the text (`View.StandsIn`).
-/

namespace Sigil

/-! ## Gaps -/

namespace Lexer

/-- A gap between tokens: blanks, and comments that end with their lines. A gap is `open` if its
last comment runs to the end of the text instead. -/
inductive Gap : Bool → List Char → Prop
  | nil : Gap false []
  | blank {openEnd : Bool} {c : Char} {cs : List Char} (hc : Text.isBlank c) (rest : Gap openEnd cs) :
    Gap openEnd (c :: cs)
  | comment {openEnd : Bool} {text cs : List Char} (line : '\n' ∉ text) (rest : Gap openEnd cs) :
    Gap openEnd ('#' :: (text ++ '\n' :: cs))
  | last {text : List Char} (line : '\n' ∉ text) : Gap true ('#' :: text)

/-- The text of a comment may have one more character in front. -/
theorem Gap.longer {openEnd : Bool} {c : Char} {cs : List Char} (h : Gap openEnd ('#' :: cs))
    (hc : c ≠ '\n') : Gap openEnd ('#' :: c :: cs) := by
  cases h with
  | blank blank => exact absurd blank (by decide)
  | comment line rest => exact .comment (List.not_mem_cons_of_ne_of_not_mem hc.symm line) rest
  | last line => exact .last (List.not_mem_cons_of_ne_of_not_mem hc.symm line)

/-- What is passed over before a token is a gap, and so is the rest of a comment with what follows
it. If it is open, nothing is left. -/
theorem gap_take (inComment : Bool) (cs : List Char) :
    ∃ openEnd, (openEnd = true → gapLength inComment cs = cs.length) ∧
      Gap openEnd ((bif inComment then ['#'] else []) ++ cs.take (gapLength inComment cs)) := by
  induction cs generalizing inComment with
  | nil =>
    cases inComment with
    | false => exact ⟨false, fun _ => rfl, .nil⟩
    | true => exact ⟨true, fun _ => rfl, .last List.not_mem_nil⟩
  | cons c cs ih =>
    obtain ⟨codeOpen, codeWhole, code⟩ := ih false
    obtain ⟨textOpen, textWhole, text⟩ := ih true
    have code' (h : codeOpen = true) := congrArg (· + 1) (codeWhole h)
    have text' (h : textOpen = true) := congrArg (· + 1) (textWhole h)
    rw [gapLength]
    cases inComment with
    | false =>
      simp only [Bool.false_and, Bool.false_or, decide_eq_true_eq]
      split_ifs with blank hash
      · exact ⟨codeOpen, code', .blank blank code⟩
      · exact ⟨textOpen, text', hash ▸ text⟩
      · exact ⟨false, (fun h : false = true => by cases h), .nil⟩
    | true =>
      simp only [Bool.true_and, Bool.true_or, if_true]
      by_cases ends : c = '\n'
      · subst ends
        exact ⟨codeOpen, code', .comment List.not_mem_nil code⟩
      · refine ⟨textOpen, ?_⟩
        split_ifs
        · simp only [ends, ne_eq, not_false_eq_true, decide_true]
          exact ⟨text', text.longer ends⟩
        · exact ⟨text', text.longer ends⟩

/-! ## Tokens side by side -/

/-- From an offset on a text is made up of tokens with gaps between them: each token has the
characters between its ends, the last one stands for the end of the text. -/
inductive Tiles (source : List Char) : Nat → List Token → Prop
  | last {i : Nat} {t : Token} {openEnd : Bool} (ends : t.content = .endOfInput)
    (empty : t.lexeme = "") (start : t.span.start.offset = source.length)
    (stop : t.span.stop.offset = source.length) (gap : Gap openEnd (source.drop i)) :
    Tiles source i [t]
  | token {i : Nat} {t : Token} {ts : List Token} (real : t.content ≠ .endOfInput)
    (ordered : i ≤ t.span.start.offset) (nonempty : t.span.start.offset < t.span.stop.offset)
    (lexeme : t.lexeme.toList = t.span.slice source)
    (gap : Gap false ((source.take t.span.start.offset).drop i))
    (rest : Tiles source t.span.stop.offset ts) : Tiles source i (t :: ts)

end Lexer

namespace View

variable {source : List Char} {v : View}

/-- A view that goes to the end of the text is tiled by its tokens, if it can be read. -/
theorem tiles_tokens (v : View) (here : source.drop v.position.offset = v.inside)
    (within : v.position.offset ≤ source.length) (last : v.beyond = [])
    (whole : v.tokens.error = none) :
    Lexer.Tiles source v.position.offset v.tokens.tokens := by
  fun_induction View.tokens v with
  | case1 v w hw =>
    have gap := Lexer.gapLength_le false v.inside
    obtain ⟨openEnd, -, passed⟩ := Lexer.gap_take false v.inside
    have all : v.inside.length ≤ Lexer.gapLength false v.inside := List.drop_eq_nil_iff.mp hw
    have ends : w.position.offset = source.length := by
      have left := congrArg List.length here
      rw [List.length_drop] at left
      have moved : w.position.offset = v.position.offset + _ := offset_advance gap
      omega
    have last : Lexer.Gap openEnd (source.drop v.position.offset) := by
      rwa [here, ← List.take_of_length_le all]
    exact .last rfl rfl ends ends last
  | case2 v w c cs hw err hc => cases whole
  | case3 v w c cs hw said n hc rest lexeme ih =>
    have gap := Lexer.gapLength_le false v.inside
    obtain ⟨openEnd, open_whole, passed⟩ := Lexer.gap_take false v.inside
    have here : source.drop v.position.offset = v.inside ++ v.beyond := by
      rw [last, List.append_nil, here]
    have here' : source.drop w.position.offset = w.inside ++ w.beyond :=
      drop_advance here (gap.trans (Nat.le_add_right _ _))
    have none : w.beyond = [] := by rw [show w.beyond = _ from beyond_advance gap, last]
    have none' : rest.beyond = [] := by rw [show rest.beyond = w.beyond.drop _ from rfl, none,
      List.drop_nil]
    have token := length_content hw hc
    have here'' := drop_advance here' token
    have moved : w.position.offset = v.position.offset + _ := offset_advance gap
    have stop : rest.position.offset = w.position.offset + (n + 1) := offset_advance_of_le token
    -- something is left after the gap, so the gap is not open
    have closed : openEnd = false := by
      refine Bool.eq_false_iff.mpr fun h => ?_
      have nothing : w.inside = [] := List.drop_of_length_le (open_whole h).ge
      rw [hw] at nothing
      cases nothing
    subst closed
    have rest_le : rest.position.offset ≤ source.length := by
      have left := congrArg List.length here'
      rw [List.length_drop, List.length_append] at left
      rw [View.length] at token
      omega
    refine .token (Lexer.content_ne_endOfInput hc) (by rw [moved]; exact Nat.le_add_right _ _)
      (by rw [stop]; exact Nat.lt_add_of_pos_right n.succ_pos) ?_ ?_
      (ih (by rw [here'', none', List.append_nil]) rest_le none' whole)
    · rw [String.toList_ofList, Span.slice_eq here', stop, Nat.add_sub_cancel_left]
    · have between := slice_gap here
      rw [Span.slice] at between
      rw [between]
      exact passed

end View

/-! ## True places -/

/-- A place of a text says what it should: the line is one more than the number of line feeds before
it, and the column one more than its distance from where the last of them ends, or from the start of
the text. -/
def Position.IsTrue (source : List Char) (p : Position) : Prop :=
  p.line = 1 + (source.take p.offset).count '\n' ∧
  ∃ before line, source.take p.offset = before ++ line ∧ (∀ c ∈ before.getLast?, c = '\n') ∧
    '\n' ∉ line ∧ p.column = p.offset - before.length + 1

theorem Position.isTrue_ofOffset (source : List Char) (offset : Nat) :
    (ofOffset source offset).IsTrue source := by
  refine ⟨Nat.add_comm _ _, ?_⟩
  have passed : source.take (ofOffset source offset).offset = source.take offset := rfl
  have column : (ofOffset source offset).column = offset - (source.take offset).length +
    ((source.take offset).reverse.takeWhile (· ≠ '\n')).length + 1 := rfl
  have within : (source.take offset).length ≤ offset := List.length_take_le _ _
  rw [passed, column]
  -- the last line, read backwards
  have split := List.takeWhile_append_dropWhile (p := (· ≠ '\n')) (l := (source.take offset).reverse)
  have line := List.all_takeWhile (p := (· ≠ '\n')) (l := (source.take offset).reverse)
  have stopped := List.head?_dropWhile_not (· ≠ '\n') (source.take offset).reverse
  generalize (source.take offset).reverse.takeWhile (· ≠ '\n') = last at *
  generalize (source.take offset).reverse.dropWhile (· ≠ '\n') = before at *
  have taken : source.take offset = before.reverse ++ last.reverse := by
    rw [← List.reverse_append, split, List.reverse_reverse]
  refine ⟨before.reverse, last.reverse, taken, fun c hc => ?_, fun newline => ?_, ?_⟩
  · rw [List.getLast?_reverse, Option.mem_def] at hc
    rw [hc] at stopped
    simpa using stopped
  · simpa using List.all_eq_true.mp line _ (List.mem_reverse.mp newline)
  · have length := congrArg List.length taken
    rw [List.length_append, List.length_reverse, List.length_reverse] at length
    change _ = offset - _ + 1
    rw [List.length_reverse]
    omega

/-- The span of what a part of a string refers to. -/
def StringPart.span? : StringPart → Option Span
  | .text _ => none
  | .variable _ _ span | .substitution _ span => some span

/-- The places that reading a view gives: those of its tokens and of a fault, those of the variables
and substitutions in its strings, and those that reading the inside of a substitution gives. -/
inductive View.Shows : View → Position → Prop
  | fault {v : View} {e : LexError} (h : v.tokens.error = some e) : Shows v e.position
  | start {v : View} {t : Token} (ht : t ∈ v.tokens.tokens) : Shows v t.span.start
  | stop {v : View} {t : Token} (ht : t ∈ v.tokens.tokens) : Shows v t.span.stop
  | partStart {v : View} {t : Token} {parts : List StringPart} {part : StringPart} {s : Span}
    (ht : t ∈ v.tokens.tokens) (string : t.content = .string parts) (hp : part ∈ parts)
    (hs : part.span? = some s) : Shows v s.start
  | partStop {v : View} {t : Token} {parts : List StringPart} {part : StringPart} {s : Span}
    (ht : t ∈ v.tokens.tokens) (string : t.content = .string parts) (hp : part ∈ parts)
    (hs : part.span? = some s) : Shows v s.stop
  | inside {v w : View} {t : Token} {parts : List StringPart} {s : Span} {p : Position}
    (ht : t ∈ v.tokens.tokens) (string : t.content = .string parts)
    (hp : .substitution w s ∈ parts) (shown : Shows w p) : Shows v p

variable {source : List Char}

theorem StringPart.StandsIn.span {part : StringPart} {s : Span} (h : part.StandsIn source)
    (hs : part.span? = some s) : s.StandsIn source := by
  cases part with
  | text => cases hs
  | «variable» => cases hs; exact h
  | substitution => cases hs; exact h.2

/-- What a part of a string stands in the text that the string is read from. -/
theorem Lexed.StandsIn.part {l : Lexed} {t : Token} {parts : List StringPart} {part : StringPart}
    (h : l.StandsIn source) (ht : t ∈ l.tokens) (string : t.content = .string parts)
    (hp : part ∈ parts) : part.StandsIn source := by
  have content := (h.tokens t ht).content
  rw [string] at content
  exact content part hp

namespace View

/-- What reading a view of a text gives stands in the text. -/
theorem Shows.standsIn {v : View} {p : Position} (shown : v.Shows p) (h : v.StandsIn source) :
    p.StandsIn source := by
  induction shown with
  | fault e => exact h.tokens.error _ (Option.mem_def.mpr e)
  | start ht => exact (h.tokens.tokens _ ht).span.1
  | stop ht => exact (h.tokens.tokens _ ht).span.2
  | partStart ht string hp hs => exact ((h.tokens.part ht string hp).span hs).1
  | partStop ht string hp hs => exact ((h.tokens.part ht string hp).span hs).2
  | inside ht string hp shown ih => exact ih (h.tokens.part ht string hp).1

/-- A view that nothing is read from gives the place of its end only. -/
theorem Shows.eq_of_end {v : View} {p q : Position} (shown : v.Shows p)
    (h : v.tokens = ⟨[.atEnd q], none⟩) : p = q := by
  have single {t : Token} (ht : t ∈ v.tokens.tokens) : t = .atEnd q := by
    rwa [h, List.mem_singleton] at ht
  cases shown with
  | fault e =>
    rw [h] at e
    cases e
  | start ht => rw [single ht]; rfl
  | stop ht => rw [single ht]; rfl
  | partStart ht string | partStop ht string | inside ht string =>
    rw [single ht] at string
    cases string

/-- A range that starts in a text is a view of it. -/
theorem standsIn_range {start : Nat} (h : start ≤ source.length) (stop : Nat) :
    (range source start stop).StandsIn source := by
  refine ⟨source.take start, ?_, Position.ofOffset_eq_after h⟩
  have rest : (source.take stop).drop start ++ source.drop (max start stop) = source.drop start := by
    rcases Nat.le_total start stop with ordered | ordered
    · have drop : source.drop stop = (source.drop start).drop (stop - start) := by
        rw [List.drop_drop, Nat.add_sub_cancel' ordered]
      rw [Nat.max_eq_right ordered, List.drop_take, drop, List.take_append_drop]
    · rw [Nat.max_eq_left ordered, List.drop_of_length_le ((List.length_take_le _ _).trans ordered),
        List.nil_append]
  rw [range, rest, List.take_append_drop]

/-- Nothing is read from a range that starts after the end of a text. -/
theorem tokens_range_outside {start : Nat} (h : source.length < start) (stop : Nat) :
    (range source start stop).tokens = ⟨[.atEnd (.ofOffset source start)], none⟩ := by
  have nothing : (source.take stop).drop start = [] := by
    rw [List.drop_eq_nil_iff, List.length_take]
    omega
  have beyond : source.drop (max start stop) = [] := by
    rw [List.drop_eq_nil_iff]
    omega
  rw [range, nothing, beyond]
  exact tokens_nil rfl

end View

/-- **The tokens of a text tile it, and all places are true.** If the reading of a text reaches its
end, its tokens lie side by side in it with gaps between them. Every place that is given when the
text or any range of it is read has the line and the column of its offset. -/
theorem tokens_tile (source : List Char) :
    ((tokenize source).error = none → Lexer.Tiles source 0 (tokenize source).tokens) ∧
    ∀ v : View, v = View.whole source ∨ (∃ start stop, v = View.range source start stop) →
      ∀ p, v.Shows p → p.IsTrue source := by
  refine ⟨fun whole => ?_, fun v hv p shown => ?_⟩
  · exact (View.whole source).tiles_tokens rfl (Nat.zero_le _) rfl whole
  · have standing {v : View} (h : v.StandsIn source) (shown : v.Shows p) : p.IsTrue source := by
      rw [(Position.standsIn_iff.mp (shown.standsIn h)).2]
      exact Position.isTrue_ofOffset source p.offset
    obtain rfl | ⟨start, stop, rfl⟩ := hv
    · exact standing (View.standsIn_whole source) shown
    · rcases Nat.lt_or_ge source.length start with outside | within
      · rw [shown.eq_of_end (View.tokens_range_outside outside stop)]
        exact Position.isTrue_ofOffset source start
      · exact standing (View.standsIn_range within stop) shown

end Sigil
