import Sigil.Proofs.Token.Completable
import Sigil.Proofs.Token.Embedded
import Sigil.Proofs.Token.Respaced

/-!
# A text and what is written right behind it

Where a text stands in a longer one, and a character follows it that ends every
token, its tokens are there as they are in the text, and those of what follows
come after them (`View.tokens_through`). The longer text is cut as one, so that
only a comment could go on from the text to what follows it: one at the end of
the text ends with the line, or it is known that the text does not end in one
(`Closed`).
-/

namespace Sigil

/-- A token that is written right behind the text is none of its comments. -/
def Closed (text : List Char) : Prop :=
  (tokenize (text ++ [')'])).tokens.length ≠ (tokenize text).tokens.length

instance (text : List Char) : Decidable (Closed text) :=
  inferInstanceAs (Decidable (_ ≠ _))

namespace Lexer

/-- A gap goes on in what follows it as if it began there. -/
def GoesOn (gap more : List Char) : Prop :=
  gapLength false (gap ++ more) = gap.length + gapLength false more

theorem goesOn_nil (more : List Char) : GoesOn [] more := (Nat.zero_add _).symm

theorem goesOn_of_gapLength {gap more : List Char} {inComment other : Bool}
    (whole : gapLength inComment gap = gap.length)
    (h : ∀ inComment, gapLength inComment more = gapLength other more) :
    gapLength inComment (gap ++ more) = gap.length + gapLength other more := by
  induction gap generalizing inComment with
  | nil => rw [List.nil_append, List.length_nil, Nat.zero_add, h]
  | cons c gap ih =>
    rw [List.cons_append, gapLength]
    rw [gapLength, List.length_cons] at whole
    rw [List.length_cons]
    split_ifs at whole ⊢
    · rw [ih (by simpa using whole)]
      omega
    · rw [ih (by simpa using whole)]
      omega

/-- The end of the line ends a comment. -/
theorem goesOn_newline {gap : List Char} (whole : gapLength false gap = gap.length)
    (more : List Char) : GoesOn gap ('\n' :: more) := by
  refine goesOn_of_gapLength whole fun inComment => ?_
  have blank : Text.isBlank '\n' := by decide
  simp [gapLength, blank]

/-- A gap in which a parenthesis is none of its characters has no comment that goes on. -/
theorem goesOn_of_mark {gap : List Char} {inComment : Bool}
    (h : gapLength inComment (gap ++ [')']) = gap.length) (more : List Char) :
    gapLength inComment (gap ++ more) = gap.length + gapLength false more := by
  induction gap generalizing inComment with
  | nil =>
    cases inComment with
    | false => exact (Nat.zero_add _).symm
    | true => cases h
  | cons c gap ih =>
    rw [List.cons_append, gapLength] at h ⊢
    rw [List.length_cons] at h ⊢
    split_ifs at h ⊢
    · rw [ih (by simpa using h)]
      omega
    · rw [ih (by simpa using h)]
      omega

end Lexer

namespace View

variable {e : Embedding} {v u : View} {ts : List Token}

theorem Reads.tokens (h : Reads v ts u) : v.tokens = u.tokens.prepend ts := by
  induction h with
  | refl v => rfl
  | token hw hi hc _ ih =>
    rw [tokens_cons hw hi hc, ih]
    rfl

/-- A text in the longer one, of which more is read behind it. -/
def through (e : Embedding) (v : View) : View :=
  ⟨v.position.embedded e, v.inside ++ e.more, []⟩

theorem advance_through (whole : v.beyond = []) {n : Nat} (hn : n ≤ v.inside.length) :
    (v.through e).advance n = (v.advance n).through e := by
  simp only [through, advance, whole, List.take_append_of_le_length hn,
    List.drop_append_of_le_length hn, List.take_nil, List.drop_nil, Position.after_nil,
    Position.after_embedded]

theorem beyond_advance_nil (whole : v.beyond = []) (n : Nat) : (v.advance n).beyond = [] := by
  rw [advance, whole, List.drop_nil]

/-- The first token of a text, in the longer one. -/
theorem content_through (apart : Lexer.Apart e.more) {p : Position} {c : Char} {cs : List Char}
    {said : Token.Content} {n : Nat} (h : Lexer.content p c cs [] = .ok (said, n)) :
    Lexer.content (p.embedded e) c (cs ++ e.more) [] = .ok (said.embedded e, n) := by
  have names : ∀ d ∈ e.more.head?, Lexer.isNameChar d = false := by
    have clear : ∀ d ∈ ([] : List Char).head?, Lexer.isNameChar d = false := fun _ h => by cases h
    simpa using apart.names clear
  have embedded := Lexer.content_embedded (e := e) p c cs [] fun d hd name => by
    rw [names d hd] at name
    cases name
  have whole : cs ++ e.more ++ [] = cs ++ e.more := List.append_nil _
  rw [Lexer.content_congr (Lexer.sameAhead_more apart cs) whole]
  rw [h, List.nil_append] at embedded
  generalize Lexer.content (p.embedded e) c cs e.more = r at embedded ⊢
  cases embedded
  rfl

/-- Tokens that are read from a text are read from it in the longer one. -/
theorem Reads.through (apart : Lexer.Apart e.more) (h : Reads v ts u) (whole : v.beyond = []) :
    Reads (v.through e) (ts.map (·.embedded e)) (u.through e) ∧ u.beyond = [] := by
  induction h with
  | refl v => exact ⟨.refl _, whole⟩
  | @token v w u c cs said n ts hw hi hc rest ih =>
    have gap := Lexer.gapLength_le false v.inside
    have none : w.beyond = [] := hw ▸ beyond_advance_nil whole _
    have inside : v.inside.drop (Lexer.gapLength false v.inside) = c :: cs := by
      rw [← inside_advance, hw, hi]
    have hg : Lexer.gapLength false (v.through e).inside = Lexer.gapLength false v.inside := by
      refine Lexer.gapLength_inside (gap.lt_of_ne fun ends => ?_) e.more
      rw [ends, List.drop_length] at inside
      cases inside
    have hw' : (v.through e).advance (Lexer.gapLength false (v.through e).inside) = w.through e := by
      rw [hg, advance_through whole gap, hw]
    rw [none] at hc
    have length := Lexer.content_length hc
    have next : (w.through e).advance (n + 1) = (w.advance (n + 1)).through e := by
      refine advance_through none ?_
      rw [hi]
      exact Nat.succ_le_succ length
    obtain ⟨reads, left⟩ := ih (beyond_advance_nil none _)
    refine ⟨?_, left⟩
    have token : Reads (v.through e) _ (u.through e) :=
      .token hw' (by rw [View.through, hi, List.cons_append]) (content_through apart hc)
        (next ▸ reads)
    have lexeme : ((w.through e).inside ++ (w.through e).beyond).take (n + 1) =
        (w.inside ++ w.beyond).take (n + 1) := by
      rw [View.through, none, List.append_nil, List.append_nil, hi, List.cons_append,
        List.take_succ_cons, List.take_succ_cons, List.take_append_of_le_length length]
    rw [lexeme, next] at token
    exact token

/-- Behind a gap, reading goes on with what follows it. -/
theorem tokens_goesOn {p : Position} {gap more : List Char} (h : Lexer.GoesOn gap more) :
    (View.mk p (gap ++ more) []).tokens = (View.mk (p.after gap) more []).tokens := by
  refine tokens_congr ?_
  have length := Lexer.gapLength_le false more
  have passed : (View.mk p (gap ++ more) []).advance gap.length = ⟨p.after gap, more, []⟩ := by
    simp [advance]
  rw [← passed, advance_advance _ (by simp)]
  exact congrArg (View.advance _) (by rw [h, passed])

/-- The tokens of a text are read in a longer one, before the tokens of what follows it there. -/
theorem Reads.tokens_through (apart : Lexer.Apart e.more)
    (placed : 1 ≤ e.start.line ∧ 1 ≤ e.start.column) {text : List Char}
    (h : Reads (whole text) ts u) (goesOn : Lexer.GoesOn u.inside e.more) :
    (View.mk e.start (text ++ e.more) []).tokens =
      (View.mk (e.start.after text) e.more []).tokens.prepend (ts.map (·.embedded e)) := by
  obtain ⟨reads, none⟩ := h.through apart rfl
  obtain ⟨n, hn, hu⟩ := h.eq_advance rfl
  have start : (whole text).through e = ⟨e.start, text ++ e.more, []⟩ := by
    rw [View.through, whole, Position.start_embedded e placed]
  have stop : (u.position.embedded e).after u.inside = e.start.after text := by
    have ends := after_inside_advance (v := whole text) rfl n
    rw [← hu] at ends
    rw [Position.after_embedded, ends, ← Position.after_embedded, whole,
      Position.start_embedded e placed]
  rw [← start, reads.tokens, View.through, tokens_goesOn goesOn, stop]

/-! ## Texts without a comment at the end -/

/-- Where the tokens of a text end that can be cut into tokens. -/
theorem exists_reads {text : List Char} {p : Position}
    (h : tokenize text = ⟨ts ++ [.atEnd p], none⟩) :
    ∃ u, Reads (whole text) ts u ∧ Lexer.gapLength false u.inside = u.inside.length := by
  obtain ⟨ts', u, reads, ⟨err, fails, -⟩ | ⟨q, tokens, gap, -⟩⟩ := (whole text).tokens_reads
  · cases h.symm.trans fails
  · have same := congrArg Lexed.tokens (h.symm.trans tokens)
    obtain ⟨rfl, -⟩ := List.append_inj' same rfl
    exact ⟨u, reads, (Lexer.gapLength_le false _).antisymm (List.drop_eq_nil_iff.mp gap)⟩

theorem reads_mark (apart : Lexer.Apart [')']) {text : List Char} (h : Reads (whole text) ts u) :
    (tokenize (text ++ [')'])).tokens.length =
      (u.through ⟨.start, [')']⟩).tokens.tokens.length + ts.length := by
  have start : (whole text).through ⟨.start, [')']⟩ = whole (text ++ [')']) := by
    rw [through, whole, Position.start_embedded _ ⟨le_rfl, le_rfl⟩]
    rfl
  rw [tokenize, ← start, ((h.through apart rfl).1).tokens, Lexed.prepend, List.length_append,
    List.length_map, Nat.add_comm]

/-- If no comment is open at the end of a text, the gap there goes on in what follows. -/
theorem goesOn_of_closed {text : List Char} {p : Position}
    (h : tokenize text = ⟨ts ++ [.atEnd p], none⟩) (closed : Closed text)
    (reads : Reads (whole text) ts u) (gap : Lexer.gapLength false u.inside = u.inside.length)
    (more : List Char) : Lexer.GoesOn u.inside more := by
  refine Lexer.goesOn_of_mark ?_ more
  have least := Lexer.gapLength_append_le false u.inside [')']
  have most := Lexer.gapLength_le false (u.inside ++ [')'])
  rw [List.length_append, List.length_singleton] at most
  rcases (show _ ∨ _ by omega : Lexer.gapLength false (u.inside ++ [')']) = u.inside.length ∨
    Lexer.gapLength false (u.inside ++ [')']) = u.inside.length + 1) with none | all
  · exact none
  · -- the parenthesis is in the comment, so that there are as many tokens with it as without it
    refine absurd ?_ closed
    have spent : ((u.through ⟨.start, [')']⟩).advance
        (Lexer.gapLength false (u.through ⟨.start, [')']⟩).inside)).inside = [] := by
      rw [inside_advance]
      refine List.drop_eq_nil_iff.mpr ?_
      show (u.inside ++ [')']).length ≤ Lexer.gapLength false (u.inside ++ [')'])
      rw [all, List.length_append, List.length_singleton]
    rw [reads_mark (Lexer.apart_cons (by decide) []) reads, tokens_gap spent, h,
      List.length_append, List.length_singleton, List.length_singleton, Nat.add_comm]

/-- A text that ends with its last token ends in no comment. -/
theorem closed_of_reads {text : List Char} {p : Position}
    (h : tokenize text = ⟨ts ++ [.atEnd p], none⟩) (reads : Reads (whole text) ts u)
    (spent : u.inside = []) : Closed text := by
  have left : (u.through ⟨.start, [')']⟩).inside = [')'] := by rw [through, spent, List.nil_append]
  have none : Lexer.gapLength false (u.through ⟨.start, [')']⟩).inside = 0 := by
    rw [left]
    rfl
  have mark := tokens_cons (v := u.through ⟨.start, [')']⟩)
    (congrArg _ none)
    (by rw [inside_advance, left, List.drop_zero]) (Lexer.content_mark _ [] _)
  have ended : (((u.through ⟨.start, [')']⟩).advance 0).advance 1).inside = [] := by
    rw [inside_advance, inside_advance, left]
    rfl
  rw [tokens_nil ended] at mark
  unfold Closed
  rw [reads_mark (Lexer.apart_cons (by decide) []) reads, mark, h, List.length_append]
  simp only [Lexed.cons, List.length_cons, List.length_nil]
  omega

/-- The tokens of a text, where it stands in a longer one right before something that ends every
token, unless it ends in a comment that goes on there. -/
theorem tokens_through {text more : List Char} {start p : Position}
    (placed : 1 ≤ start.line ∧ 1 ≤ start.column) (apart : Lexer.Apart more)
    (h : tokenize text = ⟨ts ++ [.atEnd p], none⟩)
    (clear : more.head? = some '\n' ∨ Closed text) :
    (View.mk start (text ++ more) []).tokens =
      (View.mk (start.after text) more []).tokens.prepend (ts.map (·.embedded ⟨start, more⟩)) := by
  obtain ⟨u, reads, gap⟩ := exists_reads h
  refine reads.tokens_through (e := ⟨start, more⟩) apart placed ?_
  rcases clear with newline | closed
  · obtain ⟨more, rfl⟩ := List.head?_eq_some_iff.mp newline
    exact Lexer.goesOn_newline gap more
  · exact goesOn_of_closed h closed reads gap more

end View

end Sigil
