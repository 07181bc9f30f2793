import Sigil.Proofs.Token.Continued

/-!
# Tokens of a part of a text

A text that stands anywhere in a longer one (`Embedding`) has the same pieces
there, but for where they stand, unless its own end decides about one of them.
The end can do so in two ways: a piece may be cut off by it
(`LexFault.isCut`), and a name without braces may go on after it
(`Token.isOpenName`). Everything else is read the same (`reference_append`,
`stringParts_embedded`, `content_embedded`, `View.tokens_embedded`), so that
the tokens of a range of a text are those of the text in the range
(`View.tokens_range`).
-/

namespace Sigil

/-- Where a text stands in a longer one: the place before its first character, and what comes after
its last. -/
structure Embedding where
  start : Position
  more : List Char

variable (e : Embedding)

/-! ## Places -/

namespace Position

/-- A place of a text, in the longer one. The columns of its first line, the one with as many
characters before a place as the text has, count on from where the text starts. -/
def embedded (p : Position) : Position :=
  ⟨p.offset + e.start.offset, p.line + (e.start.line - 1),
    if p.column = p.offset + 1 then p.column + (e.start.column - 1) else p.column⟩

theorem step_embedded (p : Position) (c : Char) :
    (p.embedded e).step c = (p.step c).embedded e := by
  unfold step embedded
  split_ifs <;> simp only [mk.injEq] <;> grind

theorem after_embedded (p : Position) (cs : List Char) :
    (p.embedded e).after cs = (p.after cs).embedded e := by
  induction cs generalizing p with
  | nil => rfl
  | cons c cs ih => rw [after_cons, after_cons, step_embedded, ih]

/-- The place at an offset is reached by the characters before it. -/
theorem ofOffset_eq_after {source : List Char} {k : Nat} (h : k ≤ source.length) :
    ofOffset source k = start.after (source.take k) := by
  induction k with
  | zero => rfl
  | succ k ih =>
    have before : (source.take k).length = k := List.length_take_of_le (by omega)
    rw [List.take_succ_eq_append_getElem (by omega), after_append, ← ih (by omega)]
    unfold ofOffset
    rw [List.take_succ_eq_append_getElem (by omega), after_cons, after_nil, step]
    generalize source[k] = c
    generalize source.take k = passed at before
    by_cases hc : c = '\n'
    · simp [hc, before]
    · simp [hc, before]

/-- The start of a text is where it stands in the longer one. -/
theorem start_embedded (he : 1 ≤ e.start.line ∧ 1 ≤ e.start.column) :
    start.embedded e = e.start := by
  obtain ⟨line, column⟩ := he
  unfold embedded start
  cases hs : e.start
  rw [hs] at line column
  simp only [mk.injEq] at line column ⊢
  simp
  omega

/-- The places of a part of a text are those of the whole text. -/
theorem ofOffset_embedded {source more : List Char} {start stop k : Nat} (ordered : start ≤ stop)
    (within : stop ≤ source.length) (h : k ≤ stop - start) :
    (ofOffset ((source.take stop).drop start) k).embedded ⟨ofOffset source start, more⟩ =
      ofOffset source (start + k) := by
  have length : ((source.take stop).drop start).length = stop - start := by
    rw [List.length_drop, List.length_take]
    omega
  have passed : source.take start ++ ((source.take stop).drop start).take k =
      source.take (start + k) := by
    rw [List.take_drop, List.take_take, Nat.min_eq_left (by omega), ← List.take_drop,
      ← List.take_add]
  have starts : Position.start.embedded ⟨ofOffset source start, more⟩ = ofOffset source start :=
    start_embedded _ ⟨Nat.succ_pos _, Nat.succ_pos _⟩
  have inside : ofOffset ((source.take stop).drop start) k =
      Position.start.after (((source.take stop).drop start).take k) :=
    ofOffset_eq_after (by omega)
  rw [inside, ← after_embedded, starts, ofOffset_eq_after (by omega),
    ofOffset_eq_after (by omega), ← after_append, passed]

end Position

/-! ## Pieces -/

/-- A piece of a text, in the longer one. -/
def Span.embedded (s : Span) : Span :=
  ⟨s.start.embedded e, s.stop.embedded e⟩

/-- A stretch of a text, in the longer one: it ends as before, and there is more beyond it. -/
def View.embedded (v : View) : View :=
  ⟨v.position.embedded e, v.inside, v.beyond ++ e.more⟩

/-- A part of a string, in the longer text. -/
def StringPart.embedded : StringPart → StringPart
  | text s => text s
  | .variable name default span => .variable name default (span.embedded e)
  | substitution inside span => substitution (inside.embedded e) (span.embedded e)

/-- What a token says, in the longer text. -/
def Token.Content.embedded : Token.Content → Token.Content
  | string parts => string (parts.map (·.embedded e))
  | c => c

/-- A token, in the longer text. -/
def Token.embedded (t : Token) : Token :=
  ⟨t.content.embedded e, t.lexeme, t.span.embedded e⟩

/-- A fault, in the longer text. -/
def LexError.embedded (err : LexError) : LexError :=
  ⟨err.fault, err.position.embedded e⟩

/-- The tokens of a text and its fault, in the longer text. -/
def Lexed.embedded (l : Lexed) : Lexed :=
  ⟨l.tokens.map (·.embedded e), l.error.map (·.embedded e)⟩

/-- Whether a fault is found at the end of a text, so that more text could make another of it, or
none. -/
def LexFault.isCut : LexFault → Bool
  | missingName none => true
  | fault => fault.isIncomplete

/-- What becomes of the tokens of a text in the longer text: they are the same with the same fault,
or, if the end of the text cuts one off, those before it are. -/
def Lexed.Carried (l l' : Lexed) : Prop :=
  l' = l.embedded e ∨
    (∃ err ∈ l.error, err.fault.isCut) ∧ l.tokens.map (·.embedded e) <+: l'.tokens

theorem Lexed.Carried.cons {e : Embedding} {l l' : Lexed} (h : l.Carried e l') (t : Token) :
    (l.cons t).Carried e (l'.cons (t.embedded e)) :=
  h.imp (congrArg (Lexed.cons (t.embedded e))) fun ⟨cut, same⟩ =>
    ⟨cut, List.cons_prefix_cons.mpr ⟨rfl, same⟩⟩

/-- Without a fault the tokens are the same. -/
theorem Lexed.Carried.whole {e : Embedding} {l l' : Lexed} (h : l.Carried e l')
    (whole : l.error = none) : l' = l.embedded e := by
  refine h.resolve_right ?_
  rintro ⟨⟨err, found, -⟩, -⟩
  rw [whole] at found
  cases found

theorem LexFault.isCut_of_isIncomplete {fault : LexFault} (h : fault.isIncomplete) :
    fault.isCut := by
  cases fault <;> first | rfl | cases h

/-- Whether a token is a variable written without braces, which goes on as long as characters of
names follow. -/
def Token.isOpenName (t : Token) : Bool :=
  match t.content with
  | .variable name => t.lexeme = "$" ++ name
  | _ => false

namespace Lexer

/-! ## References -/

/-- A reference in braces is the same if more follows it, unless the text ends within it. -/
theorem bracedReference_append (cs more : List Char) :
    (∃ fault, bracedReference cs = .error fault ∧ fault.isCut) ∨
      bracedReference (cs ++ more) = bracedReference cs := by
  have inside : (cs.takeWhile isNameChar).length ≤ cs.length := (List.takeWhile_prefix _).length_le
  by_cases ends : (cs.takeWhile isNameChar).length = cs.length
  · refine .inl ⟨.openReference, ?_, rfl⟩
    simp only [bracedReference, ends, List.drop_length]
  have name := takeWhile_stopped ends more
  have left : cs.drop (cs.takeWhile isNameChar).length ≠ [] := by
    rw [Ne, List.drop_eq_nil_iff]
    omega
  unfold bracedReference
  simp only [name, List.drop_append_of_le_length inside]
  generalize cs.takeWhile isNameChar = name at left ⊢
  generalize cs.drop name.length = rest at left ⊢
  split
  · exact absurd rfl left
  · exact .inl ⟨_, rfl, rfl⟩
  · exact .inr rfl
  · next rest =>
    by_cases ends : (rest.takeWhile (· ≠ '\x7d')).length = rest.length
    · exact .inl ⟨_, if_pos ends, rfl⟩
    · have shorter : (rest.takeWhile (· ≠ '\x7d')).length ≤ rest.length :=
        (List.takeWhile_prefix _).length_le
      have default := takeWhile_stopped ends more
      refine .inr ?_
      simp only [List.cons_append, default, List.length_append]
      rw [if_neg (by omega), if_neg ends]
  · next h₁ h₂ h₃ h₄ =>
    refine .inr ?_
    cases rest with
    | nil => exact absurd rfl left
    | cons c rest =>
      cases rest with
      | nil => split <;> simp_all
      | cons d rest => split <;> simp_all

/-- A reference is the same if more follows it, unless the text ends within it or with a name that
goes on. -/
theorem reference_append (cs more : List Char) :
    (∃ fault, reference cs = .error fault ∧ fault.isCut) ∨
      (∃ c ∈ more.head?, isNameChar c ∧ reference cs = .ok ⟨cs, none, cs.length⟩) ∨
      reference (cs ++ more) = reference cs := by
  cases cs with
  | nil => exact .inl ⟨_, rfl, rfl⟩
  | cons c cs =>
    by_cases brace : c = '\x7b'
    · subst brace
      exact (bracedReference_append cs more).imp_right .inr
    rw [List.cons_append, reference_name _ brace, reference_name _ brace]
    refine .inr ?_
    by_cases ends : (cs.takeWhile isNameChar).length = cs.length
    · have whole : cs.takeWhile isNameChar = cs := (List.takeWhile_prefix _).eq_of_length ends
      have more' : (cs ++ more).takeWhile isNameChar = cs ++ more.takeWhile isNameChar := by
        rw [List.takeWhile_append, if_pos ends]
      rw [whole, more']
      split
      · cases more with
        | nil => simp
        | cons d more =>
          by_cases hd : isNameChar d
          · exact .inl ⟨d, rfl, hd, rfl⟩
          · simp [hd]
      · exact .inr rfl
    · rw [takeWhile_stopped ends]
      exact .inr rfl

/-! ## Strings -/

/-- What reading gives in the longer text: the same, where it stands there, unless the end of the
text cuts it off. -/
inductive Carried {α β : Type} (f : α → β) : Except LexError α → Except LexError β → Prop
  | ok (a : α) : Carried f (.ok a) (.ok (f a))
  | error (err : LexError) : Carried f (.error err) (.error (err.embedded e))
  | cut {err : LexError} (h : err.fault.isCut) (r : Except LexError β) : Carried f (.error err) r

section

variable {e}

theorem Carried.ok_of_eq {α β : Type} {f : α → β} {a : α} {b : β} (h : f a = b) :
    Carried e f (.ok a) (.ok b) :=
  h ▸ .ok a

theorem Carried.bind {α β γ δ : Type} {f : α → β} {g : γ → δ} {x : Except LexError α}
    {y : Except LexError β} {k : α → Except LexError γ} {l : β → Except LexError δ}
    (h : Carried e f x y) (hk : ∀ a, x = .ok a → Carried e g (k a) (l (f a))) :
    Carried e g (x >>= k) (y >>= l) := by
  cases h with
  | ok a => exact hk a rfl
  | error err => exact .error err
  | cut h r => exact .cut h _

/-- Parts of a string and their length, in the longer text. -/
def embeddedParts (e : Embedding) (r : List StringPart × Nat) : List StringPart × Nat :=
  (r.1.map (·.embedded e), r.2)

theorem prependText_embedded (text : List Char) (parts : List StringPart) :
    prependText text (parts.map (·.embedded e)) =
      (prependText text parts).map (·.embedded e) := by
  unfold prependText
  split <;> rfl

theorem stringParts_embedded (opened p : Position) (text cs : List Char) :
    Carried e (embeddedParts e) (stringParts opened p text cs)
      (stringParts (opened.embedded e) (p.embedded e) text (cs ++ e.more)) := by
  induction p, text, cs using stringParts_induction with
  | ends =>
    rw [stringParts_nil]
    exact .cut rfl _
  | backslash =>
    rw [stringParts_backslash]
    exact .cut rfl _
  | quote p text rest =>
    rw [List.cons_append, stringParts_quote, stringParts_quote]
    exact .ok_of_eq (congrArg (·, 1) (prependText_embedded text []).symm)
  | unknown p text c rest means =>
    rw [List.cons_append, List.cons_append, stringParts_unknown means, stringParts_unknown means]
    exact .error _
  | escaped p text c d rest means ih =>
    rw [List.cons_append, List.cons_append, stringParts_escaped means, stringParts_escaped means,
      Position.step_embedded, Position.step_embedded]
    exact ih.bind fun r _ => .ok (r.1, r.2 + 2)
  | unclosed p text rest err closes =>
    rw [stringParts_unclosed closes]
    exact .cut (LexFault.isCut_of_isIncomplete (closing_error closes)) _
  | substitution p text inside rest closed ih =>
    rw [← Position.step_embedded, ← Position.after_embedded, ← Position.step_embedded,
      ← Position.step_embedded] at ih
    rw [List.cons_append, List.cons_append, List.append_assoc, List.cons_append,
      stringParts_substitution _ _ _ _ closed, stringParts_substitution _ _ _ _ closed]
    refine ih.bind fun r _ => .ok_of_eq ?_
    simp only [embeddedParts, ← prependText_embedded, Position.step_embedded,
      Position.after_embedded]
    rfl
  | fault p text rest fault plain refers =>
    rw [stringParts_fault plain refers]
    rcases reference_append rest e.more with ⟨_, same, cut⟩ | ⟨_, -, -, same⟩ | same
    · cases refers.symm.trans same
      exact .cut cut _
    · cases refers.symm.trans same
    · cases rest with
      | nil =>
        cases refers
        exact .cut rfl _
      | cons d rest =>
        rw [List.cons_append, stringParts_fault ?_ (same.trans refers)]
        · exact .error _
        · rintro _ ⟨⟩
          exact plain _ rfl
  | named p text taken rest name default refers ih =>
    rw [← Position.after_embedded, ← Position.step_embedded] at ih
    rw [stringParts_reference _ _ _ refers, List.cons_append, List.append_assoc]
    cases rest with
    | nil =>
      rw [stringParts_nil]
      exact .cut rfl _
    | cons d rest =>
      have same : reference (taken ++ (d :: rest ++ e.more)) =
          .ok ⟨name, default, taken.length⟩ := by
        rw [← List.append_assoc]
        rcases reference_append (taken ++ d :: rest) e.more with ⟨_, h, -⟩ | ⟨_, -, -, h⟩ | h
        · cases refers.symm.trans h
        · have length := congrArg Reference.length (Except.ok.inj (refers.symm.trans h))
          simp at length
        · exact h.trans refers
      rw [stringParts_reference _ _ _ same]
      refine ih.bind fun r _ => .ok_of_eq ?_
      simp only [embeddedParts, ← prependText_embedded, Position.step_embedded,
        Position.after_embedded]
      rfl
  | char p text c rest quote backslash sigil ih =>
    rw [List.cons_append, stringParts_char quote backslash sigil,
      stringParts_char quote backslash sigil, Position.step_embedded]
    exact ih.bind fun r _ => .ok (r.1, r.2 + 1)

theorem rawParts_embedded (opened : Position) (cs : List Char) :
    Carried e (embeddedParts e) (rawParts opened cs)
      (rawParts (opened.embedded e) (cs ++ e.more)) := by
  unfold rawParts
  dsimp only
  by_cases ends : (cs.takeWhile (· ≠ '\'')).length = cs.length
  · rw [if_pos ends]
    exact .cut rfl _
  · have shorter : (cs.takeWhile (· ≠ '\'')).length ≤ cs.length :=
      (List.takeWhile_prefix _).length_le
    rw [if_neg ends, takeWhile_stopped ends, if_neg (by rw [List.length_append]; omega)]
    refine .ok_of_eq ?_
    rw [embeddedParts, ← prependText_embedded]
    rfl

/-! ## Tokens -/

/-- What a token says and its length, in the longer text. -/
def embeddedContent (e : Embedding) (r : Token.Content × Nat) : Token.Content × Nat :=
  (r.1.embedded e, r.2)

/-- A token is the same in the longer text, unless the text ends within it or with a name that goes
on. -/
theorem content_embedded (p : Position) (c : Char) (inside beyond : List Char)
    (clear : ∀ d ∈ e.more.head?, isNameChar d → c = '$' → content p c inside beyond ≠
      .ok (.variable (String.ofList (inside ++ beyond)), (inside ++ beyond).length)) :
    Carried e (embeddedContent e) (content p c inside beyond)
      (content (p.embedded e) c inside (beyond ++ e.more)) := by
  unfold content at clear ⊢
  dsimp only at clear ⊢
  rw [← List.append_assoc]
  by_cases sigil : c = '$'
  · rw [if_pos sigil] at clear ⊢
    rw [if_pos sigil]
    split
    · exact .ok _
    · next other =>
      rcases reference_append (inside ++ beyond) e.more with ⟨fault, h, cut⟩ | ⟨d, hd, name, h⟩ | h
      · rw [h]
        exact .cut cut _
      · refine absurd ?_ (clear d hd name sigil)
        split
        · next rest => exact absurd rfl (other rest)
        · rw [h]
          rfl
      · rw [h]
        cases reference (inside ++ beyond) with
        | error fault => exact .error _
        | ok ref =>
          obtain ⟨name, default, n⟩ := ref
          cases default with
          | none => exact .ok _
          | some d => exact .ok _
  rw [if_neg sigil, if_neg sigil]
  by_cases quote : c = '"'
  · rw [if_pos quote, if_pos quote, Position.step_embedded]
    exact (stringParts_embedded p (p.step c) [] (inside ++ beyond)).bind fun r _ => .ok _
  rw [if_neg quote, if_neg quote]
  by_cases raw : c = '\''
  · rw [if_pos raw, if_pos raw]
    exact (rawParts_embedded p (inside ++ beyond)).bind fun r _ => .ok _
  rw [if_neg raw, if_neg raw]
  by_cases digit : c.isDigit
  · rw [if_pos digit, if_pos digit]
    cases h : (numberText (c :: inside)).content with
    | error fault => exact .error _
    | ok said => obtain ⟨k, rfl⟩ | ⟨x, rfl⟩ := numberContent_cases h <;> exact .ok _
  rw [if_neg digit, if_neg digit]
  split
  · exact .ok _
  · split
    · exact .ok _
    · split
      · exact .ok _
      · exact .error _

/-- A token ends within the text that it is read from. -/
theorem content_length {p : Position} {c : Char} {inside beyond : List Char}
    {said : Token.Content} {n : Nat} (h : content p c inside beyond = .ok (said, n)) :
    n ≤ inside.length + beyond.length := by
  have alone : inside ++ beyond = inside ++ beyond ++ Placement.alone.more :=
    (List.append_nil _).symm
  exact (content_moved (sameAhead_self inside) alone h).2

end

end Lexer

namespace View

section

variable {e}

theorem advance_embedded {v : View} {n : Nat} (hn : n ≤ v.length) :
    (v.embedded e).advance n = (v.advance n).embedded e := by
  have hn : n - v.inside.length ≤ v.beyond.length := by rw [length] at hn; omega
  simp only [embedded, advance, Position.after_embedded, List.take_append_of_le_length hn,
    List.drop_append_of_le_length hn]

/-- What is left after the gap that a view begins with, in the longer text. -/
theorem gap_embedded (v : View) :
    (v.embedded e).advance (Lexer.gapLength false (v.embedded e).inside) =
      (v.advance (Lexer.gapLength false v.inside)).embedded e := by
  have gap := Lexer.gapLength_le false v.inside
  exact advance_embedded (n := Lexer.gapLength false v.inside) (by rw [length]; omega)

/-- A token of a view ends where the text does or before. -/
theorem tokens_stop (v : View) :
    ∀ t ∈ v.tokens.tokens, t.span.stop.offset ≤ v.position.offset + v.length := by
  fun_induction View.tokens v with
  | case1 v w hw =>
    have left := offset_length_advance v (Lexer.gapLength false v.inside)
    intro t ht
    obtain rfl := List.mem_singleton.mp ht
    exact (Nat.le_add_right _ _).trans left.le
  | case2 v w c cs hw err hc => exact List.forall_mem_nil _
  | case3 v w c cs hw said n hc rest lexeme ih =>
    have left : w.position.offset + w.length = v.position.offset + v.length :=
      offset_length_advance v (Lexer.gapLength false v.inside)
    have left' : rest.position.offset + rest.length = w.position.offset + w.length :=
      offset_length_advance w (n + 1)
    rw [← left, ← left']
    refine List.forall_mem_cons.mpr ⟨?_, ih⟩
    exact Nat.le_add_right _ _

/-- The end of a text is the last of its tokens, which come before a fault or all before the
end. -/
theorem tokens_end (v : View) : ∃ ts, (∀ t ∈ ts, t.content ≠ .endOfInput) ∧
    ((∃ err, v.tokens = ⟨ts, some err⟩) ∨ ∃ p, v.tokens = ⟨ts ++ [.atEnd p], none⟩) := by
  fun_induction View.tokens v with
  | case1 v w hw => exact ⟨[], List.forall_mem_nil _, .inr ⟨w.position, rfl⟩⟩
  | case2 v w c cs hw err hc => exact ⟨[], List.forall_mem_nil _, .inl ⟨err, rfl⟩⟩
  | case3 v w c cs hw said n hc rest lexeme ih =>
    obtain ⟨ts, real, ends⟩ := ih
    refine ⟨⟨said, lexeme, ⟨w.position, rest.position⟩⟩ :: ts,
      List.forall_mem_cons.mpr ⟨Lexer.content_ne_endOfInput hc, real⟩, ends.imp ?_ ?_⟩
    · rintro ⟨err, h⟩
      exact ⟨err, congrArg (Lexed.cons _) h⟩
    · rintro ⟨p, h⟩
      exact ⟨p, congrArg (Lexed.cons _) h⟩

/-- The tokens of a view are those of the view in the longer text, up to a fault at the end of the
text, if the text ends with no name that goes on. -/
theorem tokens_embedded {v : View} (clear : ∀ c ∈ e.more.head?, Lexer.isNameChar c →
    ∀ t ∈ v.tokens.tokens, t.isOpenName → t.span.stop.offset ≠ v.position.offset + v.length) :
    v.tokens.Carried e (v.embedded e).tokens := by
  revert clear
  fun_induction View.tokens v with
  | case1 v w hw =>
    intro _
    refine .inl ?_
    have gapped : ((v.embedded e).advance (Lexer.gapLength false (v.embedded e).inside)).inside =
        [] := by
      rw [gap_embedded]
      exact hw
    rw [tokens_gap gapped, gap_embedded]
    rfl
  | case2 v w c cs hw err hc =>
    intro _
    have again := Lexer.content_embedded (e := e) w.position c cs w.beyond fun _ _ _ _ he => by
      rw [hc] at he
      cases he
    rw [hc] at again
    generalize hr : Lexer.content _ _ _ _ = r at again
    cases again with
    | error => exact .inl (tokens_error (gap_embedded v) hw hr)
    | cut cut => exact .inr ⟨⟨err, rfl, cut⟩, List.nil_prefix⟩
  | case3 v w c cs hw said n hc rest lexeme ih =>
    intro clear
    have left : w.position.offset + w.length = v.position.offset + v.length :=
      offset_length_advance v (Lexer.gapLength false v.inside)
    have left' : rest.position.offset + rest.length = w.position.offset + w.length :=
      offset_length_advance w (n + 1)
    have length : w.length = (cs ++ w.beyond).length + 1 := by
      rw [View.length, hw, List.length_cons, List.length_append]
      omega
    have less : rest.length ≤ w.length - (n + 1) := length_advance w (n + 1)
    have closed : ∀ d ∈ e.more.head?, Lexer.isNameChar d → c = '$' →
        Lexer.content w.position c cs w.beyond ≠
          .ok (.variable (String.ofList (cs ++ w.beyond)), (cs ++ w.beyond).length) := by
      rintro d hd name rfl he
      cases hc.symm.trans he
      refine clear d hd name _ List.mem_cons_self ?_ ?_
      · have whole : (w.inside ++ w.beyond).take ((cs ++ w.beyond).length + 1) =
            '$' :: (cs ++ w.beyond) := by
          rw [hw, List.cons_append, List.take_succ_cons, List.take_length]
        simp only [Token.isOpenName, lexeme, whole]
        simp [String.ofList_cons]
      · dsimp only
        have : rest.length = 0 := by omega
        omega
    have again := Lexer.content_embedded (e := e) w.position c cs w.beyond closed
    rw [hc] at again
    generalize hr : Lexer.content _ _ _ _ = r at again
    cases again
    have inside := Lexer.content_length hc
    rw [List.length_append] at length
    have next : (w.embedded e).advance (n + 1) = rest.embedded e := advance_embedded (by omega)
    have taken : ((w.embedded e).inside ++ (w.embedded e).beyond).take (n + 1) =
        (w.inside ++ w.beyond).take (n + 1) := by
      rw [embedded, ← List.append_assoc, List.take_append_of_le_length]
      rw [List.length_append, hw, List.length_cons]
      omega
    rw [tokens_cons (gap_embedded (e := e) v) hw hr, next, taken]
    refine (ih fun d hd name t ht ends => ?_).cons _
    have := clear d hd name t (List.mem_cons_of_mem _ ht) ends
    omega

/-- No name goes on in what comes after the text. -/
theorem tokens_embedded_closed (v : View)
    (closed : ∀ c ∈ e.more.head?, Lexer.isNameChar c = false) :
    v.tokens.Carried e (v.embedded e).tokens :=
  tokens_embedded fun c hc name => by
    rw [closed c hc] at name
    cases name

end

/-- A range of a text is the text in it, where it stands in the whole. -/
theorem range_eq_embedded (source : List Char) {start stop : Nat} (ordered : start ≤ stop) :
    range source start stop = (whole ((source.take stop).drop start)).embedded
      ⟨.ofOffset source start, source.drop stop⟩ := by
  have starts : Position.start.embedded ⟨.ofOffset source start, source.drop stop⟩ =
      .ofOffset source start := Position.start_embedded _ ⟨Nat.succ_pos _, Nat.succ_pos _⟩
  rw [range, whole, embedded, starts, Nat.max_eq_right ordered, List.nil_append]

/-- Reading a range of a text is reading the text in the range: the tokens are the same, each where
it stands in the whole text (`Position.ofOffset_embedded`), and so is the fault. What comes after
the range matters to a construct that is still open at its end, and to a name without braces that
ends with it; up to such a construct the tokens are the same nevertheless. -/
theorem tokens_range {source : List Char} {start stop : Nat} (ordered : start ≤ stop)
    (within : stop ≤ source.length)
    (closed : ∀ c ∈ (source.drop stop).head?, Lexer.isNameChar c →
      ∀ t ∈ (tokenize ((source.take stop).drop start)).tokens, t.isOpenName →
        start + t.span.stop.offset ≠ stop) :
    let part := tokenize ((source.take stop).drop start)
    let e : Embedding := ⟨.ofOffset source start, source.drop stop⟩
    part.tokens.map (·.embedded e) <+: (range source start stop).tokens.tokens ∧
      ((∀ err ∈ part.error, err.fault.isCut = false) →
        (range source start stop).tokens = part.embedded e ∧
          ∀ t ∈ (range source start stop).tokens.tokens, t.span.stop.offset ≤ stop) := by
  intro part e
  have length : (whole ((source.take stop).drop start)).length = stop - start := by
    rw [View.length, whole, List.length_drop, List.length_take, List.length_nil]
    omega
  have carried : part.Carried e (range source start stop).tokens := by
    rw [range_eq_embedded source ordered]
    refine tokens_embedded fun c hc name t ht ends => ?_
    have := closed c hc name t ht ends
    rw [length]
    change t.span.stop.offset ≠ 0 + (stop - start)
    omega
  rcases carried with same | ⟨⟨err, found, cut⟩, before⟩
  · rw [same]
    refine ⟨List.prefix_rfl, fun _ => ⟨rfl, List.forall_mem_map.mpr fun t ht => ?_⟩⟩
    have stops : t.span.stop.offset ≤ 0 + (stop - start) := length ▸ tokens_stop _ t ht
    change t.span.stop.offset + start ≤ stop
    omega
  · refine ⟨before, fun settled => ?_⟩
    rw [settled err found] at cut
    cases cut

/-- A reference in braces at the end of a range ends there. -/
theorem tokens_range_bracedSample :
    (range "say $\x7bx\x7dyz".toList 4 8).tokens =
      (tokenize "$\x7bx\x7d".toList).embedded ⟨⟨4, 1, 5⟩, "yz".toList⟩ := by
  have closed : ∀ c ∈ ("say $\x7bx\x7dyz".toList.drop 8).head?, Lexer.isNameChar c →
      ∀ t ∈ (tokenize (("say $\x7bx\x7dyz".toList.take 8).drop 4)).tokens, t.isOpenName →
        4 + t.span.stop.offset ≠ 8 := by
    rintro _ ⟨⟩ name
    decide +kernel
  exact ((tokens_range (by decide) (by decide) closed).2 (by decide +kernel)).1

/-- A name at the end of a range goes on beyond it. -/
example : (range "$abc".toList 0 2).tokens.tokens.map (·.lexeme) = ["$abc", ""] ∧
    (tokenize "$a".toList).tokens.map (·.lexeme) = ["$a", ""] := by
  decide +kernel

end View

end Sigil
