import Sigil.Proofs.Node.Finishing

/-!
# What follows an expression

An expression may end at the end of a text, or where a closing parenthesis or a
comma comes. Two streams have the same tokens ahead; behind them the text ends
in the first, and goes on with such a mark in the second (`Stream.Followed`). A
reader that succeeds on the first stream gives the same on the second, and
leaves such streams again (`Parser.Persists`): whatever it looks for, it finds
in the mark as little as in the end of the text, except where it looks for a
parenthesis or comma of its own. But there the first reader fails, as nothing
is left for it to read. There is a rule for each way of putting readers together
and for the pieces that all readers are made of.
-/

namespace Sigil

/-! ## Two streams -/

/-- Whether an expression may end before a token. -/
def Token.endsExpression (t : Token) : Bool :=
  t.isDelimiter ")" || t.isDelimiter ","

/-- The same tokens are ahead in two streams. Then the text ends in the first, and the second goes
on with a mark. -/
structure Stream.Followed (mark : Token) (rest : List Token) (s t : Stream) : Prop where
  error : s.error = none
  ahead : ∃ ts e, s.ahead = ts ++ [e] ∧ t.ahead = ts ++ mark :: rest ∧ e.content = .endOfInput ∧
    ∀ x ∈ ts, x.content ≠ .endOfInput
  previous : t.previous = s.previous

/-- The streams have not come to the mark: the same token is next in both. -/
structure Stream.Live (mark : Token) (rest : List Token) (x : Token) (s t : Stream) : Prop
    extends s.Followed mark rest t where
  next : s.Next x
  next' : t.Next x
  real : x.content ≠ .endOfInput

/-- Whether a test tells neither the mark nor the end of the text from other tokens that it rejects. -/
structure Token.Blind (mark : Token) (test : Token → Bool) : Prop where
  mark : test mark = false
  ending (e : Token) : e.content = .endOfInput → test e = false

variable {mark : Token} {rest : List Token}

namespace Token

variable {test : Token → Bool}

theorem endsExpression_cases (h : mark.endsExpression) :
    mark.content = .delimiter ∧ (mark.lexeme = ")" ∨ mark.lexeme = ",") := by
  simpa [endsExpression, isDelimiter, and_or_left] using h

theorem Blind.real (h : Blind mark test) {x : Token} (hx : test x) : x.content ≠ .endOfInput :=
  fun ends => by
    rw [h.ending x ends] at hx
    cases hx

section

variable (h : mark.endsExpression)
include h

theorem blind_operator (o : String) : Blind mark (·.isOperator o) :=
  ⟨by simp [isOperator, (endsExpression_cases h).1], (Parser.finds_isOperator o).ends⟩

theorem blind_keyword (w : String) : Blind mark (·.isKeyword w) :=
  ⟨by simp [isKeyword, (endsExpression_cases h).1], (Parser.finds_isKeyword w).ends⟩

theorem blind_delimiter {d : String} (hd : d ≠ ")" ∧ d ≠ ",") : Blind mark (·.isDelimiter d) := by
  refine ⟨?_, (Parser.finds_isDelimiter d).ends⟩
  rcases (endsExpression_cases h).2 with hl | hl <;> simp [isDelimiter, hl, hd.1.symm, hd.2.symm]

theorem blind_plainWord : Blind mark isPlainWord :=
  ⟨by simp [isPlainWord, (endsExpression_cases h).1], Parser.finds_isPlainWord.ends⟩

theorem blind_atom : Blind mark Parser.isAtom :=
  ⟨by simp [Parser.isAtom, (endsExpression_cases h).1], fun e he => by simp [Parser.isAtom, he]⟩

theorem blind_startsExpression : Blind mark Parser.startsExpression := by
  have delimiter (d : String) (hd : d ≠ ")" ∧ d ≠ ",") := (blind_delimiter h hd).mark
  refine ⟨?_, Parser.tests_startsExpression.ends⟩
  simp [Parser.startsExpression, (blind_atom h).mark, (blind_plainWord h).mark,
    (blind_keyword h _).mark, (blind_operator h _).mark, delimiter "(" (by decide),
    delimiter "\x7b" (by decide), delimiter "$(" (by decide)]

theorem blind_startsArgument : Blind mark Parser.startsArgument := by
  have delimiter (d : String) (hd : d ≠ ")" ∧ d ≠ ",") := (blind_delimiter h hd).mark
  refine ⟨?_, Parser.tests_startsArgument.ends⟩
  simp [Parser.startsArgument, (blind_atom h).mark, (blind_plainWord h).mark,
    (blind_keyword h _).mark, delimiter "(" (by decide), delimiter "$(" (by decide)]

theorem blind_oneOf (ops : List BinaryOperator) :
    Blind mark fun t => ops.any fun op => t.isOperator op.symbol :=
  ⟨List.any_eq_false.mpr fun op _ => by simp [(blind_operator h _).mark],
    fun e he => List.any_eq_false.mpr fun op _ => by simp [isOperator, he]⟩

end

end Token

namespace Stream

variable {s t : Stream} {x : Token}

theorem Followed.length_le (h : s.Followed mark rest t) : s.ahead.length ≤ t.ahead.length := by
  obtain ⟨ts, e, hs, ht, -⟩ := h.ahead
  rw [hs, ht, List.length_append, List.length_append]
  exact Nat.add_le_add_left (Nat.succ_le_succ (Nat.zero_le _)) _

/-- The first stream has come to its end, and the second to the mark; or they go on alike. -/
theorem Followed.cases (h : s.Followed mark rest t) :
    (s.Over ∧ t.ahead = mark :: rest) ∨ ∃ x, s.Live mark rest x t := by
  obtain ⟨ts, e, hs, ht, he, real⟩ := h.ahead
  cases ts with
  | nil => exact .inl ⟨⟨e, [], hs, he⟩, ht⟩
  | cons x ts =>
    exact .inr ⟨x, h, next_of_ahead hs, next_of_ahead ht, real x List.mem_cons_self⟩

/-- Where the first stream is at its end, the second is at the mark. -/
theorem Followed.over (h : s.Followed mark rest t) (ended : s.Over) : t.ahead = mark :: rest := by
  rcases h.cases with ⟨-, ht⟩ | ⟨x, live⟩
  · exact ht
  · obtain ⟨e, xs, hs, he⟩ := ended
    cases live.next.symm.trans (next_of_ahead hs)
    exact absurd he live.real

/-- A token behind others of the text: the same in both streams, or the end of the text and the
mark. -/
theorem Followed.peek (h : s.Followed mark rest t) {k : Nat}
    (before : ∀ j < k, ∃ x, s.peek j = .ok x ∧ x.content ≠ .endOfInput) :
    (∃ e, s.peek k = .ok e ∧ e.content = .endOfInput ∧ t.peek k = .ok mark) ∨
      ∃ y, s.peek k = .ok y ∧ t.peek k = .ok y := by
  obtain ⟨ts, e, hs, ht, he, -⟩ := h.ahead
  have last : s.peek ts.length = .ok e := peek_of_ahead (by simp [hs])
  rcases lt_trichotomy k ts.length with inside | rfl | beyond
  · refine .inr ⟨ts[k], peek_of_ahead ?_, peek_of_ahead ?_⟩
    · rw [hs, List.getElem?_append_left inside, List.getElem?_eq_getElem inside]
    · rw [ht, List.getElem?_append_left inside, List.getElem?_eq_getElem inside]
  · exact .inl ⟨e, last, he, peek_of_ahead (by simp [ht])⟩
  · obtain ⟨x, hx, real⟩ := before _ beyond
    cases last.symm.trans hx
    exact absurd he real

theorem Live.pop (h : s.Live mark rest x t) : (s.pop x).Followed mark rest (t.pop x) := by
  obtain ⟨ts, e, hs, ht, he, real⟩ := h.ahead
  obtain ⟨xs, ahead⟩ := h.next.cons h.real
  cases ts with
  | nil =>
    cases h.next.symm.trans (next_of_ahead hs)
    exact absurd he h.real
  | cons y ts =>
    cases h.next.symm.trans (next_of_ahead hs)
    rw [Stream.pop, if_neg h.real, Stream.pop, if_neg h.real, hs, ht]
    exact ⟨h.error, ⟨ts, e, rfl, rfl, he, fun z hz => real z (List.mem_cons_of_mem _ hz)⟩, rfl⟩

/-- The second of two tokens is next when the first is read. -/
theorem Live.second (h : s.Live mark rest x t) {y : Token} (hy : s.peek 1 = .ok y)
    (real : y.content ≠ .endOfInput) : (s.pop x).Live mark rest y (t.pop x) := by
  obtain ⟨ts, e, hs, -⟩ := h.pop.ahead
  have next : (s.pop x).Next y := next_pop h.next h.real hy (by simp [hs])
  rcases h.pop.cases with ⟨ended, -⟩ | ⟨z, live⟩
  · obtain ⟨e, he, hend⟩ := ended.next
    cases next.symm.trans he
    exact absurd hend real
  · cases next.symm.trans live.next
    exact live

end Stream

namespace Parser

/-! ## Readers -/

section

variable {α β : Type} {p p' q q' : Parser α} {s t : Stream} {x : Token}

/-- The same was read from both streams. -/
def Alike (mark : Token) (rest : List Token) (a b : α) (u v : Stream) : Prop :=
  b = a ∧ u.Followed mark rest v

/-- What the first reader reads, the second reads before the mark. -/
def Persists (mark : Token) (rest : List Token) (p q : Parser α) : Prop :=
  ∀ s t, s.Followed mark rest t → Follows p q s t (Alike mark rest)

namespace Persists

theorem pure (a : α) : Persists mark rest (Pure.pure a) (Pure.pure a) :=
  fun _ _ h => .pure ⟨rfl, h⟩

theorem throw {e : Stop} : Persists mark rest (MonadExcept.throw e) q := fun _ _ _ => .throw

theorem unexpected {expected : Expected} : Persists mark rest (Parser.unexpected expected) q :=
  fun _ _ _ => .unexpected

theorem bind {f g : α → Parser β} (h : Persists mark rest p q)
    (hf : ∀ a, Persists mark rest (f a) (g a)) : Persists mark rest (p >>= f) (q >>= g) :=
  fun s t hst => .bind ((h s t hst).mono fun a _ u v ⟨same, huv⟩ => same ▸ hf a u v huv)

theorem spanFrom (start : Token) :
    Persists mark rest (Parser.spanFrom start) (Parser.spanFrom start) :=
  fun _ _ h => .bind (.get (h.previous ▸ .pure ⟨rfl, h⟩))

/-- A reader that fails at the end of the text has to be looked at elsewhere only. -/
theorem of_live (stalls : Stalls p)
    (h : ∀ x s t, s.Live mark rest x t → Follows p q s t (Alike mark rest)) :
    Persists mark rest p q := by
  intro s t hst
  rcases hst.cases with ⟨ended, -⟩ | ⟨x, live⟩
  · exact fun a u ha => absurd ha (stalls s ended (a, u))
  · exact h x s t live

end Persists

/-! ## Tokens -/

/-- What comes next is looked at in both streams. -/
theorem Follows.peeked {k : Nat} {y : Token} {f g : Token → Parser α}
    {Q : α → α → Stream → Stream → Prop} (hs : s.peek k = .ok x) (ht : t.peek k = .ok y)
    (h : Follows (f x) (g y) s t Q) : Follows (peek k >>= f) (peek k >>= g) s t Q := by
  intro a u ha
  rw [StateT.run_bind, run_peek, hs] at ha
  obtain ⟨b, v, hb, hq⟩ := h a u ha
  refine ⟨b, v, ?_, hq⟩
  rw [StateT.run_bind, run_peek, ht]
  exact hb

theorem peek_live {f g : Token → Parser α} {Q : α → α → Stream → Stream → Prop}
    (h : s.Live mark rest x t) (hf : Follows (f x) (g x) s t Q) :
    Follows (peek 0 >>= f) (peek 0 >>= g) s t Q :=
  .peeked h.next h.next' hf

theorem advance_live {Q : Token → Token → Stream → Stream → Prop} (h : s.Live mark rest x t)
    (hQ : Q x x (s.pop x) (t.pop x)) : Follows advance advance s t Q := by
  intro a u ha
  rw [run_advance, h.next] at ha
  cases ha
  refine ⟨x, t.pop x, ?_, hQ⟩
  rw [run_advance, h.next']
  rfl

theorem take_live {f g : Token → Parser α} (h : s.Live mark rest x t)
    (hf : Persists mark rest (f x) (g x)) :
    Follows (advance >>= f) (advance >>= g) s t (Alike mark rest) :=
  .bind (advance_live h (hf _ _ h.pop))

/-- A test of the next token. -/
theorem ask_live {test : Token → Bool} {f g : Bool → Parser α}
    {Q : α → α → Stream → Stream → Prop} (h : s.Live mark rest x t)
    (hf : Follows (f (test x)) (g (test x)) s t Q) :
    Follows ((do return test (← peek 0)) >>= f) ((do return test (← peek 0)) >>= g) s t Q := by
  rw [bind_assoc, bind_assoc]
  exact peek_live h (by rwa [pure_bind, pure_bind])

/-- What is read depends on the next token by a test that is blind to where the streams differ. -/
theorem peek_persists {test : Token → Bool} (blind : Token.Blind mark test) {f g : Token → Parser α}
    (yes : ∀ x s t, s.Live mark rest x t → test x → Follows (f x) (g x) s t (Alike mark rest))
    (no : ∀ x y, test x = false → test y = false → Persists mark rest (f x) (g y)) :
    Persists mark rest (peek 0 >>= f) (peek 0 >>= g) := by
  intro s t h
  rcases h.cases with ⟨ended, ahead⟩ | ⟨x, live⟩
  · obtain ⟨e, he, hend⟩ := ended.next
    refine .peeked he (Stream.next_of_ahead ahead) ?_
    exact no e mark (blind.ending e hend) blind.mark s t h
  · refine peek_live live ?_
    cases ht : test x with
    | true => exact yes x s t live ht
    | false => exact no x x ht ht s t h

/-- A choice by a test of the next token. -/
theorem ask_persists {test : Token → Bool} (blind : Token.Blind mark test) {f g : Bool → Parser α}
    (yes : ∀ x s t, s.Live mark rest x t → test x →
      Follows (f true) (g true) s t (Alike mark rest))
    (no : Persists mark rest (f false) (g false)) :
    Persists mark rest ((do return test (← peek 0)) >>= f) ((do return test (← peek 0)) >>= g) := by
  rw [bind_assoc, bind_assoc]
  refine peek_persists blind (fun x s t live hx => ?_) fun x y hx hy => ?_
  · rw [pure_bind, pure_bind, hx]
    exact yes x s t live hx
  · rw [pure_bind, pure_bind, hx, hy]
    exact no

/-- A token that has to be there is read. -/
theorem required_persists {test : Token → Bool} {expected : Expected} (ht : Tests test) :
    Persists mark rest
      (do if ← (do return test (← peek 0)) then advance else unexpected expected)
      (do if ← (do return test (← peek 0)) then advance else unexpected expected) := by
  refine .of_live (ht.stalls stalls_unexpected) fun x s t live => ask_live live ?_
  split_ifs
  · exact advance_live live ⟨rfl, live.pop⟩
  · exact .unexpected

theorem stalls_delimiter (d : String) : Stalls (delimiter d) :=
  (finds_isDelimiter d).stalls stalls_unexpected

theorem delimiter_persists (d : String) : Persists mark rest (delimiter d) (delimiter d) :=
  required_persists (finds_isDelimiter d).toTests

theorem operator_persists (o : String) : Persists mark rest (operator o) (operator o) :=
  required_persists (finds_isOperator o).toTests

theorem keyword_persists (w : String) : Persists mark rest (keyword w) (keyword w) :=
  required_persists (finds_isKeyword w).toTests

/-! ## Loops -/

theorem iterateUpTo_persists {step step' : α → Parser (Option α)}
    (h : ∀ a, Persists mark rest (step a) (step' a)) {j k : Nat} (hjk : j ≤ k) (a : α) :
    Persists mark rest (iterateUpTo step j a) (iterateUpTo step' k a) := by
  intro s t hst
  refine iterateUpTo_follows (R := Alike mark rest) (fun a b s t ⟨same, hst⟩ => ?_) hjk ⟨rfl, hst⟩
  subst same
  refine (h b s t hst).mono fun r r' u v ⟨same, huv⟩ => ?_
  subst same
  cases r' with
  | none => exact ⟨rfl, huv⟩
  | some c => exact ⟨rfl, huv⟩

theorem iterate_persists {step step' : α → Parser (Option α)}
    (h : ∀ a, Persists mark rest (step a) (step' a)) (a : α) :
    Persists mark rest (iterate step a) (iterate step' a) := fun s t hst =>
  .bind (.get (iterateUpTo_persists h (Nat.succ_le_succ hst.length_le) a s t hst))

theorem many_persists {step step' : Parser (Option α)} (h : Persists mark rest step step') :
    Persists mark rest (many step) (many step') :=
  iterate_persists (fun as => .bind h fun r => .pure (r.map fun a => as ++ [a])) []

/-! ## Lists -/

/-- Where the first list ends, the text is over, or the second list is the same and the streams go
on alike. -/
theorem iterateUpTo_ends {step step' : α → Parser (Option α)}
    (h : ∀ a x s t, s.Live mark rest x t → Follows (step a) (step' a) s t (Alike mark rest))
    (stays : ∀ a s r u, s.Over → (step a).run s = .ok (r, u) → r = none ∧ u.Over)
    {j k : Nat} (hjk : j ≤ k) (a : α) (hst : s.Followed mark rest t) {b : α} {u : Stream}
    (hb : (iterateUpTo step j a).run s = .ok (b, u)) :
    u.Over ∨ ∃ v, (iterateUpTo step' k a).run t = .ok (b, v) ∧ u.Followed mark rest v := by
  induction j generalizing k a s t with
  | zero => cases hb
  | succ j ih =>
    obtain ⟨k, rfl⟩ : ∃ l, k = l + 1 := ⟨k - 1, by omega⟩
    rw [run_iterateUpTo_succ] at hb
    obtain ⟨⟨r, w⟩, hr, hb⟩ := bind_eq_ok hb
    rcases hst.cases with ⟨ended, -⟩ | ⟨x, live⟩
    · obtain ⟨rfl, ended⟩ := stays a s r w ended hr
      cases hb
      exact .inl ended
    · obtain ⟨r', v, hv, same, hwv⟩ := h a x s t live r w hr
      subst same
      rw [run_iterateUpTo_succ, hv]
      cases r' with
      | none =>
        cases hb
        exact .inr ⟨v, rfl, hwv⟩
      | some c => exact ih (Nat.le_of_succ_le_succ hjk) c hwv hb

end

section

variable {α β : Type} {item item' : Parser α} {s t : Stream}

/-- Another item behind a comma, if there is one. -/
def nextItem (item : Parser α) : Parser (Option α) := do
  if ← atDelimiter "," then
    let _ ← advance
    return some (← item)
  else return none

theorem commaSeparated_ends (h : Persists mark rest item item') (hst : s.Followed mark rest t)
    {as : List α} {u : Stream} (has : (commaSeparated item).run s = .ok (as, u)) :
    u.Over ∨ ∃ v, (commaSeparated item').run t = .ok (as, v) ∧ u.Followed mark rest v := by
  have expand (item : Parser α) (s : Stream) : (commaSeparated item).run s =
      item.run s >>= fun r => (many (nextItem item)).run r.2 >>= fun q =>
        .ok (r.1 :: q.1, q.2) := by
    rw [commaSeparated, StateT.run_bind]
    rfl
  rw [expand] at has ⊢
  obtain ⟨⟨a, w⟩, ha, has⟩ := bind_eq_ok has
  obtain ⟨⟨bs, w'⟩, hbs, has⟩ := bind_eq_ok has
  cases has
  obtain ⟨a', v, hv, same, hwv⟩ := h s t hst a w ha
  subst same
  rw [hv, ok_bind]
  dsimp only at hbs ⊢
  have round (bs : List α) (x : Token) (s t : Stream) (live : s.Live mark rest x t) :
      Follows (collect (nextItem item) bs) (collect (nextItem item') bs) s t
        (Alike mark rest) := by
    refine .bind (.mono (Q := Alike mark rest) (ask_live live ?_) ?_)
    · split_ifs
      · exact take_live live (.bind h fun a => .pure (some a))
      · exact .pure ⟨rfl, live.toFollowed⟩
    · rintro r _ u v ⟨rfl, huv⟩
      exact .pure ⟨rfl, huv⟩
  have stays (bs : List α) (s : Stream) (r : Option (List α)) (u : Stream) (ended : s.Over)
      (hr : (collect (nextItem item) bs).run s = .ok (r, u)) : r = none ∧ u.Over := by
    have none : (nextItem item).run s = .ok (none, s) := (finds_isDelimiter ",").run_bind_over ended _
    rw [run_collect, none] at hr
    cases hr
    exact ⟨rfl, ended⟩
  refine (iterateUpTo_ends round stays (Nat.succ_le_succ hwv.length_le) [] hwv hbs).imp_right ?_
  rintro ⟨v', hv', huv'⟩
  have run : (many (nextItem item')).run v = .ok (bs, v') := hv'
  rw [run]
  exact ⟨v', rfl, huv'⟩

/-- Items in parentheses, of which there may be none; `f` is what follows, which cannot be read at
the end of the text. -/
theorem listed_persists {f f' : List α → Parser β} (h : Persists mark rest item item')
    (stalls : Stalls item) (hf : ∀ as, Persists mark rest (f as) (f' as))
    (stops : ∀ as, Stalls (f as)) : Persists mark rest
      (do if ← atDelimiter ")" then Pure.pure [] >>= f else commaSeparated item >>= f)
      (do if ← atDelimiter ")" then Pure.pure [] >>= f' else commaSeparated item' >>= f') := by
  refine .of_live ((finds_isDelimiter ")").stalls stalls.bind.bind) fun x s t live =>
    ask_live live ?_
  split_ifs
  · exact Persists.bind (.pure []) hf s t live.toFollowed
  · intro b w hb
    rw [StateT.run_bind] at hb
    obtain ⟨⟨as, u⟩, has, hb⟩ := bind_eq_ok hb
    rcases commaSeparated_ends h live.toFollowed has with ended | ⟨v, hv, huv⟩
    · exact absurd hb (stops as u ended (b, w))
    · obtain ⟨b', w', hb', same⟩ := hf as u v huv b w hb
      refine ⟨b', w', ?_, same⟩
      rw [StateT.run_bind, hv]
      exact hb'

end

/-! ## Types -/

section

variable (ends : mark.endsExpression)
include ends

theorem typeWith_persists {type type' : Parser Ty} (h : Persists mark rest type type')
    (stalls : Stalls type) : Persists mark rest (typeWith type) (typeWith type') := by
  have blind : Token.Blind mark fun x => x.content = .word :=
    ⟨by simp [(Token.endsExpression_cases ends).1], fun e he => by simp [he]⟩
  refine peek_persists blind (fun x s t live word => ?_) fun x y hx hy => ?_
  · have word : x.content = .word := of_decide_eq_true word
    rw [if_neg (not_not.mpr word), if_neg (not_not.mpr word)]
    refine take_live live ?_
    split_ifs
    · refine .bind (delimiter_persists "(") fun _ => ?_
      refine listed_persists h stalls (fun params => ?_) fun params => (stalls_delimiter ")").bind
      refine .bind (delimiter_persists ")") fun _ => .bind (operator_persists "->") fun _ => ?_
      exact .bind h fun ty => .pure (Ty.fn params ty)
    · cases Ty.ofName? x.lexeme with
      | some ty => exact .pure ty
      | none => exact .throw
  · rw [if_pos (of_decide_eq_false hx)]
    exact .unexpected

theorem typeUpTo_persists {j k : Nat} (hjk : j ≤ k) :
    Persists mark rest (typeUpTo j) (typeUpTo k) := by
  induction j generalizing k with
  | zero => exact .throw
  | succ j ih =>
    obtain ⟨k, rfl⟩ : ∃ l, k = l + 1 := ⟨k - 1, by omega⟩
    exact typeWith_persists ends (ih (Nat.le_of_succ_le_succ hjk)) (stalls_typeUpTo j)

theorem type_persists : Persists mark rest type type := fun s t hst =>
  .bind (.get (typeUpTo_persists ends (Nat.succ_le_succ hst.length_le) s t hst))

theorem declaredType_persists : Persists mark rest declaredType declaredType := by
  refine ask_persists (Token.blind_operator ends ":") (fun x s t live _ => ?_) (.pure none)
  exact take_live live (.bind (type_persists ends) fun ty => .pure (some ty))

end

end Parser

end Sigil
