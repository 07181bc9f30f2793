import Mathlib.Tactic.SplitIfs
import Sigil.Proofs.Node.Reading
import Sigil.Proofs.Node.Relabelled
import Sigil.Proofs.Token.Continued

/-!
# Reading a text within a longer one

A text is read twice: on its own, and where it stands in a longer text. The
tokens ahead of the two readers are the same up to the end of the text, where
the longer one ends too or goes on with a semicolon (`Stream.Twin`). If the
first reader succeeds then so does the second, and they leave such streams
again (`Parser.Follows`). There is a rule for each way of putting readers
together and for the pieces that all readers are made of. Nothing is said of a
first reader that fails, so the rules are about what it reads, and a token
that it has read is no end of the text.
-/

namespace Sigil

/-! ## Two streams -/

/-- Whether a text may end at a token of a longer one: at its end, or at a semicolon. -/
def Token.endsText (t : Token) : Bool :=
  t.content = .endOfInput || t.isDelimiter ";"

/-- What comes after the tokens of a text: on its own its end, unless there is a fault in it, and in
a longer text more tokens, which allow the text to end before them. -/
structure Seam where
  error : Option LexError
  ending : List Token
  rest : List Token
  proper : ending = [] ∧ error.isSome ∨
    error = none ∧ ∃ e x xs, ending = [e] ∧ e.content = .endOfInput ∧ rest = x :: xs ∧ x.endsText

/-- The longer text ends where the text ends. -/
def Seam.IsEnd (c : Seam) : Prop :=
  ∀ x, c.error = none → c.rest.head? = some x → x.content = .endOfInput

theorem Seam.length_ending (c : Seam) : c.ending.length ≤ 1 := by
  rcases c.proper with ⟨none, -⟩ | ⟨-, e, x, xs, ending, -⟩
  · rw [none]
    exact Nat.zero_le 1
  · rw [ending]
    exact Nat.le_refl 1

/-- What becomes of the labels of a tree in a longer text. -/
def Placement.relabel (m : Placement) : Relabel :=
  ⟨fun s => some (s.moved m), true⟩

/-- The streams of a text on its own and in a longer one: the same tokens are ahead, which stand
before `limit`. `begun` says that something was read from the first. -/
structure Stream.Twin (m : Placement) (limit : Nat) (c : Seam) (begun : Bool) (s t : Stream) :
    Prop where
  error : s.error = c.error
  ahead : ∃ ts, s.ahead = ts ++ c.ending ∧ t.ahead = ts.map (·.moved m) ++ c.rest ∧
    ∀ u ∈ ts, u.content ≠ .endOfInput ∧ u.span.stop.offset ≤ limit
  previous : ∀ u, s.previous = some u →
    t.previous = some (u.moved m) ∧ u.span.stop.offset ≤ limit
  begun : begun → s.previous.isSome

/-- A token that the first of two streams has next and the one that the second has: the same, or the
end of the text and what comes there. -/
def Token.Alike (m : Placement) (limit : Nat) (c : Seam) (t u : Token) : Prop :=
  t.content ≠ .endOfInput ∧ u = t.moved m ∧ t.span.stop.offset ≤ limit ∨
    t.content = .endOfInput ∧ c.error = none ∧ c.rest.head? = some u

namespace Token

variable {m : Placement} {limit : Nat} {c : Seam} {t u : Token}

theorem isOperator_moved (t : Token) (o : String) : (t.moved m).isOperator o = t.isOperator o := by
  obtain ⟨said, lexeme, span⟩ := t
  cases said <;> rfl

theorem isDelimiter_moved (t : Token) (d : String) :
    (t.moved m).isDelimiter d = t.isDelimiter d := by
  obtain ⟨said, lexeme, span⟩ := t
  cases said <;> rfl

theorem isKeyword_moved (t : Token) (w : String) : (t.moved m).isKeyword w = t.isKeyword w := by
  obtain ⟨said, lexeme, span⟩ := t
  cases said <;> rfl

theorem isPlainWord_moved (t : Token) : (t.moved m).isPlainWord = t.isPlainWord := by
  obtain ⟨said, lexeme, span⟩ := t
  cases said <;> rfl

theorem isAtom_moved (t : Token) : Parser.isAtom (t.moved m) = Parser.isAtom t := by
  obtain ⟨said, lexeme, span⟩ := t
  cases said <;> rfl

theorem content_moved (t : Token) :
    (t.moved m).content = .endOfInput ↔ t.content = .endOfInput := by
  obtain ⟨said, lexeme, span⟩ := t
  cases said <;> simp [moved, Content.moved]

theorem endsText_cases (h : u.endsText) :
    u.content = .endOfInput ∨ u.content = .delimiter ∧ u.lexeme = ";" := by
  simpa [endsText, isDelimiter] using h

namespace Alike

/-- Where the text ends, the longer one allows it. -/
theorem endsText (h : t.Alike m limit c u) (ht : t.content = .endOfInput) : u.endsText := by
  rcases h with ⟨real, -⟩ | ⟨-, none, hu⟩
  · exact absurd ht real
  · rcases c.proper with ⟨-, error⟩ | ⟨-, e, x, xs, -, -, rest, hx⟩
    · rw [none] at error
      cases error
    · rw [rest] at hu
      cases hu
      exact hx

/-- The same token, or two at which the text may end. -/
theorem cases (h : t.Alike m limit c u) :
    u = t.moved m ∨ t.content = .endOfInput ∧
      (u.content = .endOfInput ∨ u.content = .delimiter ∧ u.lexeme = ";") := by
  by_cases ht : t.content = .endOfInput
  · exact .inr ⟨ht, endsText_cases (h.endsText ht)⟩
  · rcases h with ⟨-, rfl, -⟩ | ⟨he, -⟩
    · exact .inl rfl
    · exact absurd he ht

theorem isOperator (h : t.Alike m limit c u) (o : String) : u.isOperator o = t.isOperator o := by
  rcases h.cases with rfl | ⟨ht, hu | ⟨hu, -⟩⟩
  · exact isOperator_moved t o
  all_goals simp [Token.isOperator, ht, hu]

theorem isKeyword (h : t.Alike m limit c u) (w : String) : u.isKeyword w = t.isKeyword w := by
  rcases h.cases with rfl | ⟨ht, hu | ⟨hu, -⟩⟩
  · exact isKeyword_moved t w
  all_goals simp [Token.isKeyword, ht, hu]

theorem isPlainWord (h : t.Alike m limit c u) : u.isPlainWord = t.isPlainWord := by
  rcases h.cases with rfl | ⟨ht, hu | ⟨hu, -⟩⟩
  · exact isPlainWord_moved t
  all_goals simp [Token.isPlainWord, ht, hu]

theorem isDelimiter (h : t.Alike m limit c u) {d : String} (hd : d ≠ ";") :
    u.isDelimiter d = t.isDelimiter d := by
  rcases h.cases with rfl | ⟨ht, hu | ⟨hu, hl⟩⟩
  · exact isDelimiter_moved t d
  · simp [Token.isDelimiter, ht, hu]
  · simp [Token.isDelimiter, ht, hu, hl, hd.symm]

theorem isAtom (h : t.Alike m limit c u) : Parser.isAtom u = Parser.isAtom t := by
  rcases h.cases with rfl | ⟨ht, hu | ⟨hu, -⟩⟩
  · exact isAtom_moved t
  all_goals simp [Parser.isAtom, ht, hu]

theorem startsExpression (h : t.Alike m limit c u) :
    Parser.startsExpression u = Parser.startsExpression t := by
  simp [Parser.startsExpression, h.isAtom, h.isPlainWord, h.isKeyword, h.isOperator, h.isDelimiter]

theorem startsArgument (h : t.Alike m limit c u) :
    Parser.startsArgument u = Parser.startsArgument t := by
  simp [Parser.startsArgument, h.isAtom, h.isPlainWord, h.isKeyword, h.isDelimiter]

/-- A token that is no end of the text is the same in both. -/
theorem real (h : t.Alike m limit c u) (ht : t.content ≠ .endOfInput) :
    u = t.moved m ∧ t.span.stop.offset ≤ limit := by
  rcases h with ⟨-, hu⟩ | ⟨he, -⟩
  · exact hu
  · exact absurd he ht

end Alike

end Token

namespace Stream.Twin

variable {m : Placement} {limit : Nat} {c : Seam} {b : Bool} {s t : Stream}

/-- Once something was read, it does not matter whether something was before. -/
theorem later (h : s.Twin m limit c true t) (b : Bool) : s.Twin m limit c b t :=
  { h with begun := fun _ => h.begun rfl }

/-- A token that the first reader sees behind some others, and the one that the second sees. -/
theorem peeked (h : s.Twin m limit c b t) {k : Nat}
    (before : ∀ j < k, ∃ x, s.peek j = .ok x ∧ x.content ≠ .endOfInput) {x : Token}
    (hx : s.peek k = .ok x) : ∃ y, t.peek k = .ok y ∧ x.Alike m limit c y := by
  obtain ⟨ts, hs, ht, real⟩ := h.ahead
  by_cases inside : k < ts.length
  · have hk : s.ahead[k]? = some ts[k] := by
      rw [hs, List.getElem?_append_left inside, List.getElem?_eq_getElem inside]
    have hk' : t.ahead[k]? = some (ts[k].moved m) := by
      rw [ht, List.getElem?_append_left (by rwa [List.length_map]),
        List.getElem?_map, List.getElem?_eq_getElem inside]
      rfl
    cases hx.symm.trans (Stream.peek_of_ahead hk)
    obtain ⟨content, near⟩ := real _ (List.getElem_mem inside)
    exact ⟨_, Stream.peek_of_ahead hk', .inl ⟨content, rfl, near⟩⟩
  · -- everything before it is in the text, so that it is the end of the text
    have last : k = ts.length := by
      refine Nat.le_antisymm (Nat.le_of_not_lt fun beyond => ?_) (Nat.le_of_not_lt inside)
      obtain ⟨y, hy, real⟩ := before _ beyond
      rcases c.proper with ⟨none, error⟩ | ⟨-, e, z, zs, ending, he, rest, hz⟩
      · have inside := Stream.length_of_peek hy (h.error ▸ error)
        exact absurd inside (by simp [hs, none])
      · have hj : s.ahead[ts.length]? = some e := by simp [hs, ending]
        cases hy.symm.trans (Stream.peek_of_ahead hj)
        exact real he
    subst last
    rcases c.proper with ⟨none, error⟩ | ⟨none, e, y, ys, ending, he, rest, -⟩
    · have inside := Stream.length_of_peek hx (h.error ▸ error)
      exact absurd inside (by simp [hs, none])
    · have hk : s.ahead[ts.length]? = some e := by simp [hs, ending]
      have hk' : t.ahead[ts.length]? = some y := by simp [ht, rest]
      cases hx.symm.trans (Stream.peek_of_ahead hk)
      exact ⟨y, Stream.peek_of_ahead hk', .inr ⟨he, none, by rw [rest]; rfl⟩⟩

/-- The token that the first reader has next, and the one that the second has. -/
theorem next (h : s.Twin m limit c b t) {x : Token} (hx : s.Next x) :
    ∃ y, t.Next y ∧ x.Alike m limit c y :=
  h.peeked (fun j hj => absurd hj (Nat.not_lt_zero j)) hx

/-- A token that is no end of the text is read from both. -/
theorem pop (h : s.Twin m limit c b t) {x : Token} (hx : s.Next x)
    (real : x.content ≠ .endOfInput) :
    (s.pop x).Twin m limit c true (t.pop (x.moved m)) := by
  obtain ⟨xs, hs⟩ := hx.cons real
  obtain ⟨ts, ha, ht, reals⟩ := h.ahead
  cases ts with
  | nil =>
    rw [hs, List.nil_append] at ha
    rcases c.proper with ⟨none, -⟩ | ⟨-, e, y, ys, ending, he, -⟩
    · rw [none] at ha
      cases ha
    · rw [ending] at ha
      cases ha
      exact absurd he real
  | cons u ts =>
    rw [hs] at ha
    cases ha
    have moved : ¬ (x.moved m).content = .endOfInput := fun e => real ((Token.content_moved x).mp e)
    rw [Stream.pop, if_neg real, Stream.pop, if_neg moved]
    have later (u : Token) (hu : u ∈ ts) := reals u (List.mem_cons_of_mem _ hu)
    refine ⟨h.error, ⟨ts, by simp [hs], by simp [ht], later⟩, fun u hu => ?_, fun _ => rfl⟩
    cases hu
    exact ⟨rfl, (reals x List.mem_cons_self).2⟩

/-- The token behind the next one. -/
theorem second (h : s.Twin m limit c b t) {x y : Token} (hx : s.Next x)
    (real : x.content ≠ .endOfInput) (hy : s.peek 1 = .ok y) : (s.pop x).Next y := by
  obtain ⟨xs, hs⟩ := hx.cons real
  cases xs with
  | cons z zs =>
    rw [Stream.peek, hs] at hy
    rw [Next, Stream.pop, if_neg real, Stream.peek, hs]
    exact hy
  | nil =>
    -- there is no end of the text ahead, and so a fault
    obtain ⟨ts, ha, -⟩ := h.ahead
    rcases c.proper with ⟨-, error⟩ | ⟨-, e, z, zs, ending, he, -⟩
    · have some := Stream.length_of_peek hy (h.error ▸ error)
      exact absurd some (by simp [hs])
    · rw [hs, ending] at ha
      cases ts with
      | nil =>
        cases ha
        exact absurd he real
      | cons u ts => simp at ha

theorem length_le (h : s.Twin m limit c b t) : s.ahead.length ≤ t.ahead.length := by
  obtain ⟨ts, hs, ht, -⟩ := h.ahead
  rw [hs, ht, List.length_append, List.length_append, List.length_map]
  refine Nat.add_le_add_left ?_ _
  rcases c.proper with ⟨none, -⟩ | ⟨-, e, x, xs, ending, -, rest, -⟩
  · rw [none]
    exact Nat.zero_le _
  · rw [ending, rest]
    exact Nat.succ_le_succ (Nat.zero_le _)

end Stream.Twin

namespace Parser

/-! ## Two readers -/

section

variable {α β γ δ : Type} {p : Parser α} {q : Parser β} {s t : Stream}

/-- If the first reader succeeds then so does the second, and their results and the streams that
they leave are as `Q` says. -/
def Follows (p : Parser α) (q : Parser β) (s t : Stream) (Q : α → β → Stream → Stream → Prop) :
    Prop :=
  ∀ a u, p.run s = .ok (a, u) → ∃ b v, q.run t = .ok (b, v) ∧ Q a b u v

variable {Q : α → β → Stream → Stream → Prop}

theorem Follows.mono {R : α → β → Stream → Stream → Prop} (h : Follows p q s t Q)
    (hQ : ∀ a b u v, Q a b u v → R a b u v) : Follows p q s t R := fun a u ha =>
  let ⟨b, v, hb, hq⟩ := h a u ha
  ⟨b, v, hb, hQ a b u v hq⟩

theorem Follows.pure {a : α} {b : β} (h : Q a b s t) :
    Follows (Pure.pure a) (Pure.pure b) s t Q := by
  rintro _ _ ⟨⟩
  exact ⟨b, t, rfl, h⟩

theorem Follows.throw {e : Stop} : Follows (MonadExcept.throw e) q s t Q :=
  fun _ _ h => absurd h error_ne_ok

theorem Follows.bind {f : α → Parser γ} {g : β → Parser δ} {R : γ → δ → Stream → Stream → Prop}
    (h : Follows p q s t fun a b u v => Follows (f a) (g b) u v R) :
    Follows (p >>= f) (q >>= g) s t R := by
  intro d w hd
  rw [StateT.run_bind] at hd
  obtain ⟨⟨a, u⟩, ha, hd⟩ := bind_eq_ok hd
  obtain ⟨b, v, hb, hf⟩ := h a u ha
  obtain ⟨e, x, he, hr⟩ := hf d w hd
  refine ⟨e, x, ?_, hr⟩
  rw [StateT.run_bind, hb]
  exact he

theorem Follows.get {Q : Stream → Stream → Stream → Stream → Prop} (h : Q s t s t) :
    Follows MonadState.get MonadState.get s t Q := by
  rintro _ _ ⟨⟩
  exact ⟨t, t, rfl, h⟩

theorem Follows.ite {P : Prop} [Decidable P] {P' : Prop} [Decidable P'] {p' : Parser α}
    {q' : Parser β} (same : P ↔ P') (yes : P → Follows p q s t Q)
    (no : ¬ P → Follows p' q' s t Q) :
    Follows (if P then p else p') (if P' then q else q') s t Q := by
  by_cases h : P
  · rw [if_pos h, if_pos (same.mp h)]
    exact yes h
  · rw [if_neg h, if_neg (same.not.mp h)]
    exact no h

/-- A reader that fails. -/
theorem Follows.unexpected {expected : Expected} : Follows (unexpected expected) q s t Q := by
  intro a u ha
  unfold Parser.unexpected at ha
  rw [StateT.run_bind] at ha
  obtain ⟨⟨x, w⟩, -, ha⟩ := bind_eq_ok ha
  rw [StateT.run_bind] at ha
  obtain ⟨⟨y, z⟩, -, ha⟩ := bind_eq_ok ha
  split at ha <;> cases ha

end

/-! ## Tokens -/

section

variable {α β : Type} {m : Placement} {limit : Nat} {c : Seam} {b : Bool} {s t : Stream}

theorem run_peek (k : Nat) (s : Stream) : (peek k).run s = s.peek k >>= fun x => .ok (x, s) := by
  show (s.peek k >>= _) = _
  cases s.peek k <;> rfl

theorem run_advance (s : Stream) : advance.run s = s.peek 0 >>= fun x => .ok (x, s.pop x) := by
  rw [advance, StateT.run_bind, run_peek]
  cases s.peek 0 <;> rfl

/-- A token behind others that are no end of the text. -/
theorem peekAt_follows {k : Nat} {Q : Token → Token → Stream → Stream → Prop}
    (h : s.Twin m limit c b t)
    (before : ∀ j < k, ∃ x, s.peek j = .ok x ∧ x.content ≠ .endOfInput)
    (hQ : ∀ x y, s.peek k = .ok x → x.Alike m limit c y → Q x y s t) :
    Follows (peek k) (peek k) s t Q := by
  intro x u hx
  rw [run_peek] at hx
  obtain ⟨x, seen, hx⟩ := bind_eq_ok hx
  cases hx
  obtain ⟨y, hy, alike⟩ := h.peeked before seen
  refine ⟨y, t, ?_, hQ x y seen alike⟩
  rw [run_peek, hy]
  rfl

theorem peek_follows {Q : Token → Token → Stream → Stream → Prop} (h : s.Twin m limit c b t)
    (hQ : ∀ x y, s.Next x → t.Next y → x.Alike m limit c y → Q x y s t) :
    Follows (peek 0) (peek 0) s t Q := by
  intro x u hx
  rw [run_peek] at hx
  obtain ⟨x, next, hx⟩ := bind_eq_ok hx
  cases hx
  obtain ⟨y, hy, alike⟩ := h.next next
  refine ⟨y, t, ?_, hQ x y next hy alike⟩
  rw [run_peek, hy]
  rfl

/-- A token that was seen before, and is no end of the text, is read. -/
theorem pop_follows {Q : Token → Token → Stream → Stream → Prop} (h : s.Twin m limit c b t)
    {x : Token} (hx : s.Next x) (real : x.content ≠ .endOfInput)
    (hQ : Q x (x.moved m) (s.pop x) (t.pop (x.moved m))) : Follows advance advance s t Q := by
  intro y u hy
  obtain ⟨z, hz, alike⟩ := h.next hx
  obtain ⟨rfl, -⟩ := alike.real real
  rw [run_advance, hx] at hy
  cases hy
  refine ⟨x.moved m, t.pop (x.moved m), ?_, hQ⟩
  rw [run_advance, hz]
  rfl

theorem advance_follows {Q : Token → Token → Stream → Stream → Prop} (h : s.Twin m limit c b t)
    {x : Token} (hx : s.Next x) (real : x.content ≠ .endOfInput)
    (hQ : ∀ u v, u.Twin m limit c true v → Q x (x.moved m) u v) :
    Follows advance advance s t Q :=
  pop_follows h hx real (hQ _ _ (h.pop hx real))

theorem atOperator_follows {o : String} {Q : Bool → Bool → Stream → Stream → Prop}
    (h : s.Twin m limit c b t) (hQ : ∀ x, s.Next x → Q (x.isOperator o) (x.isOperator o) s t) :
    Follows (atOperator o) (atOperator o) s t Q :=
  .bind (peek_follows h fun x _ hx _ alike => .pure (alike.isOperator o ▸ hQ x hx))

theorem atKeyword_follows {w : String} {Q : Bool → Bool → Stream → Stream → Prop}
    (h : s.Twin m limit c b t) (hQ : ∀ x, s.Next x → Q (x.isKeyword w) (x.isKeyword w) s t) :
    Follows (atKeyword w) (atKeyword w) s t Q :=
  .bind (peek_follows h fun x _ hx _ alike => .pure (alike.isKeyword w ▸ hQ x hx))

theorem atDelimiter_follows {d : String} (hd : d ≠ ";") {Q : Bool → Bool → Stream → Stream → Prop}
    (h : s.Twin m limit c b t) (hQ : ∀ x, s.Next x → Q (x.isDelimiter d) (x.isDelimiter d) s t) :
    Follows (atDelimiter d) (atDelimiter d) s t Q :=
  .bind (peek_follows h fun x _ hx _ alike => .pure (alike.isDelimiter hd ▸ hQ x hx))

theorem operator_follows {o : String} {Q : Token → Token → Stream → Stream → Prop}
    (h : s.Twin m limit c b t) (hQ : ∀ x u v, u.Twin m limit c true v → Q x (x.moved m) u v) :
    Follows (operator o) (operator o) s t Q := by
  refine .bind (atOperator_follows h fun x hx => ?_)
  split_ifs with ho
  · exact advance_follows h hx (Token.isOperator_content ho) (hQ x)
  · exact .unexpected

theorem keyword_follows {w : String} {Q : Token → Token → Stream → Stream → Prop}
    (h : s.Twin m limit c b t) (hQ : ∀ x u v, u.Twin m limit c true v → Q x (x.moved m) u v) :
    Follows (keyword w) (keyword w) s t Q := by
  refine .bind (atKeyword_follows h fun x hx => ?_)
  split_ifs with hw
  · exact advance_follows h hx (Token.isKeyword_content hw) (hQ x)
  · exact .unexpected

theorem delimiter_follows {d : String} (hd : d ≠ ";")
    {Q : Token → Token → Stream → Stream → Prop} (h : s.Twin m limit c b t)
    (hQ : ∀ x u v, u.Twin m limit c true v → Q x (x.moved m) u v) :
    Follows (delimiter d) (delimiter d) s t Q := by
  refine .bind (atDelimiter_follows hd h fun x hx => ?_)
  split_ifs with hx'
  · exact advance_follows h hx (Token.isDelimiter_content hx') (hQ x)
  · exact .unexpected

/-- The span of what was read since a token, which ends before the limit. -/
theorem spanFrom_follows {start : Token} {Q : Option Span → Option Span → Stream → Stream → Prop}
    (h : s.Twin m limit c true t)
    (hQ : ∀ span : Span, span.stop.offset ≤ limit → Q (some span) (some (span.moved m)) s t) :
    Follows (spanFrom start) (spanFrom (start.moved m)) s t Q := by
  refine .bind (.get (.pure ?_))
  obtain ⟨x, hx⟩ := Option.isSome_iff_exists.mp (h.begun rfl)
  obtain ⟨hy, near⟩ := h.previous x hx
  rw [hx, hy]
  exact hQ ⟨start.span.start, x.span.stop⟩ near

/-! ## Loops -/

/-- A step of two loops: both end as `Q` says, or both go on as `R` says. -/
def Paired (Q : Stream → Stream → Prop) (R : α → β → Stream → Stream → Prop) :
    Option α → Option β → Stream → Stream → Prop
  | none, none, u, v => Q u v
  | some a, some b, u, v => R a b u v
  | _, _, _, _ => False

theorem iterateUpTo_follows {step : α → Parser (Option α)} {step' : β → Parser (Option β)}
    {Q R : α → β → Stream → Stream → Prop}
    (h : ∀ a b s t, R a b s t → Follows (step a) (step' b) s t (Paired (Q a b) R)) :
    ∀ {j k : Nat}, j ≤ k → ∀ {a : α} {b : β} {s t : Stream}, R a b s t →
      Follows (iterateUpTo step j a) (iterateUpTo step' k b) s t Q := by
  intro j
  induction j with
  | zero => exact fun _ _ _ _ _ _ => .throw
  | succ j ih =>
    intro k hk a b s t hr
    obtain ⟨k, rfl⟩ : ∃ l, k = l + 1 := ⟨k - 1, by omega⟩
    refine .bind ((h a b s t hr).mono fun r r' u v hrs => ?_)
    cases r with
    | none =>
      cases r' with
      | none => exact .pure hrs
      | some b => exact hrs.elim
    | some a =>
      cases r' with
      | none => exact hrs.elim
      | some b => exact ih (Nat.le_of_succ_le_succ hk) hrs

theorem iterate_follows {step : α → Parser (Option α)} {step' : β → Parser (Option β)}
    {Q R : α → β → Stream → Stream → Prop} {a : α} {a' : β} (twin : s.Twin m limit c b t)
    (h : ∀ a b s t, R a b s t → Follows (step a) (step' b) s t (Paired (Q a b) R))
    (hr : R a a' s t) : Follows (iterate step a) (iterate step' a') s t Q :=
  .bind (.get (iterateUpTo_follows h (Nat.succ_le_succ twin.length_le) hr))

/-- The loop that collects results, by what becomes of each of them. -/
theorem many_follows {step : Parser (Option α)} {step' : Parser (Option β)} {g : α → β}
    (twin : s.Twin m limit c b t)
    (h : ∀ s t, s.Twin m limit c b t → Follows step step' s t
      (Paired (fun u v => u.Twin m limit c b v) fun a a' u v =>
        a' = g a ∧ u.Twin m limit c b v)) :
    Follows (many step) (many step') s t fun as bs u v =>
      bs = as.map g ∧ u.Twin m limit c b v := by
  refine iterate_follows (R := fun as bs u v => bs = as.map g ∧ u.Twin m limit c b v) twin
    (fun as bs u v ⟨hbs, huv⟩ => ?_) ⟨rfl, twin⟩
  refine .bind ((h u v huv).mono fun r r' u v hr => .pure ?_)
  cases r with
  | none =>
    cases r' with
    | none => exact ⟨hbs, hr⟩
    | some b => exact hr.elim
  | some a =>
    cases r' with
    | none => exact hr.elim
    | some b =>
      refine ⟨?_, hr.2⟩
      rw [hbs, hr.1, List.map_append]
      rfl

theorem commaSeparated_follows {item : Parser α} {item' : Parser β} {g : α → β}
    (h : ∀ b s t, s.Twin m limit c b t →
      Follows item item' s t fun a a' u v => a' = g a ∧ u.Twin m limit c true v)
    (twin : s.Twin m limit c b t) :
    Follows (commaSeparated item) (commaSeparated item') s t fun as bs u v =>
      bs = as.map g ∧ u.Twin m limit c true v := by
  refine .bind ((h b s t twin).mono fun a a' u v ⟨ha, huv⟩ => ?_)
  refine .bind ((many_follows (g := g) huv fun u v huv => ?_).mono fun as bs u v ⟨has, huv⟩ =>
    .pure ⟨?_, huv⟩)
  · refine .bind (atDelimiter_follows (by decide) huv fun x hx => ?_)
    split_ifs with comma
    · refine .bind (advance_follows huv hx (Token.isDelimiter_content comma) fun u v huv => ?_)
      exact .bind ((h true u v huv).mono fun a a' u v ha => .pure ha)
    · exact .pure huv
  · rw [ha, has]
    rfl

/-- Items in parentheses, of which there may be none; `rest` is what follows. -/
theorem listed_follows {γ δ : Type} {item : Parser α} {item' : Parser β} {g : α → β}
    {rest : List α → Parser γ} {rest' : List β → Parser δ} {Q : γ → δ → Stream → Stream → Prop}
    (h : ∀ b s t, s.Twin m limit c b t →
      Follows item item' s t fun a a' u v => a' = g a ∧ u.Twin m limit c true v)
    (hrest : ∀ as u v, u.Twin m limit c b v → Follows (rest as) (rest' (as.map g)) u v Q)
    (twin : s.Twin m limit c b t) :
    Follows (do if ← atDelimiter ")" then Pure.pure [] >>= rest else commaSeparated item >>= rest)
      (do if ← atDelimiter ")" then Pure.pure [] >>= rest' else commaSeparated item' >>= rest')
      s t Q := by
  refine .bind (atDelimiter_follows (by decide) twin fun x _ => ?_)
  split_ifs
  · exact .bind (.pure (hrest [] s t twin))
  · refine .bind ((commaSeparated_follows h twin).mono ?_)
    rintro as _ u v ⟨rfl, huv⟩
    exact hrest as u v (huv.later b)

/-! ## Types -/

theorem typeWith_follows {type type' : Parser Ty}
    (h : ∀ b s t, s.Twin m limit c b t →
      Follows type type' s t fun a a' u v => a' = a ∧ u.Twin m limit c true v)
    (twin : s.Twin m limit c b t) :
    Follows (typeWith type) (typeWith type') s t fun a a' u v =>
      a' = a ∧ u.Twin m limit c true v := by
  refine .bind (peek_follows twin fun x y hx _ alike => ?_)
  by_cases word : x.content = .word
  · have real : x.content ≠ .endOfInput := by simp [word]
    obtain ⟨rfl, -⟩ := alike.real real
    have word' : (x.moved m).content = .word := congrArg (Token.Content.moved m) word
    rw [if_neg (not_not.mpr word), if_neg (not_not.mpr word')]
    refine .bind (advance_follows twin hx real fun u v huv => ?_)
    refine .ite Iff.rfl (fun _ => ?_) fun _ => ?_
    · refine .bind (delimiter_follows (by decide) huv fun _ u v huv => ?_)
      refine listed_follows (g := id) h (fun params u v huv => ?_) huv
      rw [List.map_id]
      refine .bind (delimiter_follows (by decide) huv fun _ u v huv => ?_)
      refine .bind (operator_follows huv fun _ u v huv => ?_)
      refine .bind (.mono (h true u v huv) fun a a' u v ⟨ha, huv⟩ => .pure ⟨?_, huv⟩)
      rw [ha]
    · dsimp only [Token.moved]
      cases Ty.ofName? x.lexeme with
      | some ty => exact .pure ⟨rfl, huv⟩
      | none => exact .throw
  · rw [if_pos word]
    exact .unexpected

theorem typeUpTo_follows {j k : Nat} (hjk : j ≤ k) (twin : s.Twin m limit c b t) :
    Follows (typeUpTo j) (typeUpTo k) s t fun a a' u v =>
      a' = a ∧ u.Twin m limit c true v := by
  induction j generalizing k b s t with
  | zero => exact .throw
  | succ j ih =>
    obtain ⟨k, rfl⟩ : ∃ l, k = l + 1 := ⟨k - 1, by omega⟩
    exact typeWith_follows (fun b s t twin => ih (Nat.le_of_succ_le_succ hjk) twin) twin

theorem type_follows (twin : s.Twin m limit c b t) :
    Follows type type s t fun a a' u v => a' = a ∧ u.Twin m limit c true v :=
  .bind (.get (typeUpTo_follows (Nat.succ_le_succ twin.length_le) twin))

theorem declaredType_follows (twin : s.Twin m limit c b t) :
    Follows declaredType declaredType s t fun a a' u v => a' = a ∧ u.Twin m limit c b v := by
  refine .bind (atOperator_follows twin fun x hx => ?_)
  split_ifs with colon
  · refine .bind (advance_follows twin hx (Token.isOperator_content colon) fun u v huv => ?_)
    refine .bind ((type_follows huv).mono fun a a' u v ⟨ha, huv⟩ => .pure ⟨?_, huv.later b⟩)
    rw [ha]
  · exact .pure ⟨rfl, twin⟩

end

end Parser

end Sigil
