import Sigil.Proofs.Node.Mirrored
import Sigil.Proofs.Token.Enclosed

/-!
# Reading what stands in parentheses

A text is read twice: in parentheses, where the one that closes them comes
after it, and in a longer text, where it is a stretch that ends with its last
token. The tokens ahead of the two readers are the same up to there
(`Border.Near`). If the first reader succeeds then so does the second, and they
leave such streams again, unless the first has read the closing parenthesis as
its own; then it is lost, and stays so (`Parser.Trails`). What both read has as
many opening as closing parentheses (`Token.nest`). There is a rule for each
way of putting readers together and for the pieces that all readers are made
of.
-/

namespace Sigil

/-! ## Two streams -/

/-- What becomes of the labels of a tree in a longer text. -/
def Embedding.relabel (e : Embedding) : Relabel :=
  ⟨fun s => some (s.embedded e), true⟩

variable {e : Embedding}

namespace Token

/-- A token that the first of two streams has next and the one that the second has: the same, or the
end of the text and what comes there. -/
def Beside (e : Embedding) (t u : Token) : Prop :=
  u = t.embedded e ∨ (t.content = .endOfInput ∨ t.isDelimiter ")") ∧ u.content = .endOfInput

variable {t u : Token}

theorem isOperator_embedded (t : Token) (o : String) :
    (t.embedded e).isOperator o = t.isOperator o := by
  obtain ⟨said, lexeme, span⟩ := t
  cases said <;> rfl

theorem isDelimiter_embedded (t : Token) (d : String) :
    (t.embedded e).isDelimiter d = t.isDelimiter d := by
  obtain ⟨said, lexeme, span⟩ := t
  cases said <;> rfl

theorem isKeyword_embedded (t : Token) (w : String) :
    (t.embedded e).isKeyword w = t.isKeyword w := by
  obtain ⟨said, lexeme, span⟩ := t
  cases said <;> rfl

theorem isPlainWord_embedded (t : Token) : (t.embedded e).isPlainWord = t.isPlainWord := by
  obtain ⟨said, lexeme, span⟩ := t
  cases said <;> rfl

theorem isAtom_embedded (t : Token) : Parser.isAtom (t.embedded e) = Parser.isAtom t := by
  obtain ⟨said, lexeme, span⟩ := t
  cases said <;> rfl

theorem content_embedded (t : Token) :
    (t.embedded e).content = .endOfInput ↔ t.content = .endOfInput := by
  obtain ⟨said, lexeme, span⟩ := t
  cases said <;> simp [embedded, Content.embedded]

namespace Beside

/-- The same token, or two at which a text may end. -/
theorem cases (h : t.Beside e u) : u = t.embedded e ∨
    (t.content = .endOfInput ∨ t.content = .delimiter ∧ t.lexeme = ")") ∧
      u.content = .endOfInput := by
  simpa [Beside, isDelimiter] using h

theorem isOperator (h : t.Beside e u) (o : String) : u.isOperator o = t.isOperator o := by
  rcases h.cases with rfl | ⟨ht | ⟨ht, -⟩, hu⟩
  · exact isOperator_embedded t o
  all_goals simp [Token.isOperator, ht, hu]

theorem isKeyword (h : t.Beside e u) (w : String) : u.isKeyword w = t.isKeyword w := by
  rcases h.cases with rfl | ⟨ht | ⟨ht, -⟩, hu⟩
  · exact isKeyword_embedded t w
  all_goals simp [Token.isKeyword, ht, hu]

theorem isPlainWord (h : t.Beside e u) : u.isPlainWord = t.isPlainWord := by
  rcases h.cases with rfl | ⟨ht | ⟨ht, -⟩, hu⟩
  · exact isPlainWord_embedded t
  all_goals simp [Token.isPlainWord, ht, hu]

theorem isDelimiter (h : t.Beside e u) {d : String} (hd : d ≠ ")") :
    u.isDelimiter d = t.isDelimiter d := by
  rcases h.cases with rfl | ⟨ht | ⟨ht, hl⟩, hu⟩
  · exact isDelimiter_embedded t d
  · simp [Token.isDelimiter, ht, hu]
  · simp [Token.isDelimiter, ht, hu, hl, hd.symm]

theorem isAtom (h : t.Beside e u) : Parser.isAtom u = Parser.isAtom t := by
  rcases h.cases with rfl | ⟨ht | ⟨ht, -⟩, hu⟩
  · exact isAtom_embedded t
  all_goals simp [Parser.isAtom, ht, hu]

theorem startsExpression (h : t.Beside e u) :
    Parser.startsExpression u = Parser.startsExpression t := by
  simp [Parser.startsExpression, h.isAtom, h.isPlainWord, h.isKeyword, h.isOperator, h.isDelimiter]

theorem startsArgument (h : t.Beside e u) :
    Parser.startsArgument u = Parser.startsArgument t := by
  simp [Parser.startsArgument, h.isAtom, h.isPlainWord, h.isKeyword, h.isDelimiter]

/-- A token at which no text ends is the same in both. -/
theorem inner (h : t.Beside e u) (ht : t.isInner) : u = t.embedded e := by
  rcases h with rfl | ⟨he | hd, -⟩
  · rfl
  · exact absurd he (isInner_content ht)
  · simp [isInner, hd] at ht

end Beside

end Token

/-- What comes after the tokens of a text in the two streams: a fault, and then it does not matter
what the second has; or the end of both; or, in the first, a closing parenthesis before its end. -/
structure Border (e : Embedding) where
  tokens : List Token
  error : Option LexError
  ending : List Token
  rest : List Token
  real : ∀ t ∈ tokens, t.content ≠ .endOfInput
  proper : ending = [] ∧ error.isSome ∨ ∃ stop stop', stop.content = .endOfInput ∧
    stop'.content = .endOfInput ∧ rest = [stop'] ∧
      (ending = [stop] ∨ ∃ mark, mark.isDelimiter ")" ∧ ending = [mark, stop])

namespace Border

variable (c : Border e)

/-- The streams of a text in parentheses and in the longer text: the same tokens are ahead, and
`depth` parentheses are open. The second has fewer than `n` ahead with what comes after them.
`begun` says that something was read from both. -/
structure Near (n depth : Nat) (begun : Bool) (s t : Stream) : Prop where
  error : s.error = c.error
  ahead : ∃ read ts, c.tokens = read ++ ts ∧ Token.nest 0 read = some depth ∧
    s.ahead = ts ++ c.ending ∧ t.ahead = ts.map (·.embedded e) ++ c.rest
  previous : begun → t.previous = s.previous.map (·.embedded e)
  bound : t.ahead.length < n

/-- The first reader has read the closing parenthesis. -/
def Passed (s : Stream) : Prop :=
  ∃ mark stop, c.ending = [mark, stop] ∧ stop.content = .endOfInput ∧ s.ahead = [stop]

/-- The first reader is at the closing parenthesis or has read it. -/
def Lost (s : Stream) : Prop :=
  c.Passed s ∨ ∃ mark stop, c.ending = [mark, stop] ∧ stop.content = .endOfInput ∧
    mark.isDelimiter ")" ∧ s.ahead = [mark, stop]

/-- The streams are near each other, unless the first reader has read the closing parenthesis. -/
def Along (n depth : Nat) (begun : Bool) (s t : Stream) : Prop :=
  c.Near n depth begun s t ∨ c.Passed s

/-- A token that the first reader has next, and one that the second can have: the same one of the
text, or the closing parenthesis and the end, or the ends of both. -/
def Met (s : Stream) (x y : Token) : Prop :=
  y = x.embedded e ∧ (x ∈ c.tokens ∨ c.Passed s) ∨
    y.content = .endOfInput ∧
      (x.isDelimiter ")" ∧ c.Lost s ∨ x.content = .endOfInput ∧ c.ending = [x])

variable {c : Border e} {n m depth d : Nat} {b : Bool} {s t : Stream}

theorem Met.beside {x y : Token} (h : c.Met s x y) : x.Beside e y := by
  rcases h with ⟨same, -⟩ | ⟨he, ⟨hd, -⟩ | ⟨hx, -⟩⟩
  · exact .inl same
  · exact .inr ⟨.inr hd, he⟩
  · exact .inr ⟨.inl hx, he⟩

theorem Along.mono (h : c.Along n depth b s t) (hnm : n ≤ m) : c.Along m depth b s t :=
  h.imp_left fun near => { near with bound := near.bound.trans_le hnm }

/-- Once something was read, it does not matter whether something was before. -/
theorem Along.later (h : c.Along n depth true s t) (b : Bool) : c.Along n depth b s t :=
  h.imp_left fun near => { near with previous := fun _ => near.previous rfl }

/-- With nothing ahead of the second reader, the first has read the closing parenthesis. -/
theorem Along.passed (h : c.Along 0 depth b s t) : c.Passed s :=
  h.resolve_left fun near => absurd near.bound (Nat.not_lt_zero _)

/-- The tokens ahead of the second reader are a bound. -/
theorem Along.rebound (h : c.Along n depth b s t) :
    c.Along (min (t.ahead.length + 1) n) depth b s t :=
  h.imp_left fun near => { near with bound := lt_min (Nat.lt_succ_self _) near.bound }

/-- A token that the first reader sees behind some others, and the one that the second sees. -/
theorem Near.peeked (h : c.Near n depth b s t) {k : Nat}
    (before : ∀ j < k, ∃ x, s.peek j = .ok x ∧ x.isInner) {x : Token} (hx : s.peek k = .ok x) :
    ∃ y, t.peek k = .ok y ∧ x.Beside e y := by
  obtain ⟨read, ts, htokens, -, hs, ht⟩ := h.ahead
  by_cases inside : k < ts.length
  · have hk : s.ahead[k]? = some ts[k] := by
      rw [hs, List.getElem?_append_left inside, List.getElem?_eq_getElem inside]
    have hk' : t.ahead[k]? = some (ts[k].embedded e) := by
      rw [ht, List.getElem?_append_left (by rwa [List.length_map]), List.getElem?_map,
        List.getElem?_eq_getElem inside]
      rfl
    cases hx.symm.trans (Stream.peek_of_ahead hk)
    exact ⟨_, Stream.peek_of_ahead hk', .inl rfl⟩
  · -- everything before it is in the text, so that it comes right after the text
    have last : k = ts.length := by
      refine Nat.le_antisymm (Nat.le_of_not_lt fun beyond => ?_) (Nat.le_of_not_lt inside)
      obtain ⟨y, hy, inner⟩ := before _ beyond
      rcases c.proper with ⟨none, error⟩ | ⟨stop, stop', he, -, -, ending | ⟨mark, hm, ending⟩⟩
      · have inside := Stream.length_of_peek hy (h.error ▸ error)
        exact absurd inside (by simp [hs, none])
      · have hj : s.ahead[ts.length]? = some stop := by simp [hs, ending]
        cases hy.symm.trans (Stream.peek_of_ahead hj)
        exact Token.isInner_content inner he
      · have hj : s.ahead[ts.length]? = some mark := by simp [hs, ending]
        cases hy.symm.trans (Stream.peek_of_ahead hj)
        simp [Token.isInner, hm] at inner
    subst last
    rcases c.proper with ⟨none, error⟩ | ⟨stop, stop', he, he', rest, ending⟩
    · have inside := Stream.length_of_peek hx (h.error ▸ error)
      exact absurd inside (by simp [hs, none])
    · have hk' : t.ahead[ts.length]? = some stop' := by simp [ht, rest]
      refine ⟨stop', Stream.peek_of_ahead hk', .inr ⟨?_, he'⟩⟩
      rcases ending with ending | ⟨mark, hm, ending⟩
      · have hk : s.ahead[ts.length]? = some stop := by simp [hs, ending]
        cases hx.symm.trans (Stream.peek_of_ahead hk)
        exact .inl he
      · have hk : s.ahead[ts.length]? = some mark := by simp [hs, ending]
        cases hx.symm.trans (Stream.peek_of_ahead hk)
        exact .inr hm

theorem Near.next (h : c.Near n depth b s t) {x : Token} (hx : s.Next x) :
    ∃ y, t.Next y ∧ c.Met s x y := by
  obtain ⟨read, ts, htokens, -, hs, ht⟩ := h.ahead
  cases ts with
  | cons u ts =>
    cases hx.symm.trans (Stream.next_of_ahead hs)
    refine ⟨x.embedded e, Stream.next_of_ahead ht, .inl ⟨rfl, .inl ?_⟩⟩
    rw [htokens]
    exact List.mem_append_right _ List.mem_cons_self
  | nil =>
    rw [List.nil_append] at hs
    rcases c.proper with ⟨none, error⟩ | ⟨stop, stop', he, he', rest, ending⟩
    · have some := Stream.length_of_peek hx (h.error ▸ error)
      exact absurd some (by simp [hs, none])
    · rw [rest] at ht
      refine ⟨stop', Stream.next_of_ahead ht, .inr ⟨he', ?_⟩⟩
      rcases ending with ending | ⟨mark, hm, ending⟩
      · cases hx.symm.trans (Stream.next_of_ahead (hs.trans ending))
        exact .inr ⟨he, ending⟩
      · cases hx.symm.trans (Stream.next_of_ahead (hs.trans ending))
        exact .inl ⟨hm, .inr ⟨x, stop, ending, he, hm, by rw [hs, ending]⟩⟩

/-- Where the second reader sees something else than the first, it has only the end of its text
left. -/
theorem Near.last (h : c.Near n depth b s t) {x y : Token} (hx : s.Next x) (hy : t.Next y) :
    y = x.embedded e ∨ c.Near 2 depth b s t ∧ ∀ d b' u v, ¬ c.Near 1 d b' u v := by
  obtain ⟨read, ts, htokens, nested, hs, ht⟩ := h.ahead
  cases ts with
  | cons u ts =>
    cases hx.symm.trans (Stream.next_of_ahead hs)
    cases hy.symm.trans (Stream.next_of_ahead ht)
    exact .inl rfl
  | nil =>
    rcases c.proper with ⟨none, error⟩ | ⟨stop, stop', -, -, rest, -⟩
    · have some := Stream.length_of_peek hx (h.error ▸ error)
      exact absurd some (by simp [hs, none])
    · have one : t.ahead.length < 2 := by simp [ht, rest]
      refine .inr ⟨{ h with bound := one }, fun d b' u v near => ?_⟩
      obtain ⟨-, ts, -, -, -, hv⟩ := near.ahead
      have none := near.bound
      rw [hv, rest, List.length_append] at none
      exact absurd none (by simp)

/-- After the closing parenthesis there is nothing. -/
theorem Passed.next (h : c.Passed s) {x : Token} (hx : s.Next x) : x.content = .endOfInput := by
  obtain ⟨mark, stop, -, he, hs⟩ := h
  cases hx.symm.trans (Stream.next_of_ahead hs)
  exact he

theorem Lost.pop (h : c.Lost s) {x : Token} (hx : s.Next x) (real : x.content ≠ .endOfInput) :
    c.Passed (s.pop x) := by
  rcases h with passed | ⟨mark, stop, ending, he, -, hs⟩
  · exact absurd (passed.next hx) real
  · refine ⟨mark, stop, ending, he, ?_⟩
    rw [Stream.pop, if_neg real]
    simp [hs]

/-- A token is read from both streams, unless it is the closing parenthesis. -/
theorem Near.pop (h : c.Near n depth b s t) {x : Token} (hx : s.Next x)
    (real : x.content ≠ .endOfInput) (turns : x.turn depth = some d) :
    t.Next (x.embedded e) ∧ c.Near (n - 1) d true (s.pop x) (t.pop (x.embedded e)) ∨
      c.Passed (s.pop x) := by
  obtain ⟨xs, hxs⟩ := hx.cons real
  obtain ⟨read, ts, htokens, nested, hs, ht⟩ := h.ahead
  cases ts with
  | nil =>
    refine .inr (Lost.pop (.inr ?_) hx real)
    rw [List.nil_append, hxs] at hs
    rcases c.proper with ⟨none, -⟩ | ⟨stop, stop', he, -, -, ending | ⟨mark, hm, ending⟩⟩
    · cases hs.trans none
    · cases hs.trans ending
      exact absurd he real
    · exact ⟨mark, stop, ending, he, hm, by rw [hxs, hs, ending]⟩
  | cons u ts =>
    rw [hxs] at hs
    cases hs
    have embedded : ¬ (x.embedded e).content = .endOfInput :=
      (Token.content_embedded x).not.mpr real
    refine .inl ⟨Stream.next_of_ahead ht, ?_⟩
    rw [Stream.pop, if_neg real, Stream.pop, if_neg embedded]
    refine ⟨h.error, ⟨read ++ [x], ts, ?_, Token.nest_snoc nested turns, ?_, ?_⟩, fun _ => rfl, ?_⟩
    · rw [htokens, List.append_assoc]
      rfl
    · simp [hxs]
    · simp [ht]
    · have := h.bound
      simp only [List.length_drop]
      simp only [ht, List.length_append, List.map_cons, List.length_cons] at this ⊢
      omega

theorem Along.pop (h : c.Along n depth b s t) {x : Token} (hx : s.Next x)
    (real : x.content ≠ .endOfInput) (turns : x.turn depth = some d) :
    c.Along (n - 1) d true (s.pop x) (t.pop (x.embedded e)) :=
  h.elim (fun near => (near.pop hx real turns).imp_left And.right)
    fun passed => absurd (passed.next hx) real

/-- The token behind the next one comes next when that is read. -/
theorem Along.second (h : c.Along n depth b s t) {x y : Token} (hx : s.Next x)
    (real : x.content ≠ .endOfInput) (hy : s.peek 1 = .ok y) : (s.pop x).Next y := by
  obtain ⟨xs, hxs⟩ := hx.cons real
  have left : (s.pop x).ahead = xs := by
    rw [Stream.pop, if_neg real]
    simp [hxs]
  cases xs with
  | cons z xs =>
    rw [Stream.peek, hxs] at hy
    cases hy
    exact Stream.next_of_ahead left
  | nil =>
    have near := h.resolve_right fun passed => real (passed.next hx)
    obtain ⟨read, ts, -, -, hs, -⟩ := near.ahead
    rw [hxs] at hs
    rcases c.proper with ⟨-, error⟩ | ⟨stop, stop', he, -, -, ending⟩
    · have some := Stream.length_of_peek hy (near.error ▸ error)
      exact absurd some (by simp [hxs])
    · have last := congrArg List.getLast? hs
      rcases ending with ending | ⟨mark, -, ending⟩
      · rw [ending, List.getLast?_append] at last
        cases last
        exact absurd he real
      · rw [ending, List.getLast?_append] at last
        cases last
        exact absurd he real

end Border

namespace Parser

/-! ## Two readers -/

variable {α β γ δ : Type} {p : Parser α} {q : Parser β} {s t : Stream}

/-- If the first reader succeeds then so does the second, with results and streams as `Q` says,
unless the first is lost as `F` says; it is lost if it was, as `E` says, before. Also then there are
a result and a stream as `Q` says, which the second reader need not have. -/
def Trails (E F : Stream → Prop) (p : Parser α) (q : Parser β) (s t : Stream)
    (Q : α → β → Stream → Stream → Prop) : Prop :=
  ∀ a u, p.run s = .ok (a, u) → (E s → F u) ∧ ∃ b v, Q a b u v ∧ (q.run t = .ok (b, v) ∨ F u)

section

variable {E F G : Stream → Prop} {Q : α → β → Stream → Stream → Prop}

theorem Trails.mono {R : α → β → Stream → Stream → Prop} (h : Trails E F p q s t Q)
    (hQ : ∀ a b u v, Q a b u v → R a b u v) : Trails E F p q s t R := fun a u ha =>
  let ⟨stays, b, v, hq, hb⟩ := h a u ha
  ⟨stays, b, v, hQ a b u v hq, hb⟩

theorem Trails.before (h : Trails E F p q s t Q) (hGE : ∀ u, G u → E u) : Trails G F p q s t Q :=
  fun a u ha =>
  let ⟨stays, b, v, hq, hb⟩ := h a u ha
  ⟨stays ∘ hGE s, b, v, hq, hb⟩

/-- What the second reader does is no matter where the first is lost. -/
theorem Trails.lost {q' : Parser β} (h : Trails E F p q' s t Q) (lost : E s) :
    Trails G F p q s t Q := fun a u ha =>
  let ⟨stays, b, v, hq, _⟩ := h a u ha
  ⟨fun _ => stays lost, b, v, hq, .inr (stays lost)⟩

/-- Where the first reader is not lost, it does not matter what it means to be so. -/
theorem Trails.found (h : Trails E F p q s t Q) (found : ¬ G s) : Trails G F p q s t Q :=
  fun a u ha =>
  let ⟨_, b, v, hq, hb⟩ := h a u ha
  ⟨fun lost => absurd lost found, b, v, hq, hb⟩

theorem Trails.pure {a : α} {b : β} (stays : E s → F s) (h : Q a b s t) :
    Trails E F (Pure.pure a) (Pure.pure b) s t Q := by
  rintro _ _ ⟨⟩
  exact ⟨stays, b, t, h, .inl rfl⟩

theorem Trails.throw {x : Stop} : Trails E F (MonadExcept.throw x) q s t Q :=
  fun _ _ h => absurd h error_ne_ok

theorem Trails.bind {f : α → Parser γ} {g : β → Parser δ} {R : γ → δ → Stream → Stream → Prop}
    (h : Trails E F p q s t fun a b u v => Trails F G (f a) (g b) u v R) :
    Trails E G (p >>= f) (q >>= g) s t R := by
  intro d w hd
  rw [StateT.run_bind] at hd
  obtain ⟨⟨a, u⟩, ha, hd⟩ := bind_eq_ok hd
  obtain ⟨stays, b, v, hf, hb⟩ := h a u ha
  obtain ⟨stays', x, y, hr, hx⟩ := hf d w hd
  refine ⟨stays' ∘ stays, x, y, hr, ?_⟩
  rcases hb with hb | lost
  · refine hx.imp_left fun hx => ?_
    rw [StateT.run_bind, hb]
    exact hx
  · exact .inr (stays' lost)

theorem Trails.ite {P : Prop} [Decidable P] {P' : Prop} [Decidable P'] {p' : Parser α}
    {q' : Parser β} (same : P ↔ P') (yes : P → Trails E F p q s t Q)
    (no : ¬ P → Trails E F p' q' s t Q) :
    Trails E F (if P then p else p') (if P' then q else q') s t Q := by
  by_cases h : P
  · rw [if_pos h, if_pos (same.mp h)]
    exact yes h
  · rw [if_neg h, if_neg (same.not.mp h)]
    exact no h

/-- Reading other streams on the way, where the first reader cannot be lost. -/
theorem Trails.nested {E' F' : Stream → Prop} {s' t' : Stream}
    {Q : α × Stream → β × Stream → Stream → Stream → Prop}
    (h : Trails E' F' p q s' t' fun a b u v => Q (a, u) (b, v) s t) (found : ∀ u, ¬ F' u) :
    Trails E E (liftM (p.run s') : Parser (α × Stream)) (liftM (q.run t') : Parser (β × Stream))
      s t Q := by
  have follows : Follows p q s' t' fun a b u v => Q (a, u) (b, v) s t := fun a u ha =>
    let ⟨_, b, v, hq, hb⟩ := h a u ha
    ⟨b, v, hb.resolve_right (found u), hq⟩
  intro r w hr
  obtain ⟨r', v, hr', hq⟩ := follows.nested r w hr
  have left : p.run s' >>= (fun r => Except.ok (r, s)) = .ok (r, w) := hr
  obtain ⟨_, -, hw⟩ := bind_eq_ok left
  cases hw
  exact ⟨id, r', v, hq, .inl hr'⟩

/-- A reader that fails. -/
theorem Trails.unexpected {expected : Expected} :
    Trails E F (unexpected expected) q s t Q := by
  intro a u ha
  exact ((unexpected_wp (Q := fun _ _ => False)).of_ok ha).elim

end

/-! ## Tokens -/

section

variable {c : Border e} {n depth d : Nat} {b : Bool}

/-- A token behind others that end no text. -/
theorem peekAt_trails {k : Nat} {Q : Token → Token → Stream → Stream → Prop}
    (h : c.Along n depth b s t) (before : ∀ j < k, ∃ x, s.peek j = .ok x ∧ x.isInner)
    (hQ : ∀ x y, s.peek k = .ok x → x.Beside e y → Q x y s t) :
    Trails c.Passed c.Passed (peek k) (peek k) s t Q := by
  intro x u hx
  rw [run_peek] at hx
  obtain ⟨x, seen, hx⟩ := bind_eq_ok hx
  cases hx
  refine ⟨id, ?_⟩
  rcases h with near | passed
  · obtain ⟨y, hy, beside⟩ := near.peeked before seen
    refine ⟨y, t, hQ x y seen beside, .inl ?_⟩
    rw [run_peek, hy]
    rfl
  · exact ⟨x.embedded e, t, hQ x _ seen (.inl rfl), .inr passed⟩

/-- The next token, and what it is to the border. -/
theorem meet_trails {Q : Token → Token → Stream → Stream → Prop} (h : c.Along n depth b s t)
    (hQ : ∀ x y, s.Next x → c.Met s x y → Q x y s t) :
    Trails c.Passed c.Passed (peek 0) (peek 0) s t Q := by
  intro x u hx
  rw [run_peek] at hx
  obtain ⟨x, next, hx⟩ := bind_eq_ok hx
  cases hx
  refine ⟨id, ?_⟩
  rcases h with near | passed
  · obtain ⟨y, hy, met⟩ := near.next next
    refine ⟨y, t, hQ x y next met, .inl ?_⟩
    rw [run_peek, hy]
    rfl
  · exact ⟨x.embedded e, t, hQ x _ next (.inl ⟨rfl, .inr passed⟩), .inr passed⟩

/-- The next token, and where the second reader sees something else. -/
theorem last_trails {Q : Token → Token → Stream → Stream → Prop} (h : c.Along n depth b s t)
    (hQ : ∀ x y, s.Next x →
      (y = x.embedded e ∨ c.Near 2 depth b s t ∧ ∀ d b' u v, ¬ c.Near 1 d b' u v) → Q x y s t) :
    Trails c.Passed c.Passed (peek 0) (peek 0) s t Q := by
  intro x u hx
  rw [run_peek] at hx
  obtain ⟨x, next, hx⟩ := bind_eq_ok hx
  cases hx
  refine ⟨id, ?_⟩
  rcases h with near | passed
  · obtain ⟨y, hy, -⟩ := near.next next
    refine ⟨y, t, hQ x y next (near.last next hy), .inl ?_⟩
    rw [run_peek, hy]
    rfl
  · exact ⟨x.embedded e, t, hQ x _ next (.inl rfl), .inr passed⟩

theorem peek_trails {Q : Token → Token → Stream → Stream → Prop} (h : c.Along n depth b s t)
    (hQ : ∀ x y, s.Next x → x.Beside e y → Q x y s t) :
    Trails c.Passed c.Passed (peek 0) (peek 0) s t Q :=
  meet_trails h fun x y hx met => hQ x y hx met.beside

/-- A token that was seen before is read. If the first reader was at the closing parenthesis then
this is what it has read. -/
theorem take_trails {Q : Token → Token → Stream → Stream → Prop} (h : c.Along n depth b s t)
    {x : Token} (hx : s.Next x) (real : x.content ≠ .endOfInput) (turns : x.turn depth = some d)
    (hQ : Q x (x.embedded e) (s.pop x) (t.pop (x.embedded e))) :
    Trails c.Lost c.Passed advance advance s t Q := by
  intro y u hy
  rw [run_advance, hx] at hy
  cases hy
  refine ⟨fun lost => lost.pop hx real, x.embedded e, t.pop (x.embedded e), hQ, ?_⟩
  rcases h with near | passed
  · refine (near.pop hx real turns).imp_left fun ⟨next, _⟩ => ?_
    rw [run_advance, next]
    rfl
  · exact absurd (passed.next hx) real

theorem pop_trails {Q : Token → Token → Stream → Stream → Prop} (h : c.Along n depth b s t)
    {x : Token} (hx : s.Next x) (real : x.content ≠ .endOfInput) (turns : x.turn depth = some d)
    (hQ : Q x (x.embedded e) (s.pop x) (t.pop (x.embedded e))) :
    Trails c.Passed c.Passed advance advance s t Q :=
  (take_trails h hx real turns hQ).before fun _ => .inl

theorem advance_trails {Q : Token → Token → Stream → Stream → Prop} (h : c.Along n depth b s t)
    {x : Token} (hx : s.Next x) (real : x.content ≠ .endOfInput) (turns : x.turn depth = some d)
    (hQ : ∀ u v, c.Along (n - 1) d true u v → Q x (x.embedded e) u v) :
    Trails c.Passed c.Passed advance advance s t Q :=
  pop_trails h hx real turns (hQ _ _ (h.pop hx real turns))

theorem atOperator_trails {o : String} {Q : Bool → Bool → Stream → Stream → Prop}
    (h : c.Along n depth b s t)
    (hQ : ∀ x, s.Next x → Q (x.isOperator o) (x.isOperator o) s t) :
    Trails c.Passed c.Passed (atOperator o) (atOperator o) s t Q :=
  .bind (peek_trails h fun x _ hx beside => .pure id (beside.isOperator o ▸ hQ x hx))

theorem atKeyword_trails {w : String} {Q : Bool → Bool → Stream → Stream → Prop}
    (h : c.Along n depth b s t)
    (hQ : ∀ x, s.Next x → Q (x.isKeyword w) (x.isKeyword w) s t) :
    Trails c.Passed c.Passed (atKeyword w) (atKeyword w) s t Q :=
  .bind (peek_trails h fun x _ hx beside => .pure id (beside.isKeyword w ▸ hQ x hx))

theorem atDelimiter_trails {k : String} (hk : k ≠ ")") {Q : Bool → Bool → Stream → Stream → Prop}
    (h : c.Along n depth b s t)
    (hQ : ∀ x, s.Next x → Q (x.isDelimiter k) (x.isDelimiter k) s t) :
    Trails c.Passed c.Passed (atDelimiter k) (atDelimiter k) s t Q :=
  .bind (peek_trails h fun x _ hx beside => .pure id (beside.isDelimiter hk ▸ hQ x hx))

/-- An operator is no parenthesis. -/
theorem operator_content {x : Token} {o : String} (h : x.isOperator o) :
    x.content = .operator := by
  simp only [Token.isOperator, Bool.and_eq_true, decide_eq_true_eq] at h
  exact h.1

theorem keyword_content {x : Token} {w : String} (h : x.isKeyword w) : x.content = .word := by
  simp only [Token.isKeyword, Bool.and_eq_true, decide_eq_true_eq] at h
  exact h.1.1

theorem operator_trails {o : String} {Q : Token → Token → Stream → Stream → Prop}
    (h : c.Along n depth b s t)
    (hQ : ∀ x u v, c.Along (n - 1) depth true u v → Q x (x.embedded e) u v) :
    Trails c.Passed c.Passed (operator o) (operator o) s t Q := by
  refine .bind (atOperator_trails h fun x hx => ?_)
  split_ifs with ho
  · have turns := Token.turn_of_content (by simp [operator_content ho] : x.content ≠ .delimiter)
    exact advance_trails h hx (Token.isOperator_content ho) (turns depth) (hQ x)
  · exact .unexpected

theorem keyword_trails {w : String} {Q : Token → Token → Stream → Stream → Prop}
    (h : c.Along n depth b s t)
    (hQ : ∀ x u v, c.Along (n - 1) depth true u v → Q x (x.embedded e) u v) :
    Trails c.Passed c.Passed (keyword w) (keyword w) s t Q := by
  refine .bind (atKeyword_trails h fun x hx => ?_)
  split_ifs with hw
  · have turns := Token.turn_of_content (by simp [keyword_content hw] : x.content ≠ .delimiter)
    exact advance_trails h hx (Token.isKeyword_content hw) (turns depth) (hQ x)
  · exact .unexpected

/-- A delimiter other than the closing parenthesis. -/
theorem delimiter_trails {k : String} (hk : k ≠ ")")
    {Q : Token → Token → Stream → Stream → Prop} (h : c.Along n depth b s t)
    (turns : ∀ x : Token, x.isDelimiter k → x.turn depth = some d)
    (hQ : ∀ x u v, c.Along (n - 1) d true u v → Q x (x.embedded e) u v) :
    Trails c.Passed c.Passed (delimiter k) (delimiter k) s t Q := by
  refine .bind (atDelimiter_trails hk h fun x hx => ?_)
  split_ifs with hx'
  · exact advance_trails h hx (Token.isDelimiter_content hx') (turns x hx') (hQ x)
  · exact .unexpected

theorem run_delimiter (k : String) (s : Stream) : (delimiter k).run s = s.peek 0 >>= fun x =>
    if x.isDelimiter k then .ok (x, s.pop x)
    else (unexpected (.lexeme k) : Parser Token).run s := by
  have bind : (delimiter k).run s = (atDelimiter k).run s >>= fun r =>
      (if r.1 then advance else unexpected (.lexeme k) : Parser Token).run r.2 :=
    StateT.run_bind ..
  have at_ : (atDelimiter k).run s = s.peek 0 >>= fun x => .ok (x.isDelimiter k, s) := by
    rw [atDelimiter, StateT.run_bind, run_peek]
    cases s.peek 0 <;> rfl
  rw [bind, at_]
  cases hx : s.peek 0 with
  | error e => rfl
  | ok x =>
    show (if x.isDelimiter k then advance else unexpected (.lexeme k) : Parser Token).run s =
      if x.isDelimiter k then _ else _
    split_ifs
    · rw [run_advance, hx]
      rfl
    · rfl

/-- The closing parenthesis, after which a reader that was at the border is lost. -/
theorem close_trails {Q : Token → Token → Stream → Stream → Prop}
    (h : c.Near n (depth + 1) b s t ∨ c.Lost s)
    (hQ : ∀ x u v, c.Along (n - 1) depth true u v → Q x (x.embedded e) u v) :
    Trails c.Lost c.Passed (delimiter ")") (delimiter ")") s t Q := by
  intro y u hy
  rw [run_delimiter] at hy
  obtain ⟨x, hx, hy⟩ := bind_eq_ok hy
  have hx : s.Next x := hx
  by_cases hd : x.isDelimiter ")"
  · rw [if_pos hd] at hy
    cases hy
    have real := Token.isDelimiter_content hd
    have turns := Token.turn_close hd depth
    refine ⟨fun lost => lost.pop hx real, y.embedded e, t.pop (y.embedded e), ?_⟩
    rcases h with near | lost
    · refine ⟨hQ y _ _ (Border.Along.pop (.inl near) hx real turns), ?_⟩
      refine (near.pop hx real turns).imp_left fun ⟨next, _⟩ => ?_
      have hd' : (y.embedded e).isDelimiter ")" := by rwa [Token.isDelimiter_embedded]
      rw [run_delimiter, next]
      show (if (y.embedded e).isDelimiter ")" then _ else _) = _
      rw [if_pos hd']
    · have passed := lost.pop hx real
      exact ⟨hQ y _ _ (.inr passed), .inr passed⟩
  · rw [if_neg hd] at hy
    exact ((unexpected_wp (Q := fun _ _ => False)).of_ok hy).elim

/-- The span of what was read since a token. -/
theorem spanFrom_trails {start : Token} {Q : Option Span → Option Span → Stream → Stream → Prop}
    (h : c.Along n depth true s t)
    (hQ : ∀ span : Span, Q (some span) (some (span.embedded e)) s t) :
    Trails c.Passed c.Passed (spanFrom start) (spanFrom (start.embedded e)) s t Q := by
  intro span u hs
  cases hs
  refine ⟨id, _, t, hQ _, h.imp_left fun near => ?_⟩
  have previous := near.previous rfl
  cases hp : s.previous with
  | none =>
    rw [hp] at previous
    show Except.ok (some (Span.mk _ (t.previous.getD _).span.stop), t) = _
    rw [previous]
    rfl
  | some x =>
    rw [hp] at previous
    show Except.ok (some (Span.mk _ (t.previous.getD _).span.stop), t) = _
    rw [previous]
    rfl

/-! ## Loops -/

theorem Trails.get {E : Stream → Prop} {Q : Stream → Stream → Stream → Stream → Prop}
    (h : Q s t s t) : Trails E E MonadState.get MonadState.get s t Q := by
  rintro _ _ ⟨⟩
  exact ⟨id, t, t, h, .inl rfl⟩

/-- The bound of the first loop is of no matter; that of the second is large enough, unless the
first reader is lost. -/
theorem iterateUpTo_trails {E : Stream → Prop} {step : α → Parser (Option α)}
    {step' : β → Parser (Option β)} {Q : α → β → Stream → Stream → Prop}
    {R : Nat → α → β → Stream → Stream → Prop} (lost : ∀ a b s t, R 0 a b s t → E s)
    (h : ∀ n a b s t, R n a b s t →
      Trails E E (step a) (step' b) s t (Paired (Q a b) (R (n - 1)))) :
    ∀ {j n : Nat} {a : α} {b : β} {s t : Stream}, R n a b s t →
      Trails E E (iterateUpTo step j a) (iterateUpTo step' n b) s t Q := by
  intro j
  induction j with
  | zero => exact fun _ => .throw
  | succ j ih =>
    intro n a b s t hr a' u ha
    rw [run_iterateUpTo_succ] at ha
    obtain ⟨⟨r, w⟩, hstep, ha⟩ := bind_eq_ok ha
    obtain ⟨stays, r', v, paired, hb⟩ := h n a b s t hr r w hstep
    -- where no round is left for the second reader, the first is lost
    have second {x : β} {y : Stream} (hx : E w → E u) (next : ∀ k, n = k + 1 →
        (step' b).run t = .ok (r', v) → (iterateUpTo step' (k + 1) b).run t = .ok (x, y) ∨ E u) :
        (iterateUpTo step' n b).run t = .ok (x, y) ∨ E u := by
      cases n with
      | zero => exact .inr (hx (stays (lost a b s t hr)))
      | succ k => exact hb.elim (next k rfl) fun gone => .inr (hx gone)
    cases r with
    | none =>
      cases ha
      cases r' with
      | some b' => exact paired.elim
      | none =>
        refine ⟨stays, b, v, paired, second id fun k _ hb => .inl ?_⟩
        rw [run_iterateUpTo_succ, hb]
        rfl
    | some a₁ =>
      cases r' with
      | none => exact paired.elim
      | some b₁ =>
        obtain ⟨stays', b', x, hq, hx⟩ := ih paired a' u ha
        refine ⟨stays' ∘ stays, b', x, hq, second stays' fun k hk hb => ?_⟩
        subst hk
        refine hx.imp_left fun hx => ?_
        rw [run_iterateUpTo_succ, hb]
        exact hx

theorem iterate_trails {E : Stream → Prop} {step : α → Parser (Option α)}
    {step' : β → Parser (Option β)} {Q : α → β → Stream → Stream → Prop}
    {R : Nat → α → β → Stream → Stream → Prop} {a : α} {a' : β}
    (lost : ∀ a b s t, R 0 a b s t → E s)
    (h : ∀ n a b s t, R n a b s t →
      Trails E E (step a) (step' b) s t (Paired (Q a b) (R (n - 1))))
    (hr : R (t.ahead.length + 1) a a' s t) :
    Trails E E (iterate step a) (iterate step' a') s t Q :=
  .bind (.get (iterateUpTo_trails lost h hr))

/-- The loop that collects results, by what becomes of each of them. -/
theorem many_trails {step : Parser (Option α)} {step' : Parser (Option β)} {g : α → β}
    (along : c.Along n depth b s t)
    (h : ∀ m ≤ n, ∀ s t, c.Along m depth b s t → Trails c.Passed c.Passed step step' s t
      (Paired (fun u v => c.Along m depth b u v) fun a a' u v =>
        a' = g a ∧ c.Along (m - 1) depth b u v)) :
    Trails c.Passed c.Passed (many step) (many step') s t fun as bs u v =>
      bs = as.map g ∧ c.Along n depth b u v := by
  refine iterate_trails (R := fun m as bs u v => bs = as.map g ∧ c.Along (min m n) depth b u v)
    (fun as bs u v huv => ?_) (fun m as bs u v ⟨hbs, huv⟩ => ?_) ⟨rfl, along.rebound⟩
  · rw [Nat.zero_min] at huv
    exact huv.2.passed
  · refine .bind ((h _ (Nat.min_le_right m n) u v huv).mono fun r r' u v hr => .pure id ?_)
    cases r with
    | none =>
      cases r' with
      | none => exact ⟨hbs, hr.mono (Nat.min_le_right m n)⟩
      | some b => exact hr.elim
    | some a =>
      cases r' with
      | none => exact hr.elim
      | some b =>
        refine ⟨?_, hr.2.mono (by omega)⟩
        rw [hbs, hr.1, List.map_append]
        rfl

theorem commaSeparated_trails {item : Parser α} {item' : Parser β} {g : α → β}
    (h : ∀ m ≤ n, ∀ b s t, c.Along m depth b s t → Trails c.Passed c.Passed item item' s t
      fun a a' u v => a' = g a ∧ c.Along (m - 1) depth true u v)
    (along : c.Along n depth b s t) :
    Trails c.Passed c.Passed (commaSeparated item) (commaSeparated item') s t fun as bs u v =>
      bs = as.map g ∧ c.Along (n - 1) depth true u v := by
  refine .bind ((h n (Nat.le_refl n) b s t along).mono fun a a' u v ⟨ha, huv⟩ => ?_)
  refine .bind ((many_trails (g := g) huv fun m hm u v huv => ?_).mono fun as bs u v ⟨has, huv⟩ =>
    .pure id ⟨?_, huv⟩)
  · refine .bind (atDelimiter_trails (by decide) huv fun x hx => ?_)
    split_ifs with comma
    · refine .bind (advance_trails huv hx (Token.isDelimiter_content comma)
        (Token.turn_delimiter comma (by decide) depth) fun u v huv => ?_)
      refine .bind ((h _ (by omega) true u v huv).mono fun a a' u v ⟨ha, huv⟩ => .pure id ⟨ha, ?_⟩)
      exact huv.mono (Nat.sub_le _ 1)
    · exact .pure id huv
  · rw [ha, has]
    rfl

/-- Items in parentheses, of which there may be none; `rest` is what follows, from the one that
closes them on. -/
theorem listed_trails {item : Parser α} {item' : Parser β} {g : α → β}
    {rest : List α → Parser γ} {rest' : List β → Parser δ} {Q : γ → δ → Stream → Stream → Prop}
    (h : ∀ m ≤ n, ∀ b s t, c.Along m depth b s t → Trails c.Passed c.Passed item item' s t
      fun a a' u v => a' = g a ∧ c.Along (m - 1) depth true u v)
    (hrest : ∀ as u v, c.Near n depth true u v ∨ c.Lost u →
      Trails c.Lost c.Passed (rest as) (rest' (as.map g)) u v Q)
    (along : c.Along n depth true s t) :
    Trails c.Passed c.Passed
      (do if ← atDelimiter ")" then Pure.pure [] >>= rest else commaSeparated item >>= rest)
      (do if ← atDelimiter ")" then Pure.pure [] >>= rest' else commaSeparated item' >>= rest')
      s t Q := by
  refine .bind (.bind (meet_trails along fun x y hx met => .pure id ?_))
  have none : Trails c.Lost c.Passed (Pure.pure [] >>= rest) (Pure.pure [] >>= rest') s t Q :=
    .bind (.pure id (hrest [] s t (along.imp_right .inl)))
  by_cases closes : x.isDelimiter ")"
  · rw [if_pos closes]
    rcases met with ⟨rfl, -⟩ | ⟨hy, ⟨-, lost⟩ | hx⟩
    · rw [if_pos (by rwa [Token.isDelimiter_embedded])]
      exact none.before fun _ => .inl
    · -- the second reader sees the end of the text, and looks for an item
      exact none.lost lost
    · exact absurd hx.1 (Token.isDelimiter_content closes)
  · have closes' : ¬ y.isDelimiter ")" := by
      rcases met with ⟨rfl, -⟩ | ⟨hy, -⟩
      · rwa [Token.isDelimiter_embedded]
      · exact fun hd => Token.isDelimiter_content hd hy
    rw [if_neg closes, if_neg closes']
    refine .bind ((commaSeparated_trails h along).mono ?_)
    rintro as _ u v ⟨rfl, huv⟩
    refine (hrest as u v ?_).before fun _ => .inl
    exact (huv.mono (Nat.sub_le n 1)).imp_right .inl

/-! ## Types -/

theorem typeWith_trails {type type' : Parser Ty}
    (h : ∀ m ≤ n - 1, ∀ depth b s t, c.Along m depth b s t →
      Trails c.Passed c.Passed type type' s t fun a a' u v =>
        a' = a ∧ c.Along (m - 1) depth true u v)
    (along : c.Along n depth b s t) :
    Trails c.Passed c.Passed (typeWith type) (typeWith type') s t fun a a' u v =>
      a' = a ∧ c.Along (n - 1) depth true u v := by
  refine .bind (peek_trails along fun x y hx beside => ?_)
  by_cases word : x.content = .word
  · have real : x.content ≠ .endOfInput := by simp [word]
    have plain : x.content ≠ .delimiter := by simp [word]
    obtain rfl := beside.inner (Token.isInner_of_content real plain)
    have word' : (x.embedded e).content = .word := congrArg (Token.Content.embedded e) word
    rw [if_neg (not_not.mpr word), if_neg (not_not.mpr word')]
    refine .bind (advance_trails along hx real (Token.turn_of_content plain depth)
      fun u v huv => ?_)
    refine .ite Iff.rfl (fun _ => ?_) fun _ => ?_
    · refine .bind (delimiter_trails (by decide) huv (fun x hx => Token.turn_open (.inl hx) depth)
        fun _ u v huv => ?_)
      refine listed_trails (g := id) (fun m hm => h m (by omega) (depth + 1))
        (fun params u v huv => ?_) huv
      rw [List.map_id]
      refine .bind (close_trails huv fun _ u v huv => ?_)
      refine .bind (operator_trails huv fun _ u v huv => ?_)
      refine .bind (.mono (h _ (by omega) depth true u v huv) fun a a' u v ⟨ha, huv⟩ =>
        .pure id ⟨?_, huv.mono (by omega)⟩)
      rw [ha]
    · dsimp only [Token.embedded]
      cases Ty.ofName? x.lexeme with
      | some ty => exact .pure id ⟨rfl, huv⟩
      | none => exact .throw
  · rw [if_pos word]
    exact .unexpected

/-- The bound on the depth of the second reader is large enough if it bounds the tokens ahead. -/
theorem typeUpTo_trails {j k : Nat} (hk : n ≤ k) (along : c.Along n depth b s t) :
    Trails c.Passed c.Passed (typeUpTo j) (typeUpTo k) s t fun a a' u v =>
      a' = a ∧ c.Along (n - 1) depth true u v := by
  induction j generalizing n k depth b s t with
  | zero => exact .throw
  | succ j ih =>
    have next (k : Nat) (hk : n ≤ k + 1) : Trails c.Passed c.Passed (typeUpTo (j + 1))
        (typeUpTo (k + 1)) s t fun a a' u v => a' = a ∧ c.Along (n - 1) depth true u v :=
      typeWith_trails (fun m hm depth b s t along => ih (by omega) along) along
    cases k with
    | zero =>
      obtain rfl : n = 0 := Nat.le_zero.mp hk
      exact (next 0 (Nat.zero_le 1)).lost along.passed
    | succ k => exact next k hk

theorem type_trails (along : c.Along n depth b s t) :
    Trails c.Passed c.Passed type type s t fun a a' u v =>
      a' = a ∧ c.Along (n - 1) depth true u v := by
  refine .bind (.get ((typeUpTo_trails (Nat.min_le_left _ n) along.rebound).mono ?_))
  exact fun a a' u v ⟨ha, huv⟩ => ⟨ha, huv.mono (by omega)⟩

theorem declaredType_trails (along : c.Along n depth b s t) :
    Trails c.Passed c.Passed declaredType declaredType s t fun a a' u v =>
      a' = a ∧ c.Along n depth b u v := by
  refine .bind (atOperator_trails along fun x hx => ?_)
  split_ifs with colon
  · have turns := Token.turn_of_content (by simp [operator_content colon] : x.content ≠ .delimiter)
    refine .bind (advance_trails along hx (Token.isOperator_content colon) (turns depth)
      fun u v huv => ?_)
    refine .bind ((type_trails huv).mono fun a a' u v ⟨ha, huv⟩ => .pure id ⟨?_, ?_⟩)
    · rw [ha]
    · exact (huv.later b).mono (by omega)
  · exact .pure id ⟨rfl, along⟩

end

end Parser

end Sigil
