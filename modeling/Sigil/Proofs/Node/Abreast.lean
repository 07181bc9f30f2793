import Sigil.Proofs.Node.Mirrored

/-!
# One text, read in two ways

Two streams with the same tokens ahead: the first may be open ended, the second
is not, and the first may have read something before that the second knows
nothing of (`Stream.Abreast`). A reader runs on both alike (`Parser.Agrees`):
it gives the same result and leaves such streams again, or fails for the same
reason, unless the text ran out. Then the first says that more is needed, and
the second takes offence at the end of the text (`Stop.Meets`). There is a rule
for each way of putting readers together and for the pieces that all readers
are made of. The token read last makes a difference only once one was read from
both streams, which is why the relation says whether one was.
-/

namespace Sigil

namespace Stop

/-- Whether reading stopped since the text ended: within a token, or where the grammar does not
allow its end. -/
def isEnd : Stop → Bool
  | lex e => e.fault.isIncomplete
  | parse e => e.found.content = .endOfInput
  | needsMore _ => false
  | exhausted => false

/-- Why two runs stopped, the first of a text that may go on, if `openEnded`, and the second of one
that does not: for one reason, or at the end of the text. -/
def Meets (openEnded : Bool) (e e' : Stop) : Prop :=
  (e' = e ∧ ∀ missing, e ≠ .needsMore missing) ∨
    openEnded = true ∧ (∃ missing, e = .needsMore missing) ∧ e'.isEnd

/-- Without a text that may go on there is one reason. -/
theorem Meets.same {e e' : Stop} (h : e.Meets false e') : e' = e :=
  h.elim (·.1) fun ⟨no, _⟩ => nomatch no

end Stop

/-- Two streams that were `s₀` and `t₀` at first and have the same tokens ahead. The first is open
ended or not, and the second is not. `begun` says that a token was read from both. -/
structure Stream.Abreast (openEnded : Bool) (s₀ t₀ : Stream) (begun : Bool) (s t : Stream) :
    Prop where
  ahead : t.ahead = s.ahead
  error : t.error = s.error
  openEnded : s.openEnded = openEnded
  closed : t.openEnded = false
  /-- The end that is seen beyond the last token is where the token read last ends. -/
  previous : begun = true ∨ s.ahead = [] ∧ s.error = none → t.previous = s.previous
  taken : s₀.Reads begun.toNat s
  counted : t.consumed + s.ahead.length = t₀.consumed + s₀.ahead.length
  together : s.consumed + t₀.consumed = t.consumed + s₀.consumed
  fault : s.error = s₀.error

namespace Stream.Abreast

variable {o b : Bool} {s₀ t₀ s t : Stream}

/-- Two streams that were read from at another place. -/
theorem start (ahead : t.ahead = s.ahead) (error : t.error = s.error)
    (closed : t.openEnded = false) (previous : s.ahead = [] ∧ s.error = none →
      t.previous = s.previous) : Abreast s.openEnded s t false s t where
  ahead := ahead
  error := error
  openEnded := rfl
  closed := closed
  previous := fun h => previous (h.resolve_left nofun)
  taken := .refl s
  counted := rfl
  together := Nat.add_comm ..
  fault := rfl

/-- Once something was read, it does not matter whether something was before. -/
theorem later (h : Abreast o s₀ t₀ true s t) (b : Bool) : Abreast o s₀ t₀ b s t :=
  { h with
    previous := fun _ => h.previous (.inl rfl)
    taken := h.taken.mono (Bool.toNat_le b) }

/-- A stream and itself, where the text does not go on. -/
theorem self (closed : s.openEnded = false) : Abreast false s s false s s :=
  closed ▸ start rfl rfl closed fun _ => rfl

/-- Both streams have the same token at a place, or none at all. -/
theorem peek (h : Abreast o s₀ t₀ b s t) (k : Nat) :
    (∃ x, s.peek k = .ok x ∧ t.peek k = .ok x) ∨
      ∃ e e', s.peek k = .error e ∧ t.peek k = .error e' ∧ e.Meets o e' := by
  cases inside : s.ahead[k]? with
  | some x => exact .inl ⟨x, peek_of_ahead inside, peek_of_ahead (h.ahead ▸ inside)⟩
  | none =>
    have inside' : t.ahead[k]? = none := h.ahead ▸ inside
    rw [Stream.peek, Stream.peek, inside, inside', h.error]
    cases fault : s.error with
    | some e =>
      refine .inr ⟨if e.fault.isIncomplete && o then .needsMore (.token e.fault) else .lex e,
        .lex e, ?_, ?_, ?_⟩
      · rw [h.openEnded]
        dsimp only
        split_ifs <;> rfl
      · rw [h.closed]
        dsimp only
        rw [Bool.and_false]
        rfl
      · split_ifs with more
        · rw [Bool.and_eq_true] at more
          exact .inr ⟨more.2, ⟨_, rfl⟩, more.1⟩
        · exact .inl ⟨rfl, fun _ same => by cases same⟩
    | none =>
      refine .inl ⟨_, rfl, ?_⟩
      rw [h.ahead]
      cases last : s.ahead.getLast? with
      | some x => rfl
      | none => rw [h.previous (.inr ⟨List.getLast?_eq_none_iff.mp last, fault⟩)]

/-- The token that one stream has next is the one that the other has. -/
theorem next (h : Abreast o s₀ t₀ b s t) {x : Token} (hx : s.Next x) : t.Next x := by
  obtain ⟨y, hy, hy'⟩ | ⟨e, -, he, -⟩ := h.peek 0
  · cases hx.symm.trans hy
    exact hy'
  · cases hx.symm.trans he

/-- A token that is no end of the text is read from both. -/
theorem pop (h : Abreast o s₀ t₀ b s t) {x : Token} (hx : s.Next x)
    (real : x.content ≠ .endOfInput) : Abreast o s₀ t₀ true (s.pop x) (t.pop x) := by
  have taken := (h.taken.trans (hx.reads real)).mono (Nat.le_add_left 1 _)
  obtain ⟨xs, hs⟩ := hx.cons real
  have counted := h.counted
  have together := h.together
  simp only [hs, List.length_cons] at counted
  rw [Stream.pop, if_neg real] at taken ⊢
  rw [Stream.pop, if_neg real]
  refine ⟨by rw [h.ahead], h.error, h.openEnded, h.closed, fun _ => rfl, taken, ?_, ?_, h.fault⟩
  · simp only [hs, List.drop_succ_cons, List.drop_zero]
    omega
  · show s.consumed + 1 + t₀.consumed = t.consumed + 1 + s₀.consumed
    omega

/-- Whatever comes next is read from both. -/
theorem popAny (h : Abreast o s₀ t₀ b s t) {x : Token} (hx : s.Next x) :
    Abreast o s₀ t₀ b (s.pop x) (t.pop x) := by
  by_cases spent : x.content = .endOfInput
  · rw [Stream.pop, if_pos spent, Stream.pop, if_pos spent]
    exact { h with previous := fun _ => rfl }
  · exact (h.pop hx spent).later b

end Stream.Abreast

namespace Parser

/-! ## One reader on two streams -/

section

variable {α β : Type} {o b : Bool} {s₀ t₀ s t : Stream} {p : Parser α}

/-- The reader gives the same result on both streams, and leaves such as `Q` says, or it fails on
both for the same reason. -/
def Agrees (openEnded : Bool) (p : Parser α) (s t : Stream) (Q : α → Stream → Stream → Prop) :
    Prop :=
  match p.run s, p.run t with
  | .ok (a, u), .ok (a', v) => a' = a ∧ Q a u v
  | .error e, .error e' => e.Meets openEnded e'
  | _, _ => False

variable {Q : α → Stream → Stream → Prop}

/-- What it says of a run that succeeds. -/
theorem Agrees.ok (h : Agrees o p s t Q) {a : α} {u : Stream} (hp : p.run s = .ok (a, u)) :
    ∃ v, p.run t = .ok (a, v) ∧ Q a u v := by
  unfold Agrees at h
  rw [hp] at h
  split at h
  · rename_i a' u' a'' v heq hv
    cases heq
    exact ⟨v, h.1 ▸ hv, h.2⟩
  · rename_i heq _
    cases heq
  · exact h.elim

/-- What it says of a run that fails. -/
theorem Agrees.error (h : Agrees o p s t Q) {e : Stop} (hp : p.run s = .error e) :
    ∃ e', p.run t = .error e' ∧ e.Meets o e' := by
  unfold Agrees at h
  rw [hp] at h
  split at h
  · rename_i heq _
    cases heq
  · rename_i heq hv
    cases heq
    exact ⟨_, hv, h⟩
  · exact h.elim

theorem Agrees.of_ok {a : α} {u v : Stream} (hu : p.run s = .ok (a, u))
    (hv : p.run t = .ok (a, v)) (h : Q a u v) : Agrees o p s t Q := by
  rw [Agrees, hu, hv]
  exact ⟨rfl, h⟩

theorem Agrees.of_error {e e' : Stop} (hu : p.run s = .error e) (hv : p.run t = .error e')
    (h : e.Meets o e') : Agrees o p s t Q := by
  rw [Agrees, hu, hv]
  exact h

theorem Agrees.mono {R : α → Stream → Stream → Prop} (h : Agrees o p s t Q)
    (hQ : ∀ a u v, Q a u v → R a u v) : Agrees o p s t R := by
  cases hp : p.run s with
  | error e =>
    obtain ⟨e', hv, meets⟩ := h.error hp
    exact .of_error hp hv meets
  | ok r =>
    obtain ⟨v, hv, hq⟩ := h.ok hp
    exact .of_ok hp hv (hQ _ _ _ hq)

theorem Agrees.pure {a : α} (h : Q a s t) : Agrees o (Pure.pure a) s t Q :=
  .of_ok rfl rfl h

theorem Agrees.throw {e : Stop} (h : ∀ missing, e ≠ .needsMore missing) :
    Agrees o (MonadExcept.throw e : Parser α) s t Q :=
  .of_error rfl rfl (.inl ⟨rfl, h⟩)

theorem Agrees.bind {f : α → Parser β} {R : β → Stream → Stream → Prop}
    (h : Agrees o p s t fun a u v => Agrees o (f a) u v R) : Agrees o (p >>= f) s t R := by
  cases hp : p.run s with
  | error e =>
    obtain ⟨e', hv, meets⟩ := h.error hp
    refine .of_error ?_ ?_ meets
    · rw [StateT.run_bind, hp]
      rfl
    · rw [StateT.run_bind, hv]
      rfl
  | ok r =>
    obtain ⟨v, hv, hf⟩ := h.ok hp
    unfold Agrees at hf ⊢
    rw [StateT.run_bind, StateT.run_bind, hp, hv]
    exact hf

theorem Agrees.ite {P : Prop} [Decidable P] {q : Parser α} (yes : P → Agrees o p s t Q)
    (no : ¬ P → Agrees o q s t Q) : Agrees o (if P then p else q) s t Q := by
  split_ifs with h
  · exact yes h
  · exact no h

/-- What is made of the streams themselves has to be the same for both. -/
theorem Agrees.get {f : Stream → Parser α} (same : f t = f s) (h : Agrees o (f s) s t Q) :
    Agrees o (MonadState.get >>= f) s t Q := by
  have run (s : Stream) : (MonadState.get >>= f : Parser α).run s = (f s).run s := rfl
  unfold Agrees at h ⊢
  rwa [run, run, same]

/-- Reading another stream on the way, of which no more can be needed. -/
theorem Agrees.nested {r : Stream}
    (h : ∀ e, p.run r = .error e → ∀ missing, e ≠ .needsMore missing)
    {Q : α × Stream → Stream → Stream → Prop} (hQ : ∀ a, Q a s t) :
    Agrees o (liftM (p.run r) : Parser (α × Stream)) s t Q := by
  cases hp : p.run r with
  | error e => exact .of_error rfl rfl (.inl ⟨rfl, h e hp⟩)
  | ok a => exact .of_ok rfl rfl (hQ a)

/-! ## Tokens -/

theorem peek_agrees {k : Nat} {Q : Token → Stream → Stream → Prop}
    (h : Stream.Abreast o s₀ t₀ b s t) (hQ : ∀ x, s.peek k = .ok x → Q x s t) :
    Agrees o (peek k) s t Q := by
  obtain ⟨x, hx, hy⟩ | ⟨e, e', he, he', meets⟩ := h.peek k
  · refine .of_ok (a := x) (u := s) (v := t) ?_ ?_ (hQ x hx)
    · rw [run_peek, hx]
      rfl
    · rw [run_peek, hy]
      rfl
  · refine .of_error ?_ ?_ meets
    · rw [run_peek, he]
      rfl
    · rw [run_peek, he']
      rfl

/-- Whatever comes next is read. -/
theorem advance_agrees {Q : Token → Stream → Stream → Prop} (h : Stream.Abreast o s₀ t₀ b s t)
    (hQ : ∀ x u v, s.Next x → Stream.Abreast o s₀ t₀ b u v → Q x u v) :
    Agrees o advance s t Q := by
  obtain ⟨x, hx, hy⟩ | ⟨e, e', he, he', meets⟩ := h.peek 0
  · refine .of_ok (a := x) (u := s.pop x) (v := t.pop x) ?_ ?_ (hQ x _ _ hx (h.popAny hx))
    · rw [run_advance, hx]
      rfl
    · rw [run_advance, hy]
      rfl
  · refine .of_error ?_ ?_ meets
    · rw [run_advance, he]
      rfl
    · rw [run_advance, he']
      rfl

/-- A token that was seen before, and is no end of the text, is read. -/
theorem taken_agrees {Q : Token → Stream → Stream → Prop} (h : Stream.Abreast o s₀ t₀ b s t)
    {x : Token} (hx : s.Next x) (real : x.content ≠ .endOfInput)
    (hQ : ∀ u v, Stream.Abreast o s₀ t₀ true u v → Q x u v) : Agrees o advance s t Q := by
  refine .of_ok (a := x) (u := s.pop x) (v := t.pop x) ?_ ?_ (hQ _ _ (h.pop hx real))
  · rw [run_advance, hx]
    rfl
  · rw [run_advance, h.next hx]
    rfl

theorem unexpected_agrees {expected : Expected} {Q : α → Stream → Stream → Prop}
    (h : Stream.Abreast o s₀ t₀ b s t) : Agrees o (unexpected expected) s t Q := by
  refine .bind (peek_agrees h fun x _ => ?_)
  have run (s : Stream) : (do
      if x.content = .endOfInput && (← MonadState.get).openEnded then
        throw (.needsMore (.construct expected))
      else throw (.parse ⟨expected, x⟩) : Parser α).run s = .error
        (if x.content = .endOfInput && s.openEnded then .needsMore (.construct expected)
        else .parse ⟨expected, x⟩) := by
    rw [StateT.run_bind]
    show (if x.content = .endOfInput && s.openEnded then _ else _ : Parser α).run s = _
    split_ifs <;> rfl
  refine .of_error (run s) (run t) ?_
  rw [h.openEnded, h.closed, Bool.and_false, if_neg Bool.false_ne_true]
  split_ifs with ends
  · rw [Bool.and_eq_true] at ends
    exact .inr ⟨ends.2, ⟨_, rfl⟩, ends.1⟩
  · exact .inl ⟨rfl, nofun⟩

theorem atOperator_agrees {d : String} {Q : Bool → Stream → Stream → Prop}
    (h : Stream.Abreast o s₀ t₀ b s t) (hQ : ∀ x, s.Next x → Q (x.isOperator d) s t) :
    Agrees o (atOperator d) s t Q :=
  .bind (peek_agrees h fun x hx => .pure (hQ x hx))

theorem atDelimiter_agrees {d : String} {Q : Bool → Stream → Stream → Prop}
    (h : Stream.Abreast o s₀ t₀ b s t) (hQ : ∀ x, s.Next x → Q (x.isDelimiter d) s t) :
    Agrees o (atDelimiter d) s t Q :=
  .bind (peek_agrees h fun x hx => .pure (hQ x hx))

theorem atKeyword_agrees {w : String} {Q : Bool → Stream → Stream → Prop}
    (h : Stream.Abreast o s₀ t₀ b s t) (hQ : ∀ x, s.Next x → Q (x.isKeyword w) s t) :
    Agrees o (atKeyword w) s t Q :=
  .bind (peek_agrees h fun x hx => .pure (hQ x hx))

theorem operator_agrees {d : String} {Q : Token → Stream → Stream → Prop}
    (h : Stream.Abreast o s₀ t₀ b s t) (hQ : ∀ x u v, Stream.Abreast o s₀ t₀ true u v → Q x u v) :
    Agrees o (operator d) s t Q := by
  refine .bind (atOperator_agrees h fun x hx => ?_)
  split_ifs with found
  · exact taken_agrees h hx (Token.isOperator_content found) (hQ x)
  · exact unexpected_agrees h

theorem delimiter_agrees {d : String} {Q : Token → Stream → Stream → Prop}
    (h : Stream.Abreast o s₀ t₀ b s t) (hQ : ∀ x u v, Stream.Abreast o s₀ t₀ true u v → Q x u v) :
    Agrees o (delimiter d) s t Q := by
  refine .bind (atDelimiter_agrees h fun x hx => ?_)
  split_ifs with found
  · exact taken_agrees h hx (Token.isDelimiter_content found) (hQ x)
  · exact unexpected_agrees h

theorem keyword_agrees {w : String} {Q : Token → Stream → Stream → Prop}
    (h : Stream.Abreast o s₀ t₀ b s t) (hQ : ∀ x u v, Stream.Abreast o s₀ t₀ true u v → Q x u v) :
    Agrees o (keyword w) s t Q := by
  refine .bind (atKeyword_agrees h fun x hx => ?_)
  split_ifs with found
  · exact taken_agrees h hx (Token.isKeyword_content found) (hQ x)
  · exact unexpected_agrees h

/-- The span of what was read since a token. -/
theorem spanFrom_agrees {start : Token} {Q : Option Span → Stream → Stream → Prop}
    (h : Stream.Abreast o s₀ t₀ true s t) (hQ : ∀ span, Q span s t) :
    Agrees o (spanFrom start) s t Q :=
  .get (by rw [h.previous (.inl rfl)]) (.pure (hQ _))

/-! ## Loops -/

theorem iterateUpTo_agrees {step : α → Parser (Option α)} {R : α → Stream → Stream → Prop}
    (h : ∀ a s t, R a s t → Agrees o (step a) s t fun r u v => R (r.getD a) u v) :
    ∀ (bound : Nat) (a : α) (s t : Stream), R a s t → Agrees o (iterateUpTo step bound a) s t R := by
  intro bound
  induction bound with
  | zero => exact fun _ _ _ _ => .throw nofun
  | succ bound ih =>
    intro a s t hr
    refine .bind ((h a s t hr).mono fun r u v hu => ?_)
    cases r with
    | none => exact .pure hu
    | some a => exact ih a u v hu

theorem iterate_agrees {step : α → Parser (Option α)} {a : α} {R : α → Stream → Stream → Prop}
    (abreast : Stream.Abreast o s₀ t₀ b s t)
    (h : ∀ a s t, R a s t → Agrees o (step a) s t fun r u v => R (r.getD a) u v) (hr : R a s t) :
    Agrees o (iterate step a) s t R :=
  .get (by rw [abreast.ahead]) (iterateUpTo_agrees h _ a s t hr)

/-- The loop that collects results. -/
theorem many_agrees {step : Parser (Option α)} (abreast : Stream.Abreast o s₀ t₀ b s t)
    (h : ∀ s t, Stream.Abreast o s₀ t₀ b s t →
      Agrees o step s t fun _ u v => Stream.Abreast o s₀ t₀ b u v) :
    Agrees o (many step) s t fun _ u v => Stream.Abreast o s₀ t₀ b u v :=
  iterate_agrees abreast (fun _ s t hst => .bind ((h s t hst).mono fun _ _ _ huv => .pure huv))
    abreast

/-- The reader can be run on both of two streams: it reads a token from them, and they go on with
the same tokens. -/
def Runs (openEnded : Bool) (s₀ t₀ : Stream) (p : Parser α) : Prop :=
  ∀ b s t, Stream.Abreast openEnded s₀ t₀ b s t →
    Agrees openEnded p s t fun _ u v => Stream.Abreast openEnded s₀ t₀ true u v

theorem Runs.commaSeparated {item : Parser α} (h : Runs o s₀ t₀ item) :
    Runs o s₀ t₀ (commaSeparated item) := by
  intro b s t hst
  refine .bind ((h b s t hst).mono fun _ u v huv => ?_)
  refine .bind ((many_agrees huv fun u v huv => ?_).mono fun _ u v huv => .pure huv)
  refine .bind (atDelimiter_agrees huv fun x hx => ?_)
  split_ifs with comma
  · refine .bind (taken_agrees huv hx (Token.isDelimiter_content comma) fun u v huv => ?_)
    exact .bind ((h true u v huv).mono fun _ _ _ huv => .pure huv)
  · exact .pure huv

/-- Items in parentheses, of which there may be none; `rest` is what follows. -/
theorem listed_agrees {item : Parser α} {rest : List α → Parser β}
    {Q : β → Stream → Stream → Prop} (h : Runs o s₀ t₀ item)
    (hrest : ∀ as u v, Stream.Abreast o s₀ t₀ b u v → Agrees o (rest as) u v Q)
    (hst : Stream.Abreast o s₀ t₀ b s t) :
    Agrees o (do if ← atDelimiter ")" then Pure.pure [] >>= rest else commaSeparated item >>= rest)
      s t Q := by
  refine .bind (atDelimiter_agrees hst fun x _ => ?_)
  split_ifs
  · exact .bind (.pure (hrest [] s t hst))
  · exact .bind ((h.commaSeparated b s t hst).mono fun as u v huv => hrest as u v (huv.later b))

/-! ## Types -/

theorem Runs.typeWith {type : Parser Ty} (h : Runs o s₀ t₀ type) : Runs o s₀ t₀ (typeWith type) := by
  intro b s t hst
  refine .bind (peek_agrees hst fun x hx => ?_)
  refine .ite (fun _ => unexpected_agrees hst) fun word => ?_
  have real : x.content ≠ .endOfInput := by simp [not_not.mp word]
  refine .bind (taken_agrees hst hx real fun u v huv => .ite (fun _ => ?_) fun _ => ?_)
  · refine .bind (delimiter_agrees huv fun _ u v huv => ?_)
    refine listed_agrees h (fun params u v huv => ?_) huv
    refine .bind (delimiter_agrees huv fun _ u v huv => ?_)
    refine .bind (operator_agrees huv fun _ u v huv => ?_)
    exact .bind ((h true u v huv).mono fun _ _ _ huv => .pure huv)
  · cases Ty.ofName? x.lexeme with
    | some ty => exact .pure huv
    | none => exact .throw nofun

theorem runs_typeUpTo (depth : Nat) : Runs o s₀ t₀ (typeUpTo depth) := by
  induction depth with
  | zero => exact fun _ _ _ _ => .throw nofun
  | succ depth ih => exact ih.typeWith

theorem runs_type : Runs o s₀ t₀ type := fun b s t hst =>
  .get (by rw [hst.ahead]) (runs_typeUpTo _ b s t hst)

theorem declaredType_agrees (hst : Stream.Abreast o s₀ t₀ b s t) :
    Agrees o declaredType s t fun _ u v => Stream.Abreast o s₀ t₀ b u v := by
  refine .bind (atOperator_agrees hst fun x hx => ?_)
  split_ifs with colon
  · refine .bind (taken_agrees hst hx (Token.isOperator_content colon) fun u v huv => ?_)
    exact .bind ((runs_type true u v huv).mono fun _ u v huv => .pure (huv.later b))
  · exact .pure hst

end

end Parser

end Sigil
