import Mathlib.Tactic.SplitIfs
import Sigil.Proofs.Node.Stages
import Sigil.Proofs.Token.Proper

/-!
# Rules for reading

How a reader of tokens goes on from a stream (`Parser.WP`): it never gives up,
and what it succeeds with is as a condition says. There is a rule for each way
of putting readers together and for each of the pieces that all readers are
made of. The loops take a step that reads a token whenever it gives a result,
so that the tokens ahead bound their rounds.
-/

namespace Sigil

namespace Stream

/-- Tokens were read from `s`, at least so many, and `t` is left. The end of the text is never
among them. -/
def Reads (least : Nat) (s t : Stream) : Prop :=
  ∃ read, s.ahead = read ++ t.ahead ∧ least ≤ read.length ∧ ∀ u ∈ read, u.content ≠ .endOfInput

theorem Reads.refl (s : Stream) : s.Reads 0 s :=
  ⟨[], rfl, Nat.le_refl _, nofun⟩

theorem Reads.trans {m n : Nat} {s t u : Stream} (h : s.Reads m t) (k : t.Reads n u) :
    s.Reads (m + n) u := by
  obtain ⟨as, ha, hm, hae⟩ := h
  obtain ⟨bs, hb, hn, hbe⟩ := k
  refine ⟨as ++ bs, by rw [ha, hb, List.append_assoc], ?_, fun u hu => ?_⟩
  · rw [List.length_append]
    omega
  · exact (List.mem_append.mp hu).elim (hae u) (hbe u)

theorem Reads.mono {m n : Nat} {s t : Stream} (h : s.Reads n t) (hmn : m ≤ n) : s.Reads m t :=
  let ⟨read, hr, hn, he⟩ := h
  ⟨read, hr, Nat.le_trans hmn hn, he⟩

/-- First some tokens, then perhaps more. -/
theorem Reads.then {s t u : Stream} (h : s.Reads 1 t) (k : t.Reads 0 u) : s.Reads 1 u :=
  h.trans k

/-- First perhaps some tokens, then more. -/
theorem Reads.thenSome {s t u : Stream} (h : s.Reads 0 t) (k : t.Reads 1 u) : s.Reads 1 u :=
  h.trans k

theorem Reads.any {n : Nat} {s t : Stream} (h : s.Reads n t) : s.Reads 0 t :=
  h.mono (Nat.zero_le n)

theorem Reads.length {n : Nat} {s t : Stream} (h : s.Reads n t) :
    t.ahead.length + n ≤ s.ahead.length := by
  obtain ⟨read, hr, hn, _⟩ := h
  rw [hr, List.length_append]
  omega

/-- Tokens that nest at most `k` deep lie ahead. -/
def Within (k : Nat) (s : Stream) : Prop :=
  Token.Within k s.ahead

theorem Reads.within {n k : Nat} {s t : Stream} (h : s.Reads n t) (hs : s.Within k) :
    n ≤ k ∧ t.Within (k - n) := by
  obtain ⟨read, hr, hn, he⟩ := h
  have drop : ∀ (read : List Token) (k : Nat), (∀ u ∈ read, u.content ≠ .endOfInput) →
      Token.Within k (read ++ t.ahead) →
      read.length ≤ k ∧ Token.Within (k - read.length) t.ahead := by
    intro read
    induction read with
    | nil => exact fun k _ h => ⟨Nat.zero_le k, h⟩
    | cons u read ih =>
      intro k he h
      have hu := he u List.mem_cons_self
      cases k with
      | zero => exact absurd h hu
      | succ k =>
        obtain ⟨-, h, -⟩ := h.resolve_left hu
        have := ih k (fun v hv => he v (List.mem_cons_of_mem _ hv)) h
        simp only [List.length_cons, Nat.add_sub_add_right]
        exact ⟨Nat.succ_le_succ this.1, this.2⟩
  obtain ⟨hk, ht⟩ := drop read k he (hr ▸ hs)
  exact ⟨Nat.le_trans hn hk, ht.mono (Nat.sub_le_sub_left hn k)⟩

/-- The token that a reader sees next. -/
def Next (s : Stream) (t : Token) : Prop :=
  s.peek 0 = .ok t

theorem peek_of_ahead {s : Stream} {k : Nat} {t : Token} (h : s.ahead[k]? = some t) :
    s.peek k = .ok t := by
  rw [peek, h]

theorem next_of_ahead {s : Stream} {t : Token} {ts : List Token} (h : s.ahead = t :: ts) :
    s.Next t :=
  peek_of_ahead (by rw [h]; rfl)

/-- With a fault after the tokens ahead, only these can be seen. -/
theorem length_of_peek {s : Stream} {k : Nat} {x : Token} (h : s.peek k = .ok x)
    (error : s.error.isSome) : k < s.ahead.length := by
  by_contra beyond
  obtain ⟨fault, hf⟩ := Option.isSome_iff_exists.mp error
  rw [peek, List.getElem?_eq_none (Nat.le_of_not_lt beyond), hf] at h
  dsimp only at h
  split at h <;> cases h

theorem Next.cons {s : Stream} {t : Token} (h : s.Next t) (ht : t.content ≠ .endOfInput) :
    ∃ ts, s.ahead = t :: ts := by
  unfold Next peek at h
  cases hs : s.ahead with
  | cons u ts =>
    rw [hs] at h
    cases h
    exact ⟨ts, rfl⟩
  | nil =>
    -- there is only the end of the text beyond the tokens
    rw [hs] at h
    dsimp only [List.getElem?_nil] at h
    split at h
    · split at h <;> cases h
    · cases h
      exact absurd rfl ht

/-- What comes behind a token comes next when that is read. -/
theorem next_pop {s : Stream} {x y : Token} (hx : s.Next x) (real : x.content ≠ .endOfInput)
    (hy : s.peek 1 = .ok y) (more : (s.pop x).ahead ≠ []) : (s.pop x).Next y := by
  obtain ⟨ts, ahead⟩ := hx.cons real
  rw [Stream.pop, if_neg real] at more ⊢
  cases ts with
  | nil => simp [ahead] at more
  | cons z ts =>
    cases hy.symm.trans (peek_of_ahead (by rw [ahead]; rfl))
    exact next_of_ahead (by rw [ahead]; rfl)

theorem Next.reads {s : Stream} {t : Token} (h : s.Next t) (ht : t.content ≠ .endOfInput) :
    s.Reads 1 (s.pop t) := by
  obtain ⟨ts, hs⟩ := h.cons ht
  refine ⟨[t], ?_, Nat.le_refl _, by simpa using ht⟩
  rw [pop, if_neg ht]
  simp [hs]

theorem reads_pop {s : Stream} {t : Token} (h : s.Next t) : s.Reads 0 (s.pop t) := by
  by_cases ht : t.content = .endOfInput
  · rw [pop, if_pos ht]
    exact Reads.refl s
  · exact (h.reads ht).any

/-- A token that is next, and what is in it. -/
theorem Next.within {k : Nat} {s : Stream} {t : Token} (h : s.Next t)
    (ht : t.content ≠ .endOfInput) (hs : s.Within k) :
    t.Proper ∧ ∃ j < k, ∀ view span, .substitution view span ∈ t.parts →
      Token.Within j view.tokens.tokens := by
  obtain ⟨ts, ha⟩ := h.cons ht
  rw [Within, ha] at hs
  cases k with
  | zero => exact absurd hs ht
  | succ k =>
    obtain ⟨proper, -, nested⟩ := hs.resolve_left ht
    exact ⟨proper, k, Nat.lt_succ_self k, nested⟩

end Stream

namespace Parser

variable {α β : Type} {s : Stream}

/-- The reader does not give up; if it succeeds, its result and the stream that it leaves are as `Q`
says. -/
def WP (m : Parser α) (s : Stream) (Q : α → Stream → Prop) : Prop :=
  match m.run s with
  | .ok (a, t) => Q a t
  | .error e => e ≠ .exhausted

section

variable {m : Parser α} {Q : α → Stream → Prop}

theorem WP.mono {R : α → Stream → Prop} (h : WP m s Q) (hQ : ∀ a t, Q a t → R a t) :
    WP m s R := by
  unfold WP at h ⊢
  split <;> rename_i e <;> rw [e] at h
  · exact hQ _ _ h
  · exact h

theorem WP.pure {a : α} (h : Q a s) : WP (Pure.pure a) s Q := h

theorem WP.throw {e : Stop} (h : e ≠ .exhausted) : WP (MonadExcept.throw e : Parser α) s Q := h

theorem WP.bind {f : α → Parser β} {R : β → Stream → Prop}
    (h : WP m s fun a t => WP (f a) t R) : WP (m >>= f) s R := by
  unfold WP at h ⊢
  rw [StateT.run_bind]
  cases hm : m.run s with
  | error e => rw [hm] at h; exact h
  | ok r => rw [hm] at h; exact h

theorem WP.get {Q : Stream → Stream → Prop} (h : Q s s) :
    WP (MonadState.get : Parser Stream) s Q := h

end

/-- Reading another stream on the way. -/
theorem WP.nested {m : Parser α} {t : Stream} {Q : α × Stream → Stream → Prop}
    (h : WP m t fun a u => Q (a, u) s) : WP (liftM (m.run t) : Parser (α × Stream)) s Q := by
  unfold WP at h ⊢
  cases hm : m.run t with
  | error e => rw [hm] at h; exact h
  | ok r => rw [hm] at h; exact h

/-! ## Tokens -/

theorem peek_wp {k : Nat} {Q : Token → Stream → Prop} (h : ∀ t, s.peek k = .ok t → Q t s) :
    WP (peek k) s Q := by
  refine WP.bind (WP.get ?_)
  unfold WP
  cases hp : s.peek k with
  | ok t => exact h t hp
  | error e =>
    have : e ≠ .exhausted := by
      unfold Stream.peek at hp
      split at hp
      · cases hp
      · split at hp
        · split at hp <;> cases hp <;> nofun
        · cases hp
    exact this

theorem next_wp {Q : Token → Stream → Prop} (h : ∀ t, s.Next t → Q t s) : WP (peek 0) s Q :=
  peek_wp h

theorem advance_wp {Q : Token → Stream → Prop} (h : ∀ t, s.Next t → Q t (s.pop t)) :
    WP advance s Q :=
  WP.bind (peek_wp fun t ht => h t ht)

theorem unexpected_wp {expected : Expected} {Q : α → Stream → Prop} :
    WP (unexpected expected) s Q := by
  refine WP.bind (peek_wp fun t _ => WP.bind (WP.get ?_))
  split
  · exact WP.throw nofun
  · exact WP.throw nofun

theorem spanFrom_wp {start : Token} {Q : Option Span → Stream → Prop}
    (h : ∀ span, Q span s) : WP (spanFrom start) s Q :=
  WP.bind (WP.get (WP.pure (h _)))

theorem atOperator_wp {o : String} {Q : Bool → Stream → Prop}
    (h : ∀ t, s.Next t → Q (t.isOperator o) s) : WP (atOperator o) s Q :=
  WP.bind (peek_wp fun t ht => WP.pure (h t ht))

theorem atDelimiter_wp {d : String} {Q : Bool → Stream → Prop}
    (h : ∀ t, s.Next t → Q (t.isDelimiter d) s) : WP (atDelimiter d) s Q :=
  WP.bind (peek_wp fun t ht => WP.pure (h t ht))

theorem atKeyword_wp {w : String} {Q : Bool → Stream → Prop}
    (h : ∀ t, s.Next t → Q (t.isKeyword w) s) : WP (atKeyword w) s Q :=
  WP.bind (peek_wp fun t ht => WP.pure (h t ht))

end Parser

namespace Token

theorem isOperator_content {t : Token} {o : String} (h : t.isOperator o) :
    t.content ≠ .endOfInput := by
  simp only [isOperator, Bool.and_eq_true, decide_eq_true_eq] at h
  simp [h.1]

theorem isDelimiter_content {t : Token} {d : String} (h : t.isDelimiter d) :
    t.content ≠ .endOfInput := by
  simp only [isDelimiter, Bool.and_eq_true, decide_eq_true_eq] at h
  simp [h.1]

theorem isKeyword_content {t : Token} {w : String} (h : t.isKeyword w) :
    t.content ≠ .endOfInput := by
  simp only [isKeyword, Bool.and_eq_true, decide_eq_true_eq] at h
  simp [h.1.1]

theorem isPlainWord_content {t : Token} (h : t.isPlainWord) : t.content = .word := by
  simp only [isPlainWord, Bool.and_eq_true, decide_eq_true_eq] at h
  exact h.1

theorem isPlainWord_lexeme {t : Token} (h : t.isPlainWord) (ht : t.Proper) :
    Lexer.isPlainWord t.lexeme := by
  simp only [Proper, isPlainWord_content h] at ht
  simp only [isPlainWord, Bool.and_eq_true, decide_eq_true_eq] at h
  simp [Lexer.isPlainWord, ht, h.2]

end Token

namespace Stream

variable {k : Nat} {s : Stream}

theorem Next.isPlainWord {t : Token} (h : s.Next t) (ht : t.isPlainWord) (hs : s.Within k) :
    Lexer.isPlainWord t.lexeme :=
  Token.isPlainWord_lexeme ht (h.within (by simp [Token.isPlainWord_content ht]) hs).1

theorem Next.isName {t : Token} {name : String} (h : s.Next t) (ht : t.content = .variable name)
    (hs : s.Within k) : Parser.isName name := by
  have proper := (h.within (by simp [ht]) hs).1
  simp only [Token.Proper, ht, Lexer.isReference, Option.all_none, Bool.and_true] at proper
  exact proper

/-- Less deep tokens are left after some were read. -/
theorem Within.later {n : Nat} {t : Stream} (hs : s.Within k) (h : s.Reads n t) : t.Within k :=
  (h.within hs).2.mono (Nat.sub_le k n)

end Stream

namespace Parser

variable {α β : Type} {s : Stream}

theorem operator_wp {o : String} : WP (operator o) s fun _ t => s.Reads 1 t := by
  refine WP.bind (atOperator_wp fun t ht => ?_)
  split_ifs with h
  · refine advance_wp fun u hu => ?_
    cases ht.symm.trans hu
    exact ht.reads (Token.isOperator_content h)
  · exact unexpected_wp

theorem delimiter_wp {d : String} : WP (delimiter d) s fun _ t => s.Reads 1 t := by
  refine WP.bind (atDelimiter_wp fun t ht => ?_)
  split_ifs with h
  · refine advance_wp fun u hu => ?_
    cases ht.symm.trans hu
    exact ht.reads (Token.isDelimiter_content h)
  · exact unexpected_wp

theorem keyword_wp {w : String} : WP (keyword w) s fun _ t => s.Reads 1 t := by
  refine WP.bind (atKeyword_wp fun t ht => ?_)
  split_ifs with h
  · refine advance_wp fun u hu => ?_
    cases ht.symm.trans hu
    exact ht.reads (Token.isKeyword_content h)
  · exact unexpected_wp

/-- Reading a token that was seen before. -/
theorem taken_wp {t : Token} (h : s.Next t) (ht : t.content ≠ .endOfInput) :
    WP advance s fun u r => u = t ∧ s.Reads 1 r :=
  advance_wp fun u hu => by cases h.symm.trans hu; exact ⟨rfl, h.reads ht⟩

/-! ## Loops -/

/-- What a step of a loop does: it ends the loop as `Q` says, or reads a token and goes on as `P`
says. -/
def Stepped (Q : Stream → Prop) (P : α → Stream → Prop) (s : Stream) : Option α → Stream → Prop
  | none, t => Q t
  | some a, t => s.Reads 1 t ∧ P a t

theorem iterateUpTo_wp {step : α → Parser (Option α)} {P Q : α → Stream → Prop}
    (h : ∀ a t, P a t → WP (step a) t (Stepped (Q a) P t)) :
    ∀ (bound : Nat) (a : α) (t : Stream), t.ahead.length < bound → P a t →
      WP (iterateUpTo step bound a) t Q := by
  intro bound
  induction bound with
  | zero => exact fun _ _ hb => absurd hb (Nat.not_lt_zero _)
  | succ bound ih =>
    intro a t hb ha
    refine WP.bind (WP.mono (h a t ha) fun r u hu => ?_)
    cases r with
    | none => exact WP.pure hu
    | some b =>
      have := hu.1.length
      exact ih b u (by omega) hu.2

theorem iterate_wp {step : α → Parser (Option α)} {P Q : α → Stream → Prop} {a : α}
    (h : ∀ a t, P a t → WP (step a) t (Stepped (Q a) P t)) (ha : P a s) :
    WP (iterate step a) s Q :=
  WP.bind (WP.get (iterateUpTo_wp h _ a s (Nat.lt_succ_self _) ha))

/-- The loop that collects results, by what holds of those so far. -/
theorem collect_wp {step : Parser (Option α)} {P Q : List α → Stream → Prop}
    (h : ∀ as t, P as t → WP step t (Stepped (Q as) (fun a => P (as ++ [a])) t)) (hs : P [] s) :
    WP (many step) s Q := by
  refine iterate_wp (fun as t has => ?_) hs
  refine WP.bind (WP.mono (h as t has) fun r u hu => WP.pure ?_)
  cases r with
  | none => exact hu
  | some a => exact hu

theorem forall_mem_snoc {P : α → Prop} {as : List α} {a : α} (has : ∀ b ∈ as, P b) (ha : P a) :
    ∀ b ∈ as ++ [a], P b := by
  intro b hb
  rcases List.mem_append.mp hb with hb | hb
  · exact has b hb
  · exact List.mem_singleton.mp hb ▸ ha

/-- The loop that collects results, by what each of them is. -/
theorem many_wp {step : Parser (Option α)} {P : α → Prop}
    (h : ∀ t, s.Reads 0 t → WP step t (Stepped (t.Reads 0) (fun a _ => P a) t)) :
    WP (many step) s fun as t => s.Reads 0 t ∧ ∀ a ∈ as, P a := by
  refine collect_wp (P := fun as t => s.Reads 0 t ∧ ∀ a ∈ as, P a)
    (fun as t ⟨ht, has⟩ => WP.mono (h t ht) fun r u hu => ?_) ⟨.refl s, nofun⟩
  cases r with
  | none => exact ⟨ht.trans hu, has⟩
  | some a => exact ⟨hu.1, ht.trans hu.1.any, forall_mem_snoc has hu.2⟩

theorem commaSeparated_wp {item : Parser α} {P : α → Prop}
    (h : ∀ t, s.Reads 0 t → WP item t fun a u => t.Reads 1 u ∧ P a) :
    WP (commaSeparated item) s fun as t => s.Reads 1 t ∧ ∀ a ∈ as, P a := by
  refine WP.bind (WP.mono (h s (.refl s)) fun a t ⟨ht, ha⟩ => ?_)
  refine WP.bind (WP.mono (many_wp (P := P) fun u hu => ?_) fun as u ⟨hu, has⟩ => WP.pure ?_)
  · refine WP.bind (atDelimiter_wp fun c hc => ?_)
    split_ifs with hd
    · refine WP.bind (WP.mono (taken_wp hc (Token.isDelimiter_content hd)) fun _ v hv => ?_)
      refine WP.bind (WP.mono (h v (ht.any.trans (hu.trans hv.2.any))) fun b w hw => WP.pure ?_)
      exact ⟨hv.2.then hw.1.any, hw.2⟩
    · exact WP.pure (Stream.Reads.refl u)
  · exact ⟨ht.then hu, List.forall_mem_cons.mpr ⟨ha, has⟩⟩

/-- Items in parentheses, of which there may be none; `rest` is what follows. -/
theorem listed_wp {item : Parser α} {P : α → Prop} {rest : List α → Parser β}
    {Q : β → Stream → Prop} (h : ∀ t, s.Reads 0 t → WP item t fun a u => t.Reads 1 u ∧ P a)
    (hrest : ∀ as t, s.Reads 0 t → (∀ a ∈ as, P a) → WP (rest as) t Q) :
    WP (do if ← atDelimiter ")" then Pure.pure [] >>= rest else commaSeparated item >>= rest)
      s Q := by
  refine WP.bind (atDelimiter_wp fun c _ => ?_)
  split_ifs
  · exact WP.bind (WP.pure (hrest [] s (.refl s) nofun))
  · exact WP.bind (WP.mono (commaSeparated_wp h) fun as t h => hrest as t h.1.any h.2)

/-! ## Commands -/

/-- Without a prefix the name of a command is the word seen at first. -/
theorem isPlainWord_name {t : Stream} {start name : Token} {env : List EnvBinding}
    (hstart : s.Next start) (word : start.isPlainWord) (first : env = [] → t = s)
    (hname : t.Next name) (called : env.isEmpty || name.isPlainWord) : name.isPlainWord := by
  rw [Bool.or_eq_true, List.isEmpty_iff] at called
  rcases called with none | plain
  · cases hstart.symm.trans (first none ▸ hname)
    exact word
  · exact plain

end Parser

end Sigil
