import Sigil.Proofs.Node.Legible
import Sigil.Proofs.Node.Reading

/-!
# Rules for reading what was written

How a reader of tokens succeeds (`Parser.Gives`) on a stream that says given
chunks (`Stream.Says`). What the grammar looks at in the next token follows
from the chunk that comes next (`nextToken`), so that each test of the grammar
is decided by the chunks. `Parser.Reads` is the statement that is made of every
piece of the grammar: whatever follows, as long as it is something that the
piece stops at, the piece reads its own chunks and leaves the rest.
-/

namespace Sigil

namespace Token

/-- A token with nothing but what the grammar looks at. -/
def plain (t : Token) : Token :=
  match t.content with
  | .word | .operator | .delimiter => ⟨t.content, t.lexeme, .point .start⟩
  | .string _ => ⟨.string [], "", .point .start⟩
  | c => ⟨c, "", .point .start⟩

/-- A test that the grammar makes of a token. -/
def Test (test : Token → Bool) : Prop :=
  ∀ t : Token, test t.plain = test t

section

variable {s : String} (t : Token)

theorem isDelimiter_plain : t.plain.isDelimiter s = t.isDelimiter s := by
  obtain ⟨content, _, _⟩ := t
  cases content <;> rfl

theorem isOperator_plain : t.plain.isOperator s = t.isOperator s := by
  obtain ⟨content, _, _⟩ := t
  cases content <;> rfl

theorem isKeyword_plain : t.plain.isKeyword s = t.isKeyword s := by
  obtain ⟨content, _, _⟩ := t
  cases content <;> rfl

theorem isPlainWord_plain : t.plain.isPlainWord = t.isPlainWord := by
  obtain ⟨content, _, _⟩ := t
  cases content <;> rfl

theorem isAtom_plain : Parser.isAtom t.plain = Parser.isAtom t := by
  obtain ⟨content, _, _⟩ := t
  cases content <;> rfl

theorem startsExpression_plain : Parser.startsExpression t.plain = Parser.startsExpression t := by
  simp only [Parser.startsExpression, isAtom_plain, isPlainWord_plain, List.any_cons, List.any_nil,
    isKeyword_plain, isDelimiter_plain, isOperator_plain]

theorem startsArgument_plain : Parser.startsArgument t.plain = Parser.startsArgument t := by
  simp only [Parser.startsArgument, isAtom_plain, isPlainWord_plain, List.any_cons, List.any_nil,
    isKeyword_plain, isDelimiter_plain]

theorem isEnd_plain : decide (t.plain.content = .endOfInput) = decide (t.content = .endOfInput) := by
  obtain ⟨content, _, _⟩ := t
  cases content <;> rfl

end

end Token

/-- What the grammar looks at in a token that says what was written. -/
def Mark.token : Mark → Token
  | word s => ⟨.word, s, .point .start⟩
  | «variable» name => ⟨.variable name, "", .point .start⟩
  | defaulted name default => ⟨.defaulted name default, "", .point .start⟩
  | integer n => ⟨.integer n, "", .point .start⟩
  | float x => ⟨.float x, "", .point .start⟩
  | string _ => ⟨.string [], "", .point .start⟩
  | operator s => ⟨.operator, s, .point .start⟩
  | delimiter s => ⟨.delimiter, s, .point .start⟩

theorem Mark.content_token (m : Mark) : m.token.content ≠ .endOfInput := by
  cases m <;> nofun

/-- What the grammar looks at in the next token. -/
def nextToken : List Chunk → Token
  | [] => .atEnd .start
  | p :: _ => p.mark.token

attribute [local simp] Mark.token nextToken

theorem Token.Says.plain {t : Token} {m : Mark} (h : t.Says m) : t.plain = m.token := by
  obtain ⟨content, lexeme, span⟩ := t
  cases m with
  | word | operator | delimiter =>
    obtain ⟨rfl, rfl⟩ : content = _ ∧ lexeme = _ := h
    rfl
  | string =>
    obtain ⟨parts, hc, -⟩ := h
    cases hc
    rfl
  | _ => cases h; rfl

theorem Token.Says.content {t : Token} {m : Mark} (h : t.Says m) : t.content ≠ .endOfInput := by
  intro hc
  have look := congrArg Token.content h.plain
  simp only [Token.plain, hc] at look
  exact m.content_token look.symm

namespace Stream

/-- The tokens ahead say what was written, and there is no fault after them. -/
def Says (s : Stream) (ps : List Chunk) : Prop :=
  s.error = none ∧ Token.Say s.ahead ps

namespace Says

variable {s : Stream} {p : Chunk} {ps : List Chunk}

theorem say_length : ∀ {ts : List Token} {ps : List Chunk}, Token.Say ts ps →
    ts.length = ps.length + 1
  | [_], [], _ => rfl
  | _ :: u :: ts, _ :: ps, h => by
    have rest : (u :: ts).length = ps.length + 1 := say_length h.2.2
    rw [List.length_cons, rest, List.length_cons]
  | [], _, h => by cases h
  | _ :: _ :: _, [], h => by cases h

theorem length (h : s.Says ps) : s.ahead.length = ps.length + 1 :=
  say_length h.2

/-- The next token looks as it was written. -/
theorem next (h : s.Says ps) : ∃ t, s.Next t ∧ t.plain = nextToken ps := by
  obtain ⟨ahead, error, openEnded, previous, consumed⟩ := s
  obtain ⟨rfl, h⟩ : error = none ∧ Token.Say ahead ps := h
  match ahead, ps, h with
  | [t], [], h =>
    refine ⟨t, rfl, ?_⟩
    obtain ⟨content, _, _⟩ := t
    obtain rfl : content = .endOfInput := h
    rfl
  | t :: u :: ts, p :: ps, h => exact ⟨t, rfl, h.1.plain⟩

/-- The next token says what was written; after it comes the rest, right away or after a space. -/
theorem cons (h : s.Says (p :: ps)) :
    ∃ t, s.Next t ∧ t.Says p.mark ∧ (s.pop t).Says ps ∧
      ∃ u, s.peek 1 = .ok u ∧ (s.pop t).Next u ∧ u.plain = nextToken ps ∧
        ∀ q ∈ ps.head?, Parser.adjacent t u = !q.spaced := by
  obtain ⟨ahead, error, openEnded, previous, consumed⟩ := s
  obtain ⟨rfl, h⟩ : error = none ∧ Token.Say ahead (p :: ps) := h
  match ahead, h with
  | t :: u :: ts, ⟨said, adjacent, rest⟩ =>
    have popped : (Stream.mk (t :: u :: ts) none openEnded previous consumed).pop t =
        ⟨u :: ts, none, openEnded, some t, consumed + 1⟩ := if_neg said.content
    have after : (Stream.mk (u :: ts) none openEnded (some t) (consumed + 1)).Says ps := ⟨rfl, rest⟩
    refine ⟨t, rfl, said, popped ▸ after, u, rfl, popped ▸ rfl, ?_, adjacent⟩
    obtain ⟨v, hv, look⟩ := after.next
    cases hv
    exact look

/-- Beyond the next token. -/
theorem peek_pop (h : s.Says (p :: ps)) {t : Token} (ht : s.Next t) (k : Nat) :
    (s.pop t).peek k = s.peek (k + 1) := by
  obtain ⟨ahead, error, openEnded, previous, consumed⟩ := s
  obtain ⟨rfl, h⟩ : error = none ∧ Token.Say ahead (p :: ps) := h
  match ahead, h with
  | u :: v :: ts, ⟨said, _, _⟩ =>
    cases ht
    have popped : (Stream.mk (t :: v :: ts) none openEnded previous consumed).pop t =
        ⟨v :: ts, none, openEnded, some t, consumed + 1⟩ := if_neg said.content
    rw [popped]
    simp only [peek, List.getElem?_cons_succ, List.getLast?_cons_cons]
    cases hk : (v :: ts)[k]? with
    | some => rfl
    | none => simp [List.getLast?_cons]

end Says

end Stream

namespace Parser

variable {α β γ : Type} {s : Stream} {p : Chunk} {ps : List Chunk}

/-- The reader succeeds, and its result and the stream that it leaves are as `Q` says. -/
def Gives (m : Parser α) (s : Stream) (Q : α → Stream → Prop) : Prop :=
  ∃ a t, m.run s = .ok (a, t) ∧ Q a t

section

variable {m : Parser α} {Q : α → Stream → Prop}

theorem Gives.mono {R : α → Stream → Prop} (h : Gives m s Q) (hQ : ∀ a t, Q a t → R a t) :
    Gives m s R :=
  let ⟨a, t, hm, h⟩ := h
  ⟨a, t, hm, hQ a t h⟩

theorem Gives.pure {a : α} (h : Q a s) : Gives (Pure.pure a) s Q :=
  ⟨a, s, rfl, h⟩

theorem Gives.bind {f : α → Parser β} {R : β → Stream → Prop}
    (h : Gives m s fun a t => Gives (f a) t R) : Gives (m >>= f) s R := by
  obtain ⟨a, t, hm, b, u, hf, h⟩ := h
  refine ⟨b, u, ?_, h⟩
  rw [StateT.run_bind, hm]
  exact hf

theorem Gives.get {Q : Stream → Stream → Prop} (h : Q s s) :
    Gives (MonadState.get : Parser Stream) s Q :=
  ⟨s, s, rfl, h⟩

end

/-- Reading another stream on the way. -/
theorem Gives.nested {m : Parser α} {t : Stream} {Q : α × Stream → Stream → Prop}
    (h : Gives m t fun a u => Q (a, u) s) : Gives (liftM (m.run t) : Parser (α × Stream)) s Q := by
  obtain ⟨a, u, hm, h⟩ := h
  refine ⟨(a, u), s, ?_, h⟩
  rw [hm]
  rfl

/-! ## Tokens -/

theorem gives_peek {k : Nat} {t : Token} {Q : Token → Stream → Prop} (ht : s.peek k = .ok t)
    (h : Q t s) : Gives (peek k) s Q := by
  refine ⟨t, s, ?_, h⟩
  exact congrArg (fun r => r >>= fun t => Except.ok (t, s)) ht

/-- Looking at the next token. -/
theorem gives_next {Q : Token → Stream → Prop} (hs : s.Says ps)
    (h : ∀ t, s.Next t → t.plain = nextToken ps → Q t s) : Gives (peek 0) s Q := by
  obtain ⟨t, ht, look⟩ := hs.next
  exact gives_peek ht (h t ht look)

/-- Looking at the next token for what a test says of it. -/
theorem gives_tested {test : Token → Bool} {Q : Token → Stream → Prop} (ht : Token.Test test)
    (hs : s.Says ps) (h : ∀ t, test t = test (nextToken ps) → Q t s) : Gives (peek 0) s Q :=
  gives_next hs fun t _ look => h t (look ▸ (ht t).symm)

theorem gives_first {Q : Token → Stream → Prop} (hs : s.Says (p :: ps))
    (h : ∀ t, t.Says p.mark → Q t s) : Gives (peek 0) s Q := by
  obtain ⟨t, ht, said, -⟩ := hs.cons
  exact gives_peek ht (h t said)

/-- Reading the next token. -/
theorem gives_advance (hs : s.Says (p :: ps)) :
    Gives advance s fun t u => t.Says p.mark ∧ u.Says ps ∧
      ∀ v, u.Next v → ∀ q ∈ ps.head?, adjacent t v = !q.spaced := by
  obtain ⟨t, ht, said, rest, u, -, hu, -, beside⟩ := hs.cons
  refine Gives.bind (gives_peek ht ⟨t, s.pop t, rfl, said, rest, fun v hv => ?_⟩)
  cases hu.symm.trans hv
  exact beside

theorem gives_test {test : Token → Bool} (ht : Token.Test test) (hs : s.Says ps) :
    Gives (do return test (← peek 0)) s fun b t => b = test (nextToken ps) ∧ t = s :=
  Gives.bind (gives_tested ht hs fun _ h => Gives.pure ⟨h, rfl⟩)

theorem gives_atDelimiter {d : String} (hs : s.Says ps) :
    Gives (atDelimiter d) s fun b t => b = (nextToken ps).isDelimiter d ∧ t = s :=
  gives_test Token.isDelimiter_plain hs

theorem gives_atOperator {o : String} (hs : s.Says ps) :
    Gives (atOperator o) s fun b t => b = (nextToken ps).isOperator o ∧ t = s :=
  gives_test Token.isOperator_plain hs

theorem gives_atKeyword {w : String} (hs : s.Says ps) :
    Gives (atKeyword w) s fun b t => b = (nextToken ps).isKeyword w ∧ t = s :=
  gives_test Token.isKeyword_plain hs

/-- Going on after a test. -/
theorem Gives.tested {m : Parser Bool} {f : Bool → Parser α} {b : Bool} {Q : α → Stream → Prop}
    (hm : Gives m s fun c t => c = b ∧ t = s) (h : Gives (f b) s Q) : Gives (m >>= f) s Q := by
  refine Gives.bind (hm.mono fun c t ⟨hc, ht⟩ => ?_)
  rw [hc, ht]
  exact h

/-- Going on where a test succeeds. -/
theorem Gives.yes {m : Parser Bool} {f g : Parser α} {b : Bool} {Q : α → Stream → Prop}
    (hm : Gives m s fun c t => c = b ∧ t = s) (hb : b = true) (h : Gives f s Q) :
    Gives (m >>= fun c => if c then f else g) s Q := by
  refine Gives.tested hm ?_
  rw [if_pos hb]
  exact h

/-- Going on where the first of two tests succeeds. -/
theorem Gives.yesFirst {m k : Parser Bool} {f : Parser α} {g : Bool → Parser α} {b c : Bool}
    {Q : α → Stream → Prop} (hm : Gives m s fun c t => c = b ∧ t = s)
    (hk : Gives k s fun d t => d = c ∧ t = s) (hb : b = true) (h : Gives f s Q) :
    Gives (m >>= fun a => k >>= fun d => if a then f else g d) s Q := by
  refine Gives.tested hm (Gives.tested hk ?_)
  rw [if_pos hb]
  exact h

/-- Going on where a test fails. -/
theorem Gives.no {m : Parser Bool} {f g : Parser α} {b : Bool} {Q : α → Stream → Prop}
    (hm : Gives m s fun c t => c = b ∧ t = s) (hb : b = false) (h : Gives g s Q) :
    Gives (m >>= fun c => if c then f else g) s Q := by
  refine Gives.tested hm ?_
  rw [if_neg (Bool.eq_false_iff.mp hb)]
  exact h

theorem gives_delimiter {d : String} {spaced : Bool} (hs : s.Says (⟨spaced, .delimiter d⟩ :: ps)) :
    Gives (delimiter d) s fun _ t => t.Says ps :=
  Gives.yes (gives_atDelimiter hs) (by simp [Token.isDelimiter])
    ((gives_advance hs).mono fun _ _ h => h.2.1)

theorem gives_operator {o : String} {spaced : Bool} (hs : s.Says (⟨spaced, .operator o⟩ :: ps)) :
    Gives (operator o) s fun _ t => t.Says ps :=
  Gives.yes (gives_atOperator hs) (by simp [Token.isOperator])
    ((gives_advance hs).mono fun _ _ h => h.2.1)

theorem gives_keyword {w : String} {spaced : Bool} (hw : w ∈ Token.keywords)
    (hs : s.Says (⟨spaced, .word w⟩ :: ps)) : Gives (keyword w) s fun _ t => t.Says ps :=
  Gives.yes (gives_atKeyword hs) (by simp [Token.isKeyword, hw])
    ((gives_advance hs).mono fun _ _ h => h.2.1)

theorem gives_spanFrom {start : Token} {Q : Option Span → Stream → Prop}
    (h : ∀ span, Q span s) : Gives (spanFrom start) s Q :=
  Gives.bind (Gives.get (Gives.pure (h _)))

/-! ## Loops -/

/-- A loop that goes on from here ends as `Q` says. -/
def Rounds (step : α → Parser (Option α)) (Q : α → Stream → Prop) (a : α) (s : Stream) : Prop :=
  ∀ bound, s.ahead.length < bound → Gives (iterateUpTo step bound a) s Q

section

variable {step : α → Parser (Option α)} {Q : α → Stream → Prop} {a : α}

theorem Rounds.done (h : Gives (step a) s fun r t => r = none ∧ Q a t) : Rounds step Q a s := by
  intro bound hb
  cases bound with
  | zero => exact absurd hb (Nat.not_lt_zero _)
  | succ bound =>
    refine Gives.bind (h.mono fun r t ⟨hr, h⟩ => ?_)
    subst hr
    exact Gives.pure h

theorem Rounds.more (h : Gives (step a) s fun r t =>
    ∃ b, r = some b ∧ t.ahead.length < s.ahead.length ∧ Rounds step Q b t) :
    Rounds step Q a s := by
  intro bound hb
  cases bound with
  | zero => exact absurd hb (Nat.not_lt_zero _)
  | succ bound =>
    refine Gives.bind (h.mono fun r t ⟨b, hr, shorter, h⟩ => ?_)
    subst hr
    exact h bound (by omega)

theorem gives_iterate (h : Rounds step Q a s) : Gives (iterate step a) s Q :=
  Gives.bind (Gives.get (h _ (Nat.lt_succ_self _)))

end

/-- The loop that collects results, by what is still to come. Each result is known by its key. -/
theorem gives_many {step : Parser (Option α)} {k : α → γ} {P : List γ → Stream → Prop}
    {Q : Stream → Prop} (done : ∀ t, P [] t → Gives step t fun r u => r = none ∧ Q u)
    (more : ∀ c cs t, P (c :: cs) t → Gives step t fun r u =>
      ∃ a, r = some a ∧ k a = c ∧ u.ahead.length < t.ahead.length ∧ P cs u)
    {cs : List γ} (hs : P cs s) : Gives (many step) s fun as t => as.map k = cs ∧ Q t := by
  have rounds (cs : List γ) : ∀ (as : List α) (t : Stream), P cs t →
      Rounds (fun as => do return (← step).map fun a => as ++ [a])
        (fun bs u => bs.map k = as.map k ++ cs ∧ Q u) as t := by
    induction cs with
    | nil =>
      refine fun as t ht => Rounds.done (Gives.bind ((done t ht).mono fun r u ⟨hr, hu⟩ => ?_))
      subst hr
      exact Gives.pure ⟨rfl, (List.append_nil _).symm, hu⟩
    | cons c cs ih =>
      refine fun as t ht => Rounds.more (Gives.bind ((more c cs t ht).mono
        fun r u ⟨a, hr, ha, shorter, hu⟩ => ?_))
      subst hr ha
      refine Gives.pure ⟨as ++ [a], rfl, shorter, fun bound hb => ?_⟩
      refine (ih (as ++ [a]) u hu bound hb).mono fun bs v ⟨hbs, hv⟩ => ⟨?_, hv⟩
      rw [hbs, List.map_append, List.append_assoc]
      rfl
  exact gives_iterate ((rounds cs [] s hs))

/-! ## Pieces of the grammar -/

/-- Whether an expression has to end before a token. -/
def stops (t : Token) : Bool :=
  t.content = .endOfInput || [")", ";", "\x7d", ","].any t.isDelimiter

/-- Whether an operand has to end before a token that is no operator. -/
def stopsOperand (t : Token) : Bool :=
  stops t || ["then", "else"].any t.isKeyword

theorem stopsOperand_of_stops {t : Token} (h : stops t) : stopsOperand t := by
  rw [stopsOperand, h, Bool.true_or]

theorem not_isOperator_of_stopsOperand {t : Token} (h : stopsOperand t) (o : String) :
    t.isOperator o = false := by
  obtain ⟨content, lexeme, span⟩ := t
  cases content <;> first | rfl | cases h

theorem stopsOperand_iff {d : String} {span : Span} :
    stopsOperand ⟨.delimiter, d, span⟩ ↔ d ∈ [")", ";", "\x7d", ","] := by
  simp [stopsOperand, stops, Token.isDelimiter, Token.isKeyword]

theorem not_isOpen_of_stopsOperand {t : Token} (h : stopsOperand t) :
    t.isDelimiter "(" = false := by
  obtain ⟨content, lexeme, span⟩ := t
  cases content <;> try rfl
  case delimiter =>
    have := stopsOperand_iff.mp h
    simp only [List.mem_cons, List.not_mem_nil, or_false] at this
    rcases this with rfl | rfl | rfl | rfl <;> rfl

/-- The reader reads these tokens before whatever it stops at, and leaves what follows. The result
is known by its key. -/
def Reads (parser : Parser α) (key : α → γ) (c : γ) (f : Chunks) (stop : Token → Bool) : Prop :=
  ∀ spaced rest s, stop (nextToken rest) → s.Says (f spaced ++ rest) →
    Gives parser s fun a t => key a = c ∧ t.Says rest

theorem Reads.mono {parser : Parser α} {key : α → γ} {c : γ} {f : Chunks}
    {stop stop' : Token → Bool} (h : Reads parser key c f stop) (hstop : ∀ t, stop' t → stop t) :
    Reads parser key c f stop' :=
  fun spaced rest s hr hs => h spaced rest s (hstop _ hr) hs

end Parser

/-- The first token that was written passes a test; if a space was asked for, it comes first. -/
def Chunks.Starts (f : Chunks) (test : Token → Bool) : Prop :=
  ∀ spaced, ∃ m ms, f spaced = ⟨spaced, m⟩ :: ms ∧ test m.token

namespace Chunks.Starts

variable {f : Chunks} {test : Token → Bool}

theorem next (h : f.Starts test) (spaced : Bool) (ps : List Chunk) :
    test (nextToken (f spaced ++ ps)) := by
  obtain ⟨m, ms, hf, hm⟩ := h spaced
  rw [hf]
  exact hm

theorem mono {test' : Token → Bool} (h : f.Starts test) (ht : ∀ t, test t → test' t) :
    f.Starts test' :=
  fun spaced => let ⟨m, ms, hf, hm⟩ := h spaced; ⟨m, ms, hf, ht _ hm⟩

end Chunks.Starts

namespace Parser

variable {α β γ : Type} {s : Stream} {item : Parser α} {key : α → γ} {cs : List γ}
  {fs : List Chunks} {spaced : Bool} {ps : List Chunk}

open Chunks

theorem gives_commaSeparated {c : γ} {f : Chunks} (hf : Reads item key c f stops)
    (h : List.Forall₂ (fun c f => Reads item key c f stops) cs fs)
    (hs : s.Says (commas (f :: fs) ++ ⟨spaced, .delimiter ")"⟩ :: ps)) :
    Gives (commaSeparated item) s fun as t =>
      as.map key = c :: cs ∧ t.Says (⟨spaced, .delimiter ")"⟩ :: ps) := by
  let more (fs : List Chunks) : List Chunk :=
    fs.flatMap (fun g => ⟨false, .delimiter ","⟩ :: g true) ++ ⟨spaced, .delimiter ")"⟩ :: ps
  have stop (fs : List Chunks) : stops (nextToken (more fs)) := by
    cases fs <;> rfl
  rw [commas, List.append_assoc] at hs
  refine Gives.bind ((hf _ (more fs) s (stop fs) hs).mono fun a t first => ?_)
  obtain ⟨ha, ht⟩ := first
  refine Gives.bind (Gives.mono (gives_many (k := key) (Q := fun t => t.Says (more []))
    (P := fun cs t =>
      ∃ fs, List.Forall₂ (fun c f => Reads item key c f stops) cs fs ∧ t.Says (more fs))
    (fun u hu => ?_) (fun c cs u hu => ?_) ⟨fs, h, ht⟩) fun as u hu => Gives.pure ?_)
  · obtain ⟨_, h, hu⟩ := hu
    cases h
    exact Gives.no (gives_atDelimiter hu) rfl (Gives.pure ⟨rfl, hu⟩)
  · obtain ⟨_, h, hu⟩ := hu
    cases h with
    | @cons c g cs gs hg h =>
      replace hu : u.Says (⟨false, .delimiter ","⟩ :: (g true ++ more gs)) := by
        simpa only [more, List.flatMap_cons, List.cons_append, List.append_assoc] using hu
      refine Gives.yes (gives_atDelimiter hu) rfl (Gives.bind ?_)
      refine (gives_advance hu).mono fun _ v taken => Gives.bind ?_
      refine (hg _ (more gs) v (stop gs) taken.2.1).mono fun b w next => Gives.pure ?_
      obtain ⟨hb, hw⟩ := next
      refine ⟨b, rfl, hb, ?_, gs, h, hw⟩
      have before := hu.length
      have after := hw.length
      rw [List.length_cons, List.length_append] at before
      omega
  · exact ⟨by rw [List.map_cons, ha, hu.1], hu.2⟩

/-- Items in parentheses, of which there may be none; `rest` is what follows. -/
theorem gives_listed {rest : List α → Parser β} {Q : β → Stream → Prop}
    (h : List.Forall₂ (fun c f => Reads item key c f stops) cs fs)
    (starts : ∀ f ∈ fs, f.Starts fun t => !t.isDelimiter ")")
    (hs : s.Says (commas fs ++ ⟨spaced, .delimiter ")"⟩ :: ps))
    (hrest : ∀ as t, as.map key = cs → t.Says (⟨spaced, .delimiter ")"⟩ :: ps) →
      Gives (rest as) t Q) :
    Gives (do if ← atDelimiter ")" then Pure.pure [] >>= rest else commaSeparated item >>= rest)
      s Q := by
  cases h with
  | nil =>
    exact Gives.yes (gives_atDelimiter hs) rfl (Gives.bind (Gives.pure (hrest [] s rfl hs)))
  | @cons c f cs fs hf h =>
    have first : (nextToken (commas (f :: fs) ++ ⟨spaced, .delimiter ")"⟩ :: ps)).isDelimiter ")" =
        false := by
      rw [commas, List.append_assoc]
      simpa using (starts f List.mem_cons_self).next false _
    refine Gives.no (gives_atDelimiter hs) first ?_
    exact Gives.bind ((gives_commaSeparated hf h hs).mono fun as t all => hrest as t all.1 all.2)

end Parser

end Sigil
