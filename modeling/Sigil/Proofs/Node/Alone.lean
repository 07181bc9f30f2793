import Sigil.Proofs.Node.Inside
import Sigil.Proofs.Node.Operations

/-!
# Expressions with nothing beside them

A substitution or a string with references can be a whole expression: there is
no operator, no sign and no call about it. For each level of the grammar, such
a tree is what the level within reads, and what the level within reads up to
the end of the text is what the level reads (`Parser.Wraps`). From the primary
expressions to whole ones this is `Parser.wraps_expressionWith`; the entries of
a text that has no other are read in the same way (`Parser.entries_kept`,
`Parser.entries_whole`).
-/

namespace Sigil

/-- Whether a tree has marks of its own at both ends. -/
def Node.isEnclosed : Node → Bool
  | substitution .. | interpolation .. => true
  | _ => false

/-- Whether a token is a mark or a string. -/
def Token.isEnclosing (t : Token) : Bool :=
  match t.content with
  | .delimiter | .string _ => true
  | _ => false

namespace Token

variable {t : Token}

theorem not_isOperator_of_isEnclosing (h : t.isEnclosing) (o : String) :
    t.isOperator o = false := by
  obtain ⟨content, lexeme, span⟩ := t
  cases content <;> first | rfl | cases h

theorem not_isKeyword_of_isEnclosing (h : t.isEnclosing) (w : String) :
    t.isKeyword w = false := by
  obtain ⟨content, lexeme, span⟩ := t
  cases content <;> first | rfl | cases h

theorem not_isPlainWord_of_isEnclosing (h : t.isEnclosing) : t.isPlainWord = false := by
  obtain ⟨content, lexeme, span⟩ := t
  cases content <;> first | rfl | cases h

theorem not_isOneOf_of_end (h : t.content = .endOfInput) (ops : List BinaryOperator) :
    Parser.isOneOf ops t = false := by
  simp [Parser.isOneOf, isOperator, h]

end Token

namespace Parser

/-! ## Loops -/

section

variable {α : Type} {step : α → Parser (Option α)} {a r : α} {s u : Stream}

/-- A loop that makes no round. -/
theorem run_iterate_none (h : (step a).run s = .ok (none, u)) :
    (iterate step a).run s = .ok (a, u) := by
  have run : (iterate step a).run s = (iterateUpTo step (s.ahead.length + 1) a).run s := rfl
  rw [run, run_iterateUpTo_succ, h]
  rfl

/-- A loop that gives what no round gives has made none. -/
theorem run_iterate_kept (h : (iterate step a).run s = .ok (r, u))
    (other : ∀ b s c t, (step b).run s = .ok (some c, t) → c ≠ r) :
    r = a ∧ (step a).run s = .ok (none, u) := by
  have run : (iterate step a).run s = (iterateUpTo step (s.ahead.length + 1) a).run s := rfl
  rw [run] at h
  generalize s.ahead.length + 1 = bound at h
  induction bound generalizing a s with
  | zero => cases h
  | succ bound ih =>
    rw [run_iterateUpTo_succ] at h
    obtain ⟨⟨o, t⟩, hstep, h⟩ := bind_eq_ok h
    cases o with
    | none =>
      cases h
      exact ⟨rfl, hstep⟩
    | some b => exact absurd (ih rfl h).1.symm (other a s b t hstep)

end

/-! ## Levels of the grammar -/

/-- A reader `q` that reads a tree with marks of its own at both ends as the reader `p` does, which
it starts with. -/
structure Wraps (p q : Parser Node) : Prop where
  kept : ∀ {s u : Stream} {x : Token} {n : Node}, s.Next x → x.isEnclosing → n.isEnclosed →
    q.run s = .ok (n, u) → p.run s = .ok (n, u)
  whole : ∀ {s u : Stream} {x y : Token} {n : Node}, s.Next x → x.isEnclosing →
    p.run s = .ok (n, u) → u.Next y → y.content = .endOfInput → q.run s = .ok (n, u)

theorem Wraps.trans {p q r : Parser Node} (h : Wraps p q) (k : Wraps q r) : Wraps p r where
  kept hx enclosing enclosed hr := h.kept hx enclosing enclosed (k.kept hx enclosing enclosed hr)
  whole hx enclosing hp hy he := k.whole hx enclosing (h.whole hx enclosing hp hy he) hy he

/-- What every result of a reader is like. -/
def Makes {α : Type} (m : Parser α) (P : α → Prop) : Prop :=
  ∀ s a u, m.run s = .ok (a, u) → P a

theorem Makes.pure {α : Type} {P : α → Prop} {a : α} (h : P a) : Makes (Pure.pure a) P := by
  rintro s _ _ ⟨⟩
  exact h

theorem Makes.throw {α : Type} {P : α → Prop} {x : Stop} :
    Makes (MonadExcept.throw x : Parser α) P :=
  fun _ _ _ h => nomatch h

theorem Makes.bind {α β : Type} {m : Parser α} {f : α → Parser β} {P : β → Prop}
    (h : ∀ a, Makes (f a) P) : Makes (m >>= f) P := by
  intro s b u hb
  rw [StateT.run_bind] at hb
  obtain ⟨⟨a, t⟩, -, hb⟩ := bind_eq_ok hb
  exact h a t b u hb

/-- A test that looks at the next token. -/
def Looks (test : Parser Bool) (looks : Token → Bool) : Prop :=
  ∀ s, test.run s = s.peek 0 >>= fun x => .ok (looks x, s)

theorem looks_peek (looks : Token → Bool) : Looks (do return looks (← peek 0)) looks := by
  intro s
  rw [StateT.run_bind, run_peek]
  cases s.peek 0 <;> rfl

theorem looks_atOneOf (ops : List BinaryOperator) : Looks (atOneOf ops) (isOneOf ops) :=
  looks_peek _

theorem looks_atOperator (o : String) : Looks (atOperator o) (·.isOperator o) :=
  looks_peek _

theorem looks_atDelimiter (d : String) : Looks (atDelimiter d) (·.isDelimiter d) :=
  looks_peek _

section

variable {test : Parser Bool} {looks : Token → Bool} (hlooks : Looks test looks)
include hlooks

theorem run_tested {α : Type} {f : Bool → Parser α} {s : Stream} {x : Token} (hx : s.Next x) :
    (test >>= f).run s = (f (looks x)).run s := by
  rw [StateT.run_bind, hlooks, hx]
  rfl

theorem run_tested_ok {α : Type} {f : Bool → Parser α} {s u : Stream} {a : α}
    (h : (test >>= f).run s = .ok (a, u)) :
    ∃ x, s.Next x ∧ (f (looks x)).run s = .ok (a, u) := by
  rw [StateT.run_bind, hlooks] at h
  cases hx : s.peek 0 with
  | error e => rw [hx] at h; cases h
  | ok x =>
    rw [hx] at h
    exact ⟨x, hx, h⟩

/-- A level of the grammar with a loop after what it starts with, of which no round gives a tree
with marks at both ends. -/
theorem wraps_iterate {p : Parser Node} {more : Token → Node → Parser (Option Node)}
    (makes : ∀ start a, Makes (more start a) fun o => ∃ b, o = some b ∧ ¬ b.isEnclosed)
    (ends : ∀ y, y.content = .endOfInput → looks y = false) :
    Wraps p (do
      let start ← peek 0
      let first ← p
      iterate (fun a => do if ← test then more start a else return none) first) where
  kept {s u x n} hx enclosing enclosed hq := by
    rw [run_peek_bind hx, StateT.run_bind] at hq
    obtain ⟨⟨first, t⟩, hp, hq⟩ := bind_eq_ok hq
    obtain ⟨rfl, hstep⟩ := run_iterate_kept hq fun a s b t hb same => by
      obtain ⟨y, -, hb⟩ := run_tested_ok hlooks hb
      split_ifs at hb
      · obtain ⟨_, ⟨⟩, other⟩ := makes x a s _ t hb
        exact other (same ▸ enclosed)
      · cases hb
    obtain ⟨y, -, hstep⟩ := run_tested_ok hlooks hstep
    split_ifs at hstep
    · obtain ⟨_, ⟨⟩, -⟩ := makes x n t _ u hstep
    · cases hstep
      exact hp
  whole {s u x y n} hx enclosing hp hy he := by
    rw [run_peek_bind hx, StateT.run_bind, hp, ok_bind]
    refine run_iterate_none ?_
    rw [run_tested hlooks hy, ends y he]
    rfl

end

theorem wraps_chain (ops : List BinaryOperator) (operand : Parser Node) :
    Wraps operand (chain ops operand) :=
  wraps_iterate (looks_atOneOf ops)
    (fun _ _ => .bind fun _ => .bind fun _ => .bind fun _ => .pure ⟨_, rfl, nofun⟩)
    fun _ he => Token.not_isOneOf_of_end he ops

theorem wraps_comparison (operand : Parser Node) : Wraps operand (comparison operand) where
  kept {s u x n} hx enclosing enclosed hq := by
    rw [comparison, run_peek_bind hx, StateT.run_bind] at hq
    obtain ⟨⟨left, t⟩, hp, hq⟩ := bind_eq_ok hq
    obtain ⟨y, -, hq⟩ := run_tested_ok (looks_atOneOf _) hq
    have compared : Makes (do
        let op ← advance
        let right ← operand
        let n := Node.binary (← spanFrom x) (.ofSymbol op.lexeme) left right
        if ← atOneOf comparisons then throw (.parse ⟨.betweenComparisons, ← peek 0⟩)
        else return n : Parser Node) fun n => ¬ n.isEnclosed := by
      refine .bind fun _ => .bind fun _ => .bind fun _ => .bind fun _ => ?_
      split_ifs
      · exact .bind fun _ => .throw
      · exact .pure nofun
    split_ifs at hq
    · exact absurd enclosed (compared t n u hq)
    · cases hq
      exact hp
  whole {s u x y n} hx enclosing hp hy he := by
    rw [comparison, run_peek_bind hx, StateT.run_bind, hp, ok_bind,
      run_tested (looks_atOneOf _) hy, Token.not_isOneOf_of_end he]
    rfl

theorem wraps_operation (operand : Parser Node) : Wraps operand (operation operand) :=
  (wraps_chain _ _).trans <| (wraps_chain _ _).trans <| (wraps_comparison _).trans <|
    (wraps_chain _ _).trans (wraps_chain _ _)

section

variable (expression : Parser Node)

theorem wraps_application : Wraps (primary expression) (application expression) := by
  have same {s : Stream} {x : Token} (hx : s.Next x) (h : x.isEnclosing) :
      (application expression).run s = (primary expression).run s := by
    rw [application, run_peek_bind hx, Token.not_isPlainWord_of_isEnclosing h]
    rfl
  exact ⟨fun hx h _ hq => same hx h ▸ hq, fun hx h hp _ _ => (same hx h).trans hp⟩

theorem wraps_postfixCalls : Wraps (application expression) (postfixCalls expression) :=
  wraps_iterate (looks_atDelimiter "(")
    (fun _ _ => .bind fun _ => .bind fun _ => .pure ⟨_, rfl, nofun⟩)
    fun y he => by simp [Token.isDelimiter, he]

/-- No signs are read where none is next. -/
theorem run_signs {s : Stream} {x : Token} (hx : s.Next x) (other : isSign x = false) : (many do
    if (← atOperator "-") || (← atOperator "!") then return some (← advance)
    else return none).run s = .ok ([], s) := by
  refine run_iterate_none ?_
  rw [StateT.run_bind, run_tested (looks_atOperator "-") hx, run_tested (looks_atOperator "!") hx]
  change (if isSign x then _ else _ : Parser _).run s >>= _ = _
  rw [other]
  rfl

theorem wraps_signed : Wraps (postfixCalls expression) (signed expression) := by
  have same {s : Stream} {x : Token} (hx : s.Next x) (h : x.isEnclosing) :
      (signed expression).run s = (postfixCalls expression).run s := by
    have other : isSign x = false := by simp [isSign, Token.not_isOperator_of_isEnclosing h]
    rw [signed, StateT.run_bind, run_signs hx other, ok_bind, StateT.run_bind]
    dsimp only
    cases (postfixCalls expression).run s <;> rfl
  exact ⟨fun hx h _ hq => same hx h ▸ hq, fun hx h hp _ _ => (same hx h).trans hp⟩

theorem wraps_expressionWith : Wraps (primary expression) (expressionWith expression) := by
  have same {s : Stream} {x : Token} (hx : s.Next x) (h : x.isEnclosing) :
      (expressionWith expression).run s = (operation (signed expression)).run s := by
    rw [expressionWith, run_peek_bind hx, Token.not_isKeyword_of_isEnclosing h]
    obtain ⟨content, lexeme, span⟩ := x
    cases content <;> first | rfl | cases h
  have operations := (wraps_application expression).trans <|
    (wraps_postfixCalls expression).trans <|
      (wraps_signed expression).trans (wraps_operation (signed expression))
  exact ⟨fun hx h hn hq => operations.kept hx h hn (same hx h ▸ hq),
    fun hx h hp hy he => (same hx h).trans (operations.whole hx h hp hy he)⟩

end

/-! ## Entries -/

section

variable {expression : Parser Node} {s u : Stream} {x y : Token} {n : Node}

theorem run_entries (expression : Parser Node) (closing : Option String) (s : Stream) :
    (entries expression closing).run s =
      (iterateUpTo (collect (entry expression closing)) (s.ahead.length + 1) []).run s :=
  rfl

/-- An entry where a token is next that is no semicolon and not the end of the text. -/
theorem run_entry_here (hx : s.Next x) (semi : ¬ x.isDelimiter ";")
    (real : x.content ≠ .endOfInput) : (entry expression none).run s =
      expression.run s >>= fun r => (endEntry none).run r.2 >>= fun v => .ok (some r.1, v.2) := by
  have open_ : closes none x = false := decide_eq_false real
  rw [run_entry, run_skipSemicolons_stop hx semi, ok_bind, entryHere, StateT.run_bind,
    run_atClosing, hx, ok_bind, ok_bind, open_]
  show (expression >>= _ : Parser (Option Node)).run s = _
  rw [StateT.run_bind]
  cases expression.run s with
  | error e => rfl
  | ok r =>
    rw [ok_bind, ok_bind, StateT.run_bind]
    cases (endEntry none).run r.2 <;> rfl

/-- At the end of the text there is no entry. -/
theorem run_entry_end (hy : u.Next y) (he : y.content = .endOfInput) :
    (entry expression none).run u = .ok (none, u) := by
  have closed : closes none y = true := decide_eq_true he
  rw [run_entry, run_skipSemicolons_stop hy fun semi => Token.isDelimiter_content semi he, ok_bind,
    entryHere, StateT.run_bind, run_atClosing, hy, ok_bind, ok_bind, closed]
  rfl

/-- The end of the text ends an entry. -/
theorem run_endEntry_end (hy : u.Next y) (he : y.content = .endOfInput) :
    (endEntry none).run u = .ok ((), u) := by
  have semi : y.isDelimiter ";" = false := by simp [Token.isDelimiter, he]
  have closed : closes none y = true := decide_eq_true he
  rw [endEntry, run_tested (looks_atDelimiter ";") hy, semi]
  show (atClosing none >>= _ : Parser Unit).run u = _
  rw [StateT.run_bind, run_atClosing, hy, ok_bind, ok_bind, closed]
  rfl

/-- The only entry of a text is what is read first. -/
theorem entries_kept (hx : s.Next x) (semi : ¬ x.isDelimiter ";") (real : x.content ≠ .endOfInput)
    (h : (entries expression none).run s = .ok ([n], u)) :
    ∃ t, expression.run s = .ok (n, t) := by
  rw [run_entries, run_iterateUpTo_succ, run_collect, run_entry_here hx semi real] at h
  obtain ⟨_, h₁, h⟩ := bind_eq_ok h
  obtain ⟨_, h₂, h₁⟩ := bind_eq_ok h₁
  obtain ⟨⟨m, t⟩, hm, h₂⟩ := bind_eq_ok h₂
  obtain ⟨_, -, h₂⟩ := bind_eq_ok h₂
  cases h₂
  cases h₁
  dsimp only [Option.map_some] at h
  rw [run_iterateUpTo_collect] at h
  obtain ⟨⟨more, v⟩, -, h⟩ := bind_eq_ok h
  cases h
  exact ⟨t, hm⟩

/-- What is read up to the end of the text is its only entry. -/
theorem entries_whole (hx : s.Next x) (semi : ¬ x.isDelimiter ";") (real : x.content ≠ .endOfInput)
    (h : expression.run s = .ok (n, u)) (hy : u.Next y) (he : y.content = .endOfInput) :
    (entries expression none).run s = .ok ([n], u) := by
  obtain ⟨xs, ahead⟩ := hx.cons real
  rw [run_entries, ahead, List.length_cons, run_iterateUpTo_succ, run_collect,
    run_entry_here hx semi real, h, ok_bind, run_endEntry_end hy he]
  show (iterateUpTo (collect (entry expression none)) (xs.length + 1) [n]).run u = _
  rw [run_iterateUpTo_succ, run_collect, run_entry_end hy he]
  rfl

end

end Parser

end Sigil
