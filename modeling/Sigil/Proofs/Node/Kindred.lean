import Sigil.Proofs.Node.Erased
import Sigil.Proofs.Node.Inside
import Sigil.Proofs.Node.Joined
import Sigil.Proofs.Token.Respaced

/-!
# Reading texts that say the same

Two texts are read that have the same tokens, whatever their places, and the
same tokens adjacent; the second may end where the first goes on (`Stream.Kin`).
A reader gives the same of both, but for the spans, unless it has read of the
first what the second does not have (`Parser.Echo`): what it looks at in a token
is in its text and in what it says, and of the places it sees only which tokens
are adjacent. Where the second text ends, a reader may well see something in the
first, but it only ever asks for what it then reads, so that it is lost
(`Stream.Lost`) and stays so. There is a rule for the pieces that all readers
are made of. The rules for putting readers together are those of reading what
stands in parentheses (`Parser.Trails`).
-/

namespace Sigil

/-! ## Tokens that say the same -/

namespace Token

/-- Two tokens of one kind that are written alike. -/
structure Resembles (t u : Token) : Prop where
  content : u.content = t.content ∨ ∃ ps qs, t.content = .string ps ∧ u.content = .string qs
  lexeme : u.lexeme = t.lexeme

namespace Resembles

variable {t u : Token}

theorem refl (t : Token) : t.Resembles t := ⟨.inl rfl, rfl⟩

theorem content_iff (h : t.Resembles u) {c : Content} (hc : c.isString = false) :
    u.content = c ↔ t.content = c := by
  rcases h.content with same | ⟨ps, qs, hp, hq⟩
  · rw [same]
  · have other (rs : List StringPart) : .string rs ≠ c := by
      rintro rfl
      cases hc
    rw [hp, hq]
    exact ⟨fun e => absurd e (other qs), fun e => absurd e (other ps)⟩

theorem isOperator (h : t.Resembles u) (o : String) : u.isOperator o = t.isOperator o := by
  rw [Token.isOperator, Token.isOperator, h.lexeme,
    decide_eq_decide.mpr (h.content_iff (c := .operator) rfl)]

theorem isDelimiter (h : t.Resembles u) (d : String) : u.isDelimiter d = t.isDelimiter d := by
  rw [Token.isDelimiter, Token.isDelimiter, h.lexeme,
    decide_eq_decide.mpr (h.content_iff (c := .delimiter) rfl)]

theorem isKeyword (h : t.Resembles u) (w : String) : u.isKeyword w = t.isKeyword w := by
  rw [Token.isKeyword, Token.isKeyword, h.lexeme,
    decide_eq_decide.mpr (h.content_iff (c := .word) rfl)]

theorem isPlainWord (h : t.Resembles u) : u.isPlainWord = t.isPlainWord := by
  rw [Token.isPlainWord, Token.isPlainWord, h.lexeme,
    decide_eq_decide.mpr (h.content_iff (c := .word) rfl)]

theorem isAtom (h : t.Resembles u) : Parser.isAtom u = Parser.isAtom t := by
  rcases h.content with same | ⟨ps, qs, hp, hq⟩
  · rw [Parser.isAtom, Parser.isAtom, same]
  · rw [Parser.isAtom, Parser.isAtom, hp, hq]

theorem startsExpression (h : t.Resembles u) :
    Parser.startsExpression u = Parser.startsExpression t := by
  simp [Parser.startsExpression, h.isAtom, h.isPlainWord, h.isKeyword, h.isOperator, h.isDelimiter]

theorem startsArgument (h : t.Resembles u) :
    Parser.startsArgument u = Parser.startsArgument t := by
  simp [Parser.startsArgument, h.isAtom, h.isPlainWord, h.isKeyword, h.isDelimiter]

theorem real (h : t.Resembles u) (ht : t.content ≠ .endOfInput) : u.content ≠ .endOfInput :=
  (h.content_iff (c := .endOfInput) rfl).not.mpr ht

end Resembles

namespace Kin

variable {t u : Token}

/-- Two tokens that say the same are strings or say it in the same way. -/
theorem cases (h : t.Kin u) : u.content = t.content ∨ ∃ ps qs, t.content = .string ps ∧
    u.content = .string qs ∧ List.Forall₂ StringPart.Kin ps qs := by
  obtain ⟨content, -⟩ := h
  generalize t.content = c at content ⊢
  generalize u.content = d at content ⊢
  cases content with
  | string h => exact .inr ⟨_, _, rfl, rfl, h⟩
  | plain => exact .inl rfl

theorem resembles (h : t.Kin u) : t.Resembles u :=
  ⟨h.cases.imp_right fun ⟨ps, qs, hp, hq, _⟩ => ⟨ps, qs, hp, hq⟩, h.lexeme⟩

theorem atEnd (p q : Position) : (Token.atEnd p).Kin (.atEnd q) :=
  ⟨.plain rfl, rfl⟩

end Kin

/-- A test that depends on nothing but what a token says, and that no end of a text passes. -/
structure Telling (test : Token → Bool) : Prop where
  same : ∀ {x y : Token}, x.Resembles y → test y = test x
  never : ∀ {y : Token}, y.content = .endOfInput → test y = false

theorem telling_isOperator (o : String) : Telling (·.isOperator o) :=
  ⟨fun h => h.isOperator o, fun spent => by simp [isOperator, spent]⟩

theorem telling_isDelimiter (d : String) : Telling (·.isDelimiter d) :=
  ⟨fun h => h.isDelimiter d, fun spent => by simp [isDelimiter, spent]⟩

theorem telling_isKeyword (w : String) : Telling (·.isKeyword w) :=
  ⟨fun h => h.isKeyword w, fun spent => by simp [isKeyword, spent]⟩

theorem telling_isPlainWord : Telling isPlainWord :=
  ⟨fun h => h.isPlainWord, fun spent => by simp [isPlainWord, spent]⟩

theorem telling_startsExpression : Telling Parser.startsExpression :=
  ⟨fun h => h.startsExpression, fun spent => by
    simp [Parser.startsExpression, Parser.isAtom, isPlainWord, isKeyword, isDelimiter, isOperator,
      spent]⟩

theorem telling_startsArgument : Telling Parser.startsArgument :=
  ⟨fun h => h.startsArgument, fun spent => by
    simp [Parser.startsArgument, Parser.isAtom, isPlainWord, isKeyword, isDelimiter, spent]⟩

theorem Telling.real {test : Token → Bool} (h : Telling test) {x : Token} (hx : test x) :
    x.content ≠ .endOfInput := fun spent => by
  rw [h.never spent] at hx
  cases hx

end Token

/-! ## Two streams -/

/-- Where the second text ends: what the first goes on with there, if it does, and how many tokens
are ahead of the second reader when it starts. -/
structure Cut where
  rest : List Token
  whole : Nat

namespace Stream

variable {c : Cut} {n k j : Nat} {s t : Stream} {x y : Token}

/-- Something was read of what the second text does not have. -/
def Lost (c : Cut) (s : Stream) : Prop :=
  c.rest ≠ [] ∧ s.ahead.length ≤ c.rest.length

/-- At most so many tokens are left of what the second text has too. -/
def Brink (c : Cut) (j : Nat) (s : Stream) : Prop :=
  c.rest ≠ [] ∧ s.ahead.length ≤ c.rest.length + 1 + j

/-- The streams of two texts that say the same up to where the second ends and the first has more
tokens, if any. Nothing in the first is read beyond the parenthesis that closes it. Less than `n`
tokens are ahead of the second, which nest at most `k` deep. The last tokens that were read need not
be the same as long as the second reader has not started. -/
structure Kin (c : Cut) (n k : Nat) (s t : Stream) : Prop where
  sound : s.error = none ∧ t.error = none
  ahead : ∃ ps p q, s.ahead = ps.map Prod.fst ++ (c.rest ++ [.atEnd p]) ∧
    t.ahead = ps.map Prod.snd ++ [.atEnd q] ∧ Token.Kins ps ∧
    ∀ x ∈ ps, x.1.content ≠ .endOfInput ∧ x.1.Contained
  start : t.ahead.length ≤ c.whole
  braced : t.ahead.length < c.whole →
    t.previous.any (·.isDelimiter "\x7d") = s.previous.any (·.isDelimiter "\x7d")
  bound : t.ahead.length < n
  within : t.Within k

/-- The streams say the same, unless the first is lost. -/
def Along (c : Cut) (n k : Nat) (s t : Stream) : Prop :=
  s.Kin c n k t ∨ s.Lost c

/-- Tokens some places ahead: they say the same, or the second is the end of its text, which the
first text goes on behind. -/
def Seen (c : Cut) (j : Nat) (s t : Stream) (x y : Token) : Prop :=
  ¬ s.Brink c j ∧ t.peek j = .ok y ∧ x.Kin y ∧ (x.content ≠ .endOfInput → x.Contained) ∨
    s.Brink c j ∧ y.content = .endOfInput

theorem not_lost_of_nil (none : c.rest = []) (s : Stream) : ¬ s.Lost c := fun h => h.1 none

theorem Lost.brink (h : s.Lost c) (j : Nat) : s.Brink c j :=
  ⟨h.1, by have := h.2; omega⟩

theorem Lost.reads (h : s.Lost c) (r : s.Reads n t) : t.Lost c :=
  ⟨h.1, by have := h.2; have := r.length; omega⟩

theorem Brink.mono {i : Nat} (h : s.Brink c i) (hij : i ≤ j) : s.Brink c j :=
  ⟨h.1, by have := h.2; omega⟩

theorem Brink.reads (h : s.Brink c j) (r : s.Reads (j + 1) t) : t.Lost c :=
  ⟨h.1, by have := h.2; have := r.length; omega⟩

namespace Kin

theorem two_le (h : s.Kin c n k t) : 2 ≤ n := by
  obtain ⟨ps, p, q, -, ht, -⟩ := h.ahead
  have := h.bound
  rw [ht, List.length_append, List.length_singleton] at this
  omega

theorem length (h : s.Kin c n k t) : s.ahead.length = t.ahead.length + c.rest.length := by
  obtain ⟨ps, p, q, hs, ht, -⟩ := h.ahead
  rw [hs, ht, List.length_append, List.length_append, List.length_append, List.length_map,
    List.length_map, List.length_singleton, List.length_singleton]
  omega

theorem mono {m l : Nat} (h : s.Kin c n k t) (hn : n ≤ m) (hk : k ≤ l) : s.Kin c m l t :=
  { h with bound := h.bound.trans_le hn, within := h.within.mono hk }

theorem not_lost (h : s.Kin c n k t) : ¬ s.Lost c := fun lost => by
  have length := h.length
  have bound := lost.2
  obtain ⟨ps, p, q, -, ht, -⟩ := h.ahead
  rw [ht, List.length_append, List.length_singleton] at length
  omega

/-- As many tokens can be ahead of the second as are. -/
theorem rebound (h : s.Kin c n k t) (hm : t.ahead.length < j) : s.Kin c j k t :=
  { h with bound := hm }

end Kin

/-- Beyond the end there are only ends. -/
theorem peek_end {ts : List Token} {p : Position} (sound : s.error = none)
    (hs : s.ahead = ts ++ [.atEnd p]) (hj : ts.length ≤ j) : s.peek j = .ok (.atEnd p) := by
  rcases hj.eq_or_lt with rfl | beyond
  · refine peek_of_ahead ?_
    rw [hs, List.getElem?_append_right (Nat.le_refl _), Nat.sub_self]
    rfl
  · rw [peek, sound, List.getElem?_eq_none (by rw [hs, List.length_append]; exact beyond), hs]
    simp

theorem peek_map {α : Type} {f : α → Token} {ps : List α} {more : List Token}
    (hs : s.ahead = ps.map f ++ more) (hj : j < ps.length) : s.peek j = .ok (f ps[j]) := by
  refine peek_of_ahead ?_
  rw [hs, List.getElem?_append_left (by rwa [List.length_map]), List.getElem?_map,
    List.getElem?_eq_getElem hj]
  rfl

namespace Kin

theorem more (h : s.Kin c n k t) : s.ahead ≠ [] ∧ t.ahead ≠ [] := by
  obtain ⟨ps, p, q, hs, ht, -⟩ := h.ahead
  exact ⟨by simp [hs], by simp [ht]⟩

/-- A token that is seen ahead, and what is seen in the other text. -/
theorem peeked (h : s.Kin c n k t) (hx : s.peek j = .ok x) :
    ∃ y, t.peek j = .ok y ∧ s.Seen c j t x y := by
  have length := h.length
  obtain ⟨ps, p, q, hs, ht, kins, reals⟩ := h.ahead
  by_cases inside : j < ps.length
  · cases hx.symm.trans (peek_map hs inside)
    have mem := List.getElem_mem inside
    have hy := peek_map ht inside
    refine ⟨_, hy, .inl ⟨fun brink => ?_, hy, kins.kin _ mem, fun _ => (reals _ mem).2⟩⟩
    have bound := brink.2
    rw [length, ht, List.length_append, List.length_map, List.length_singleton] at bound
    omega
  · have beyond : (ps.map Prod.snd).length ≤ j := by
      rw [List.length_map]
      omega
    have hy := peek_end h.sound.2 ht beyond
    refine ⟨_, hy, ?_⟩
    by_cases none : c.rest = []
    · rw [none, List.nil_append] at hs
      have beyond : (ps.map Prod.fst).length ≤ j := by
        rw [List.length_map]
        omega
      cases hx.symm.trans (peek_end h.sound.1 hs beyond)
      exact .inl ⟨fun brink => brink.1 none, hy, .atEnd p q, fun real => absurd rfl real⟩
    · refine .inr ⟨⟨none, ?_⟩, rfl⟩
      rw [length, ht, List.length_append, List.length_singleton]
      omega

/-- The first text can be looked at as far as one likes. -/
theorem peeks (h : s.Kin c n k t) (j : Nat) : ∃ x, s.peek j = .ok x := by
  obtain ⟨ps, p, q, hs, -⟩ := h.ahead
  cases hx : s.ahead[j]? with
  | some x => exact ⟨x, peek_of_ahead hx⟩
  | none =>
    refine ⟨s.ahead.getLast?.getD (.atEnd ((s.previous.map (·.span.stop)).getD .start)), ?_⟩
    rw [peek, hx, h.sound.1]

/-- Two tokens one after the other, and those in the other text, are adjacent in both or in neither,
if the second says the same and is no end. -/
theorem touching {x' y' : Token} (h : s.Kin c n k t) (hx : s.peek j = .ok x)
    (hx' : s.peek (j + 1) = .ok x') (hy : t.peek j = .ok y) (hy' : t.peek (j + 1) = .ok y')
    (real : y'.content ≠ .endOfInput) : Parser.adjacent y y' = Parser.adjacent x x' := by
  obtain ⟨ps, p, q, hs, ht, kins, -⟩ := h.ahead
  have inside : j + 1 < ps.length := by
    by_contra beyond
    cases hy'.symm.trans (peek_end h.sound.2 ht (by rw [List.length_map]; omega))
    exact real rfl
  cases hx.symm.trans (peek_map hs (Nat.lt_of_succ_lt inside))
  cases hx'.symm.trans (peek_map hs inside)
  cases hy.symm.trans (peek_map ht (Nat.lt_of_succ_lt inside))
  cases hy'.symm.trans (peek_map ht inside)
  exact (List.isChain_iff_getElem.mp kins.chain j inside).symm

/-- A token that is no end is read from both texts. -/
theorem pop (h : s.Kin c n k t) (hx : s.Next x) (hy : t.Next y) (kin : x.Kin y)
    (real : x.content ≠ .endOfInput) : (s.pop x).Kin c (n - 1) (k - 1) (t.pop y) := by
  have popped := hy.reads (kin.resembles.real real)
  have less := popped.length
  have within := (popped.within h.within).2
  have bound := h.bound
  have start := h.start
  obtain ⟨ps, p, q, hs, ht, kins, reals⟩ := h.ahead
  cases ps with
  | nil =>
    cases hy.symm.trans (next_of_ahead ht)
    exact absurd rfl (kin.resembles.real real)
  | cons z ps =>
    cases hx.symm.trans (next_of_ahead hs)
    cases hy.symm.trans (next_of_ahead ht)
    rw [Stream.pop, if_neg real, Stream.pop, if_neg (kin.resembles.real real)] at *
    refine ⟨h.sound, ⟨ps, p, q, by simp [hs], by simp [ht], ⟨fun w hw => ?_, ?_⟩, fun w hw => ?_⟩,
      by omega, fun _ => ?_, by omega, within⟩
    · exact kins.kin w (List.mem_cons_of_mem _ hw)
    · exact kins.chain.tail
    · exact reals w (List.mem_cons_of_mem _ hw)
    · exact kin.resembles.isDelimiter _

/-- The same of a token that is read and what comes behind it. -/
theorem touching_pop {x' y' : Token} {m l : Nat} (h : s.Kin c n k t)
    (popped : (s.pop x).Kin c m l (t.pop y)) (hx : s.Next x) (realx : x.content ≠ .endOfInput)
    (hy : t.Next y) (hx' : (s.pop x).Next x') (hy' : (t.pop y).Next y')
    (real : y'.content ≠ .endOfInput) : Parser.adjacent y y' = Parser.adjacent x x' := by
  obtain ⟨z, hz⟩ := h.peeks 1
  obtain ⟨z', hz', -⟩ := h.peeked hz
  obtain ⟨w, hw, seen⟩ := h.peeked hx
  cases hy.symm.trans hw
  have realy : y.content ≠ .endOfInput := by
    rcases seen with ⟨-, -, kin, -⟩ | ⟨brink, -⟩
    · exact kin.resembles.real realx
    · exact absurd (brink.reads (hx.reads realx)) popped.not_lost
  cases hx'.symm.trans (next_pop hx realx hz popped.more.1)
  cases hy'.symm.trans (next_pop hy realy hz' popped.more.2)
  exact h.touching hx hz hy hz' real

end Kin

namespace Along

theorem mono {m l : Nat} (h : s.Along c n k t) (hn : n ≤ m) (hk : k ≤ l) :
    s.Along c m l t :=
  h.imp_left fun kin => kin.mono hn hk

theorem rebound (h : s.Along c n k t) : s.Along c (min (t.ahead.length + 1) n) k t :=
  h.imp_left fun kin => kin.rebound (lt_min (Nat.lt_succ_self _) kin.bound)

/-- There are no more tokens ahead than there were at the start. -/
theorem started (h : s.Along c n k t) : s.Along c (min (c.whole + 1) n) k t :=
  h.imp_left fun kin => kin.rebound (lt_min (Nat.lt_succ_of_le kin.start) kin.bound)

theorem lost (h : s.Along c 1 k t) : s.Lost c :=
  h.resolve_left fun kin => absurd kin.two_le (by omega)

theorem lost_zero (h : s.Along c 0 k t) : s.Lost c :=
  (h.mono (Nat.zero_le 1) (Nat.le_refl k)).lost

end Along

end Stream

namespace Stream

variable {c : Cut} {j : Nat} {s t : Stream} {x y : Token}

/-- What two tests of tokens some places ahead tell: the same, or the second text has no token there
and the test is not passed. -/
def Told (c : Cut) (j : Nat) (s : Stream) (b b' : Bool) : Prop :=
  b' = b ∨ s.Brink c j ∧ b' = false

theorem Seen.told (h : s.Seen c j t x y) {test : Token → Bool} (tells : Token.Telling test) :
    s.Told c j (test x) (test y) :=
  h.imp (fun ⟨_, _, kin, _⟩ => tells.same kin.resembles) fun ⟨brink, spent⟩ =>
    ⟨brink, tells.never spent⟩

theorem Told.or {a a' b b' : Bool} (ha : s.Told c j a a') (hb : s.Told c j b b') :
    s.Told c j (a || b) (a' || b') := by
  rcases ha with rfl | ⟨brink, rfl⟩
  · rcases hb with rfl | ⟨brink, rfl⟩
    · exact .inl rfl
    · cases a' with
      | true => exact .inl rfl
      | false => exact .inr ⟨brink, rfl⟩
  · rcases hb with rfl | ⟨-, rfl⟩
    · cases b' with
      | true => exact .inl (Bool.or_true a).symm
      | false => exact .inr ⟨brink, rfl⟩
    · exact .inr ⟨brink, rfl⟩

/-- Away from where the second text ends, tests tell the same. -/
theorem Told.same {b b' : Bool} (h : s.Told c j b b') (away : ¬ s.Brink c j) : b' = b :=
  h.resolve_right fun told => away told.1

/-- What no test finds in the first text, none finds in the second. -/
theorem Told.none {b b' : Bool} (h : s.Told c j b b') (no : ¬ b) : ¬ b' := by
  rcases h with rfl | ⟨-, rfl⟩
  · exact no
  · exact Bool.false_ne_true

/-- What resembles a token, whatever the second text has there: the token there, where that text
goes on. -/
theorem Seen.alike (h : s.Seen c 0 t x y) : ∃ z, x.Resembles z ∧
    (¬ s.Brink c 0 → z = y ∧ t.Next y ∧ x.Kin y ∧ (x.content ≠ .endOfInput → x.Contained)) := by
  rcases h with ⟨-, kin⟩ | ⟨brink, -⟩
  · exact ⟨y, kin.2.1.resembles, fun _ => ⟨rfl, kin⟩⟩
  · exact ⟨x, .refl x, fun away => absurd brink away⟩

end Stream

namespace Parser

section

variable {α β γ δ : Type} {c : Cut} {n k j : Nat} {s t : Stream} {x y : Token}
  {p : Parser α} {q : Parser β} {Q : α → β → Stream → Stream → Prop}

/-! ## Two readers -/

/-- What the first reader reads of its text, the second reads of the other, unless the first is
lost. -/
abbrev Echo (c : Cut) (p : Parser α) (q : Parser β) (s t : Stream)
    (Q : α → β → Stream → Stream → Prop) : Prop :=
  Trails (Stream.Lost c) (Stream.Lost c) p q s t Q

/-- The reader is lost whenever it succeeds. -/
def Loses (c : Cut) (p : Parser α) (s : Stream) : Prop :=
  ∀ a u, p.run s = .ok (a, u) → u.Lost c

theorem loses_of_reads (h : WP p s fun _ u => s.Reads 1 u) (brink : s.Brink c 0) :
    Loses c p s := fun _ _ ha => brink.reads (h.of_ok ha)

theorem loses_advance (hx : s.Next x) (real : x.content ≠ .endOfInput) (brink : s.Brink c 0) :
    Loses c advance s :=
  loses_of_reads ((taken_wp hx real).mono fun _ _ h => h.2) brink

/-- What the second reader does is no matter where the first is lost. -/
theorem Echo.elsewhere {q' : Parser β} (h : Echo c p q' s t Q) (loses : Loses c p s) :
    Echo c p q s t Q := fun a u ha =>
  let ⟨_, b, v, hq, _⟩ := h a u ha
  ⟨fun _ => loses a u ha, b, v, hq, .inr (loses a u ha)⟩

/-- What the second reader does is no matter either where the first goes on when it is lost. -/
theorem Echo.bind_elsewhere {p' : Parser γ} {q' : Parser δ} {f : γ → Parser α} {f' : δ → Parser β}
    (h : Echo c p' q' s t fun a b u v => Echo c (f a) (f' b) u v Q)
    (loses : Loses c p' s) : Echo c (p' >>= f) q s t Q :=
  Echo.elsewhere (Trails.bind h) fun d w hd => by
    rw [StateT.run_bind] at hd
    obtain ⟨⟨a, u⟩, ha, hd⟩ := bind_eq_ok hd
    obtain ⟨-, b, v, hf, -⟩ := h a u ha
    exact (hf d w hd).1 (loses a u ha)

/-- A reader that has its own result as what the second would read, where it is lost. -/
theorem Echo.self {p : Parser α} {q : Parser α} {Q : α → α → Stream → Stream → Prop}
    (loses : Loses c p s) (hQ : ∀ a u, u.Lost c → Q a a u t) : Echo c p q s t Q :=
  .gone fun a u ha => ⟨loses a u ha, a, t, hQ a u (loses a u ha)⟩

/-! ## Tokens -/

/-- A token some places ahead. -/
theorem peekAt_echo {Q : Token → Token → Stream → Stream → Prop} (h : s.Along c n k t)
    (hQ : ∀ x y, s.peek j = .ok x → s.Seen c j t x y → Q x y s t) :
    Echo c (peek j) (peek j) s t Q := by
  intro x u hx
  rw [run_peek] at hx
  obtain ⟨x, seen, hx⟩ := bind_eq_ok hx
  cases hx
  refine ⟨id, ?_⟩
  rcases h with kin | lost
  · obtain ⟨y, hy, same⟩ := kin.peeked seen
    refine ⟨y, t, hQ x y seen same, .inl ?_⟩
    rw [run_peek, hy]
    rfl
  · exact ⟨.atEnd .start, t, hQ x _ seen (.inr ⟨lost.brink j, rfl⟩), .inr lost⟩

theorem peek_echo {Q : Token → Token → Stream → Stream → Prop} (h : s.Along c n k t)
    (hQ : ∀ x y, s.Next x → s.Seen c 0 t x y → Q x y s t) :
    Echo c (peek 0) (peek 0) s t Q :=
  peekAt_echo h hQ

/-- A token is read, which is no end as long as the streams say the same. -/
theorem pop_echo {Q : Token → Token → Stream → Stream → Prop} (h : s.Along c n k t)
    (next : s.Kin c n k t → ∃ x, s.Next x ∧ x.content ≠ .endOfInput)
    (hQ : ∀ x y v, s.Next x → y.lexeme = x.lexeme →
      (¬ s.Brink c 0 → t.Next y ∧ v = t.pop y) →
      (s.pop x).Along c (n - 1) (k - 1) v → Q x y (s.pop x) v) :
    Echo c advance advance s t Q := by
  intro x u hx
  rw [run_advance] at hx
  obtain ⟨x, seen, hx⟩ := bind_eq_ok hx
  cases hx
  refine ⟨fun lost => lost.reads (Stream.reads_pop seen), ?_⟩
  rcases h with kin | lost
  · obtain ⟨z, hz, real⟩ := next kin
    cases seen.symm.trans hz
    obtain ⟨y, hy, ⟨away, -, same, -⟩ | ⟨brink, -⟩⟩ := kin.peeked hz
    · have popped := kin.pop hz hy same real
      refine ⟨y, t.pop y, hQ x y _ hz same.lexeme (fun _ => ⟨hy, rfl⟩) (.inl popped), .inl ?_⟩
      rw [run_advance, hy]
      rfl
    · have lost := brink.reads (hz.reads real)
      exact ⟨x, t, hQ x x t hz rfl (fun away => absurd brink away) (.inr lost), .inr lost⟩
  · have popped := lost.reads (Stream.reads_pop seen)
    exact ⟨x, t, hQ x x t seen rfl (fun away => absurd (lost.brink 0) away) (.inr popped),
      .inr popped⟩

/-- Where the second text ends and a token is read, it does not matter what the second reader
does. -/
theorem Echo.taken {f : Token → Parser α} {f' : Token → Parser β} (hx : s.Next x)
    (real : x.content ≠ .endOfInput) (right : ¬ s.Brink c 0 → q = advance >>= f')
    (both : Echo c advance advance s t fun a b u v => Echo c (f a) (f' b) u v Q) :
    Echo c (advance >>= f) q s t Q := by
  by_cases brink : s.Brink c 0
  · exact Echo.bind_elsewhere both (loses_advance hx real brink)
  · rw [right brink]
    exact .bind both

/-- A token that was seen before, and is no end, is read. -/
theorem taken_echo {f : Token → Parser α} {f' : Token → Parser β} (h : s.Along c n k t)
    (hx : s.Next x) (real : x.content ≠ .endOfInput)
    (right : ¬ s.Brink c 0 → q = advance >>= f')
    (hf : ∀ y u v, y.lexeme = x.lexeme → u.Along c (n - 1) (k - 1) v →
      Echo c (f x) (f' y) u v Q) : Echo c (advance >>= f) q s t Q :=
  Echo.taken hx real right <| pop_echo h (fun _ => ⟨x, hx, real⟩) fun x' y v hx' hy _ huv => by
    cases hx.symm.trans hx'
    exact hf y _ v hy huv

/-- A reader that looks at the next token and only ever succeeds where it reads it. Where the second
text ends, it does not matter what the second reader does, which may as well see a token that is
alike. -/
theorem look_echo {F : Token → Parser α} {G : Token → Parser β} (h : s.Along c n k t)
    (hF : ∀ x z r, s.Next x → x.Resembles z → (¬ s.Brink c 0 → r = G z) →
      (¬ s.Brink c 0 → t.Next z ∧ x.Kin z ∧ (x.content ≠ .endOfInput → x.Contained)) →
      Echo c (F x) r s t Q) :
    Echo c (peek 0 >>= F) (peek 0 >>= G) s t Q := by
  refine .bind (peek_echo h fun x y hx seen => ?_)
  obtain ⟨z, alike, away⟩ := seen.alike
  refine hF x z _ hx alike (fun far => congrArg G (away far).1.symm) fun far => ?_
  rw [(away far).1]
  exact (away far).2

/-- A test of the next token. -/
theorem test_echo {test : Token → Bool} (tells : Token.Telling test)
    {Q : Bool → Bool → Stream → Stream → Prop} (h : s.Along c n k t)
    (hQ : ∀ x b, s.Next x → s.Told c 0 (test x) b → Q (test x) b s t) :
    Echo c (return test (← peek 0)) (return test (← peek 0)) s t Q :=
  .bind (peek_echo h fun x _ hx seen => .pure id (hQ x _ hx (seen.told tells)))

theorem atOperator_echo {o : String} {Q : Bool → Bool → Stream → Stream → Prop}
    (h : s.Along c n k t) (hQ : ∀ x b, s.Next x → s.Told c 0 (x.isOperator o) b →
      Q (x.isOperator o) b s t) : Echo c (atOperator o) (atOperator o) s t Q :=
  test_echo (Token.telling_isOperator o) h hQ

theorem atKeyword_echo {w : String} {Q : Bool → Bool → Stream → Stream → Prop}
    (h : s.Along c n k t) (hQ : ∀ x b, s.Next x → s.Told c 0 (x.isKeyword w) b →
      Q (x.isKeyword w) b s t) : Echo c (atKeyword w) (atKeyword w) s t Q :=
  test_echo (Token.telling_isKeyword w) h hQ

theorem atDelimiter_echo {d : String} {Q : Bool → Bool → Stream → Stream → Prop}
    (h : s.Along c n k t) (hQ : ∀ x b, s.Next x → s.Told c 0 (x.isDelimiter d) b →
      Q (x.isDelimiter d) b s t) : Echo c (atDelimiter d) (atDelimiter d) s t Q :=
  test_echo (Token.telling_isDelimiter d) h hQ

end

section

variable {α β γ δ : Type} {c : Cut} {n k K : Nat} {s t : Stream}
  {p q q' : Parser α} {f : α → γ}

/-- From these streams, the first reader reads a token whenever it succeeds, and the second one
gives, as far as `f` tells, the same of a text that nests no deeper than `K`. -/
def EchoesAt (f : α → γ) (K : Nat) (p q : Parser α) (s t : Stream) : Prop :=
  ∀ ⦃c n k⦄, k ≤ K → s.Along c n k t →
    Echo c p q s t fun a b u v => f b = f a ∧ u.Along c (n - 1) k v

/-- The first reader reads a token whenever it succeeds, and the second one gives, as far as `f`
tells, the same of a text that nests no deeper than `K`. -/
def Echoes (f : α → γ) (K : Nat) (p q : Parser α) : Prop :=
  ∀ s t, EchoesAt f K p q s t

/-- A reader of more tokens than are left of the second text. -/
theorem loses_of_echo {R : α → α → Prop} {i : Nat} (h : s.Along c n k t) (brink : s.Brink c i)
    (he : ∀ m, s.Along c m k t →
      Echo c p q s t fun a b u v => R a b ∧ u.Along c (m - (i + 1)) k v) :
    Loses c p s := by
  intro a u ha
  rcases h with kin | lost
  · have length := kin.length
    have bound := brink.2
    have kin : s.Kin c (i + 2) k t := kin.rebound (by omega)
    obtain ⟨-, b, v, ⟨-, along⟩, -⟩ := he (i + 2) (.inl kin) a u ha
    exact (along.mono (by omega) (Nat.le_refl k)).lost
  · exact (he 0 (.inr lost) a u ha).1 lost

/-- Where the second text has no more tokens than the first reader is known to read, it does not
matter what the second reader does. -/
theorem Echo.read {R : α → α → Prop} {i : Nat} (h : s.Along c n k t)
    (he : ∀ m, s.Along c m k t →
      Echo c p q s t fun a b u v => R a b ∧ u.Along c (m - (i + 1)) k v)
    (right : ¬ s.Brink c i → q' = q) :
    Echo c p q' s t fun a b u v => R a b ∧ u.Along c (n - (i + 1)) k v := by
  by_cases brink : s.Brink c i
  · exact Echo.elsewhere (he n h) (loses_of_echo h brink he)
  · rw [right brink]
    exact he n h

/-- The same, where the readers go on. -/
theorem Echo.read_bind {R : α → α → Prop} {i : Nat} {g : α → Parser β} {g' : α → Parser δ}
    {r : Parser δ} {Q : β → δ → Stream → Stream → Prop} (h : s.Along c n k t)
    (he : ∀ m, s.Along c m k t →
      Echo c p q s t fun a b u v => R a b ∧ u.Along c (m - (i + 1)) k v)
    (right : ¬ s.Brink c i → r = q >>= g')
    (hg : ∀ a b u v, R a b → u.Along c (n - (i + 1)) k v → Echo c (g a) (g' b) u v Q) :
    Echo c (p >>= g) r s t Q := by
  have both := (he n h).mono fun a b u v ⟨hab, huv⟩ => hg a b u v hab huv
  by_cases brink : s.Brink c i
  · exact Echo.bind_elsewhere both (loses_of_echo h brink he)
  · rw [right brink]
    exact .bind both

/-- Where the second text ends, it does not matter what the second reader does. -/
theorem EchoesAt.read (he : EchoesAt f K p q s t) (hk : k ≤ K) (h : s.Along c n k t)
    (right : ¬ s.Brink c 0 → q' = q) :
    Echo c p q' s t fun a b u v => f b = f a ∧ u.Along c (n - 1) k v :=
  Echo.read (R := fun a b => f b = f a) h (fun _ h => he hk h) right

/-- The same, where the readers go on. -/
theorem EchoesAt.read_bind {g : α → Parser β} {g' : α → Parser δ} {r : Parser δ}
    {Q : β → δ → Stream → Stream → Prop} (he : EchoesAt f K p q s t) (hk : k ≤ K)
    (h : s.Along c n k t) (right : ¬ s.Brink c 0 → r = q >>= g')
    (hg : ∀ a b u v, f b = f a → u.Along c (n - 1) k v → Echo c (g a) (g' b) u v Q) :
    Echo c (p >>= g) r s t Q :=
  Echo.read_bind h (fun _ h => he hk h) right hg

end

/-! ## Branches -/

section

variable {α β γ δ : Type} {c : Cut} {n k j K : Nat} {s t : Stream} {x : Token}
  {b b' : Bool} {Q : α → β → Stream → Stream → Prop}

/-- A branch by what a test tells. Where only the first text has a token that passes it, it does not
matter what the second reader does. -/
theorem Echo.ite {p p' : Parser α} {q q' : Parser β} (told : s.Told c j b b')
    (yes : b → ∀ r, (¬ s.Brink c j → r = q) → Echo c p r s t Q)
    (no : ¬ b → Echo c p' q' s t Q) :
    Echo c (if b then p else p') (if b' then q else q') s t Q := by
  by_cases found : b
  · rw [if_pos found]
    exact yes found _ fun away => if_pos ((told.same away).trans found)
  · rw [if_neg found, if_neg (told.none found)]
    exact no found

/-- A branch that reads the token that was tested. -/
theorem Echo.ite_take {f : Token → Parser α} {f' : Token → Parser β} {p : Parser α} {p' : Parser β}
    (told : s.Told c 0 b b') (h : s.Along c n k t) (hx : s.Next x)
    (real : b → x.content ≠ .endOfInput)
    (yes : b → ∀ y u v, y.lexeme = x.lexeme → u.Along c (n - 1) (k - 1) v →
      Echo c (f x) (f' y) u v Q)
    (no : ¬ b → Echo c p p' s t Q) :
    Echo c (if b then advance >>= f else p) (if b' then advance >>= f' else p') s t Q :=
  Echo.ite told (fun found _ right => taken_echo h hx (real found) right (yes found)) no

/-- A branch that starts with a reader. -/
theorem Echo.ite_read {f : γ → δ} {p q : Parser γ} {g : γ → Parser α} {g' : γ → Parser β}
    {r : Parser α} {r' : Parser β} (told : s.Told c 0 b b') (he : EchoesAt f K p q s t)
    (hk : k ≤ K) (h : s.Along c n k t)
    (yes : b → ∀ x y u v, f y = f x → u.Along c (n - 1) k v → Echo c (g x) (g' y) u v Q)
    (no : ¬ b → Echo c r r' s t Q) :
    Echo c (if b then p >>= g else r) (if b' then q >>= g' else r') s t Q :=
  Echo.ite told (fun found _ right => he.read_bind hk h right (yes found)) no

/-- A token that has to be there. -/
theorem needed_echo {test : Token → Bool} {expected : Expected} (tells : Token.Telling test)
    {Q : Token → Token → Stream → Stream → Prop} (h : s.Along c n k t)
    (hQ : ∀ x y u v, s.Next x → test x → y.lexeme = x.lexeme →
      u.Along c (n - 1) (k - 1) v → Q x y u v) :
    Echo c ((do return test (← peek 0) : Parser Bool) >>= fun found =>
        if found then advance else unexpected expected)
      ((do return test (← peek 0) : Parser Bool) >>= fun found =>
        if found then advance else unexpected expected) s t Q := by
  refine .bind (test_echo tells h fun x b hx told => ?_)
  rw [← bind_pure advance]
  exact Echo.ite_take told h hx tells.real
    (fun found y u v hy huv => .pure id (hQ x y u v hx found hy huv)) fun _ => .unexpected

theorem operator_echo {o : String} {Q : Token → Token → Stream → Stream → Prop}
    (h : s.Along c n k t) (hQ : ∀ x y u v, s.Next x → x.isOperator o → y.lexeme = x.lexeme →
      u.Along c (n - 1) (k - 1) v → Q x y u v) : Echo c (operator o) (operator o) s t Q :=
  needed_echo (Token.telling_isOperator o) h hQ

theorem keyword_echo {w : String} {Q : Token → Token → Stream → Stream → Prop}
    (h : s.Along c n k t) (hQ : ∀ x y u v, s.Next x → x.isKeyword w → y.lexeme = x.lexeme →
      u.Along c (n - 1) (k - 1) v → Q x y u v) : Echo c (keyword w) (keyword w) s t Q :=
  needed_echo (Token.telling_isKeyword w) h hQ

theorem delimiter_echo {d : String} {Q : Token → Token → Stream → Stream → Prop}
    (h : s.Along c n k t) (hQ : ∀ x y u v, s.Next x → x.isDelimiter d → y.lexeme = x.lexeme →
      u.Along c (n - 1) (k - 1) v → Q x y u v) : Echo c (delimiter d) (delimiter d) s t Q :=
  needed_echo (Token.telling_isDelimiter d) h hQ

/-- The spans of what was read are of no matter. -/
theorem spanFrom_echo {start start' : Token} {Q : Option Span → Option Span → Stream → Stream → Prop}
    (hQ : ∀ span span', Q span span' s t) :
    Echo c (spanFrom start) (spanFrom start') s t Q := by
  rintro _ _ ⟨⟩
  exact ⟨id, _, t, hQ _ _, .inl rfl⟩

end

/-! ## Loops -/

section

variable {α γ δ ε : Type} {c : Cut} {n k : Nat} {s t : Stream} {f : α → γ}

/-- The loop that collects results, by what of each of them is the same. -/
theorem many_echo {step step' : Parser (Option α)} (h : s.Along c n k t)
    (hstep : ∀ m ≤ n, ∀ s t, s.Along c m k t → Echo c step step' s t
      (Paired (fun u v => u.Along c m k v) fun a b u v =>
        f b = f a ∧ u.Along c (m - 1) k v)) :
    Echo c (many step) (many step') s t fun as bs u v =>
      bs.map f = as.map f ∧ u.Along c n k v := by
  refine iterate_trails (R := fun m as bs u v =>
    bs.map f = as.map f ∧ u.Along c (min m n) k v)
    (fun as bs u v huv => ?_) (fun m as bs u v ⟨hbs, huv⟩ => ?_) ⟨rfl, h.rebound⟩
  · rw [Nat.zero_min] at huv
    exact huv.2.lost_zero
  · refine .bind ((hstep _ (Nat.min_le_right m n) u v huv).mono fun r r' u v hr => .pure id ?_)
    cases r with
    | none =>
      cases r' with
      | none => exact ⟨hbs, hr.mono (Nat.min_le_right m n) (Nat.le_refl k)⟩
      | some b => exact hr.elim
    | some a =>
      cases r' with
      | none => exact hr.elim
      | some b =>
        refine ⟨?_, hr.2.mono (by omega) (Nat.le_refl k)⟩
        rw [List.map_append, List.map_append, hbs, List.map_singleton, List.map_singleton, hr.1]

theorem commaSeparated_echo {item item' : Parser α}
    (hitem : ∀ m ≤ n, ∀ s t, s.Along c m k t → Echo c item item' s t fun a b u v =>
      f b = f a ∧ u.Along c (m - 1) k v) (h : s.Along c n k t) :
    Echo c (commaSeparated item) (commaSeparated item') s t fun as bs u v =>
      bs.map f = as.map f ∧ u.Along c (n - 1) k v := by
  refine .bind ((hitem n (Nat.le_refl n) s t h).mono fun a b u v ⟨hab, huv⟩ => ?_)
  refine .bind ((many_echo (f := f) huv fun m hm u v huv => ?_).mono fun as bs u v ⟨has, huv⟩ =>
    .pure id ⟨?_, huv⟩)
  · refine .bind (atDelimiter_echo huv fun x b hx told => ?_)
    refine Echo.ite_take told huv hx Token.isDelimiter_content (fun _ _ u v _ huv => ?_)
      fun _ => .pure id huv
    have huv := huv.mono (Nat.le_refl _) (Nat.sub_le k 1)
    exact .bind ((hitem _ (by omega) u v huv).mono fun a b u v hab =>
      .pure id ⟨hab.1, hab.2.mono (Nat.sub_le _ 1) (Nat.le_refl k)⟩)
  · rw [List.map_cons, List.map_cons, hab, has]

/-- Items in parentheses, of which there may be none, from behind the opening one on; `rest` is what
follows. -/
theorem listed_echo {item item' : Parser α} {g : List α → Parser δ} {g' : List α → Parser ε}
    {Q : δ → ε → Stream → Stream → Prop}
    (hitem : ∀ m ≤ n, ∀ s t, s.Along c m k t → Echo c item item' s t fun a b u v =>
      f b = f a ∧ u.Along c (m - 1) k v)
    (hg : ∀ as bs u v, bs.map f = as.map f → u.Along c (n - 1) (k - 1) v →
      Echo c (g as) (g' bs) u v Q) (h : s.Along c n k t) :
    Echo c
      (do
        if ← atDelimiter ")" then Pure.pure [] >>= fun as => delimiter ")" >>= fun _ => g as
        else commaSeparated item >>= fun as => delimiter ")" >>= fun _ => g as)
      (do
        if ← atDelimiter ")" then Pure.pure [] >>= fun as => delimiter ")" >>= fun _ => g' as
        else commaSeparated item' >>= fun as => delimiter ")" >>= fun _ => g' as)
      s t Q := by
  refine .bind (atDelimiter_echo h fun x b hx told => ?_)
  simp only [pure_bind]
  refine Echo.ite told (fun _ r right => ?_) fun _ => ?_
  · have both : Echo c (delimiter ")") (delimiter ")") s t fun _ _ u v =>
        Echo c (g []) (g' []) u v Q :=
      delimiter_echo h fun _ _ u v _ _ _ huv => hg [] [] u v rfl huv
    by_cases brink : s.Brink c 0
    · exact Echo.bind_elsewhere both (loses_of_reads delimiter_wp brink)
    · rw [right brink]
      exact .bind both
  · refine .bind ((commaSeparated_echo hitem h).mono fun as bs u v ⟨has, huv⟩ => ?_)
    exact .bind (delimiter_echo huv fun _ _ u v _ _ _ huv =>
      hg as bs u v has (huv.mono (Nat.sub_le _ 1) (Nat.le_refl _)))

end

/-! ## Types -/

section

variable {c : Cut} {n k K : Nat} {s t : Stream}

theorem typeWith_echo {type type' : Parser Ty}
    (ht : ∀ m ≤ n - 1, ∀ k s t, s.Along c m k t → Echo c type type' s t fun a b u v =>
      b = a ∧ u.Along c (m - 1) k v) (h : s.Along c n k t) :
    Echo c (typeWith type) (typeWith type') s t fun a b u v =>
      b = a ∧ u.Along c (n - 1) k v := by
  refine look_echo h fun x z r hx alike right _ => ?_
  by_cases word : x.content = .word
  · rw [if_neg (not_not.mpr word)]
    rw [if_neg (not_not.mpr ((alike.content_iff (c := .word) rfl).mpr word)), alike.lexeme] at right
    refine taken_echo h hx (by simp [word]) right fun _ u v _ huv => ?_
    refine Trails.ite Iff.rfl (fun _ => ?_) fun _ => ?_
    · refine .bind (delimiter_echo huv fun _ _ u v _ _ _ huv => ?_)
      refine listed_echo (f := id) (fun m hm s t hst => ht m (by omega) _ s t hst)
        (fun as bs u v same huv => ?_) huv
      rw [List.map_id, List.map_id] at same
      subst same
      refine .bind (operator_echo huv fun _ _ u v _ _ _ huv => ?_)
      refine .bind (.mono (ht _ (by omega) _ u v huv) ?_)
      rintro a _ u v ⟨rfl, huv⟩
      exact .pure id ⟨rfl, huv.mono (by omega) (by omega)⟩
    · cases Ty.ofName? x.lexeme with
      | some ty => exact .pure id ⟨rfl, huv.mono (Nat.le_refl _) (Nat.sub_le k 1)⟩
      | none => exact .throw
  · rw [if_pos word]
    exact .unexpected

theorem typeUpTo_echo {j m : Nat} (hm : n ≤ m) (h : s.Along c n k t) :
    Echo c (typeUpTo j) (typeUpTo m) s t fun a b u v => b = a ∧ u.Along c (n - 1) k v := by
  induction j generalizing n m k s t with
  | zero => exact .throw
  | succ j ih =>
    have next (m : Nat) (hm : n ≤ m + 1) : Echo c (typeUpTo (j + 1)) (typeUpTo (m + 1)) s t
        fun a b u v => b = a ∧ u.Along c (n - 1) k v :=
      typeWith_echo (fun _ hl _ _ _ h => ih (by omega) h) h
    cases m with
    | zero =>
      obtain rfl : n = 0 := Nat.le_zero.mp hm
      exact (next 0 (Nat.zero_le 1)).lost h.lost_zero
    | succ m => exact next m hm

theorem type_echo (h : s.Along c n k t) :
    Echo c type type s t fun a b u v => b = a ∧ u.Along c (n - 1) k v := by
  refine .bind (.get ((typeUpTo_echo (Nat.min_le_left _ n) h.rebound).mono ?_))
  exact fun a b u v ⟨hb, huv⟩ => ⟨hb, huv.mono (by omega) (Nat.le_refl k)⟩

theorem declaredType_echo (h : s.Along c n k t) :
    Echo c declaredType declaredType s t fun a b u v => b = a ∧ u.Along c n k v := by
  refine .bind (atOperator_echo h fun x b hx told => ?_)
  refine Echo.ite_take told h hx Token.isOperator_content (fun _ _ u v _ huv => ?_)
    fun _ => .pure id ⟨rfl, h⟩
  refine .bind (.mono (type_echo huv) ?_)
  rintro a _ u v ⟨rfl, huv⟩
  exact .pure id ⟨rfl, huv.mono (by omega) (by omega)⟩

end

end Parser

end Sigil
