import Sigil.Proofs.Node.Mirrored
import Sigil.Proofs.Node.Operations
import Sigil.Proofs.Token.Completable

/-!
# A text with more behind it

A text ends somewhere in a construct, and more is written behind it, in a new
line: tokens with spaces between them (`Filler`). The longer text is cut into
the tokens of the text, which are as they were but for what is within strings
(`Token.moved_newLine`), and those that were written behind it
(`Stream.Resumed`). What is ahead in the text is ahead in the longer one
(`Resumed.peek`); where the text ends, the longer one goes on, after a space
(`Resumed.peek_end`).
-/

namespace Sigil

/-- A token that can be written behind a text, with a space before it. -/
abbrev Filler := {m : Mark // m.Proper}

/-- Such tokens as they are written. -/
def Filler.chunks (fs : List Filler) : List Chunk :=
  fs.map fun f => ⟨true, f.1⟩

/-- Nothing but what is within a string sees that the text goes on. -/
theorem Token.moved_newLine {t : Token} (h : ∀ parts, t.content ≠ .string parts)
    (line : List Char) : t.moved (.newLine line) = t := by
  obtain ⟨content, lexeme, span⟩ := t
  cases content with
  | string parts => exact absurd rfl (h parts)
  | _ => rfl

/-! ## Streams -/

namespace Stream

/-- The text ends with the tokens ahead, without a fault. -/
structure Ends (s : Stream) : Prop where
  sound : s.error = none
  ahead : ∃ ts e, s.ahead = ts ++ [e] ∧ e.content = .endOfInput ∧
    ∀ x ∈ ts, x.content ≠ .endOfInput

/-- The second stream has the same tokens ahead as the first, and where the first ends, tokens that
were written behind the text in a new line. -/
structure Resumed (line : List Char) (fs : List Filler) (s t : Stream) : Prop where
  more : fs ≠ []
  sound : t.error = none
  ahead : ∃ ts e us, s.ahead = ts ++ [e] ∧ t.ahead = ts.map (·.moved (.newLine line)) ++ us ∧
    e.content = .endOfInput ∧ Token.Say us (Filler.chunks fs) ∧
    ∀ x ∈ ts, x.content ≠ .endOfInput ∧ ∀ u ∈ us.head?, Parser.adjacent x u = false
  previous : t.previous = s.previous.map (·.moved (.newLine line))

variable {s t : Stream} {line : List Char} {fs : List Filler}

/-- Beyond the tokens there is only the end of the text. -/
theorem peek_ending {ts : List Token} {e : Token} (sound : s.error = none)
    (ahead : s.ahead = ts ++ [e]) (k : Nat) : s.peek k = .ok (ts[k]?.getD e) := by
  rw [peek, ahead, sound, List.getElem?_append]
  split_ifs with inside
  · rw [List.getElem?_eq_getElem inside]
    rfl
  · rw [List.getElem?_eq_none (Nat.le_of_not_lt inside), List.getLast?_concat]
    cases h : [e][k - ts.length]? with
    | none => rfl
    | some x =>
      have mem := List.mem_of_getElem? h
      rw [List.mem_singleton.mp mem]
      rfl

namespace Ends

/-- There is a token to see at each place. -/
theorem peek (h : s.Ends) (k : Nat) : ∃ x, s.peek k = .ok x := by
  obtain ⟨ts, e, ahead, -, -⟩ := h.ahead
  exact ⟨_, peek_ending h.sound ahead k⟩

theorem ended (h : s.Ends) {x : Token} (hx : s.Next x) (spent : x.content = .endOfInput) :
    s.Over := by
  obtain ⟨ts, e, ahead, he, real⟩ := h.ahead
  cases ts with
  | nil => exact ⟨e, [], ahead, he⟩
  | cons y ys =>
    cases hx.symm.trans (next_of_ahead ahead)
    exact absurd spent (real x List.mem_cons_self)

/-- The stream ends here, or there is a token of the text to be read. -/
theorem cases (h : s.Ends) : s.Over ∨ ∃ x, s.Next x ∧ x.content ≠ .endOfInput := by
  obtain ⟨x, hx⟩ := h.peek 0
  exact (em (x.content = .endOfInput)).imp (h.ended hx) fun real => ⟨x, hx, real⟩

theorem pop (h : s.Ends) {x : Token} (hx : s.Next x) (real : x.content ≠ .endOfInput) :
    (s.pop x).Ends := by
  obtain ⟨ts, e, ahead, he, reals⟩ := h.ahead
  rw [Stream.pop, if_neg real]
  refine ⟨h.sound, ?_⟩
  cases ts with
  | nil =>
    cases hx.symm.trans (next_of_ahead ahead)
    exact absurd he real
  | cons y ys => exact ⟨ys, e, by simp [ahead], he, fun x hx => reals x (List.mem_cons_of_mem _ hx)⟩

/-- What is behind the first token. -/
theorem peek_pop (h : s.Ends) {x : Token} (hx : s.Next x) (real : x.content ≠ .endOfInput)
    (k : Nat) : (s.pop x).peek k = s.peek (k + 1) := by
  obtain ⟨ts, e, ahead, he, -⟩ := h.ahead
  cases ts with
  | nil =>
    cases hx.symm.trans (next_of_ahead ahead)
    exact absurd he real
  | cons y ys =>
    have rest : (s.pop x).ahead = ys ++ [e] := by
      rw [Stream.pop, if_neg real, ahead]
      rfl
    rw [peek_ending (h.pop hx real).sound rest, peek_ending h.sound ahead, List.getElem?_cons_succ]

/-- A variable is all that is left of the text. -/
theorem says_variable (h : s.Ends) {x y : Token} {name : String} (hx : s.Next x)
    (content : x.content = .variable name) (hy : s.peek 1 = .ok y)
    (spent : y.content = .endOfInput) : s.Says [⟨true, .variable name⟩] := by
  obtain ⟨ts, e, ahead, he, real⟩ := h.ahead
  rw [peek_ending h.sound ahead] at hy
  match ts with
  | [] =>
    cases hx.symm.trans (next_of_ahead ahead)
    cases content.symm.trans he
  | [z] =>
    cases hx.symm.trans (next_of_ahead ahead)
    exact ⟨h.sound, ahead ▸ ⟨content, nofun, he⟩⟩
  | z :: w :: ts =>
    cases hy
    exact absurd spent (real w (List.mem_cons_of_mem _ List.mem_cons_self))

end Ends

theorem Over.not_real (h : s.Over) {x : Token} (hx : s.Next x) : x.content = .endOfInput := by
  obtain ⟨e, he, spent⟩ := h.next
  cases he.symm.trans hx
  exact spent

theorem Says.ended (h : s.Says []) : s.Over := by
  obtain ⟨e, ahead⟩ := List.length_eq_one_iff.mp h.length
  have said := h.2
  rw [ahead] at said
  exact ⟨e, [], ahead, said⟩

namespace Resumed

/-- A token that the first stream has at a place. -/
theorem peek (h : s.Resumed line fs t) (hs : s.Ends) {k : Nat} {x : Token} (hx : s.peek k = .ok x)
    (real : x.content ≠ .endOfInput) : t.peek k = .ok (x.moved (.newLine line)) := by
  obtain ⟨ts, e, us, ahead, ahead', he, -, -⟩ := h.ahead
  rw [peek_ending hs.sound ahead] at hx
  cases inside : ts[k]? with
  | none =>
    rw [inside] at hx
    cases hx
    exact absurd he real
  | some y =>
    rw [inside] at hx
    cases hx
    refine peek_of_ahead ?_
    rw [ahead', List.getElem?_append_left, List.getElem?_map, inside]
    · rfl
    · rw [List.length_map]
      exact (List.getElem?_eq_some_iff.mp inside).1

/-- What the second stream has where the first ends, right behind a token. -/
theorem peek_end (h : s.Resumed line fs t) (hs : s.Ends) {k : Nat} {x y : Token}
    (hx : s.peek k = .ok x) (real : x.content ≠ .endOfInput) (hy : s.peek (k + 1) = .ok y)
    (spent : y.content = .endOfInput) : ∃ u, t.peek (k + 1) = .ok u ∧
      Parser.adjacent x u = false ∧ u.plain = nextToken (Filler.chunks fs) := by
  obtain ⟨ts, e, us, ahead, ahead', he, said, reals⟩ := h.ahead
  rw [peek_ending hs.sound ahead] at hx hy
  cases inside : ts[k]? with
  | none =>
    rw [inside] at hx
    cases hx
    exact absurd he real
  | some z =>
    rw [inside] at hx
    cases hx
    cases last : ts[k + 1]? with
    | some z =>
      rw [last] at hy
      cases hy
      exact absurd spent (reals _ (List.mem_of_getElem? last)).1
    | none =>
      have long := (List.getElem?_eq_some_iff.mp inside).1
      have short := List.getElem?_eq_none_iff.mp last
      -- what is left of the second stream says the tokens behind the text
      have rest : Stream.Says ⟨us, none, false, none, 0⟩ (Filler.chunks fs) := ⟨rfl, said⟩
      obtain ⟨u, hu, look⟩ := rest.next
      cases us with
      | nil =>
        have := rest.length
        cases this
      | cons v vs =>
        cases hu.symm.trans (next_of_ahead rfl)
        refine ⟨u, peek_of_ahead ?_, ?_, look⟩
        · rw [ahead', List.getElem?_append_right (by rwa [List.length_map]), List.length_map,
            show k + 1 - ts.length = 0 by omega]
          rfl
        · exact (reals _ (List.mem_of_getElem? inside)).2 u rfl

/-- What is behind a token in both: the same token, or one that a space is before. -/
theorem beside (h : s.Resumed line fs t) (hs : s.Ends) {k : Nat} {x y : Token}
    (hx : s.peek k = .ok x) (real : x.content ≠ .endOfInput) (hy : s.peek (k + 1) = .ok y) :
    ∃ u, t.peek (k + 1) = .ok u ∧
      (y.content ≠ .endOfInput ∧ u = y.moved (.newLine line) ∨
        y.content = .endOfInput ∧ Parser.adjacent x u = false) := by
  by_cases spent : y.content = .endOfInput
  · obtain ⟨u, hu, apart, -⟩ := h.peek_end hs hx real hy spent
    exact ⟨u, hu, .inr ⟨spent, apart⟩⟩
  · exact ⟨_, h.peek hs hy spent, .inl ⟨spent, rfl⟩⟩

/-- There is a token to see at each place. -/
theorem peek_sound (h : s.Resumed line fs t) (k : Nat) : ∃ u, t.peek k = .ok u := by
  rw [Stream.peek, h.sound]
  cases t.ahead[k]? with
  | none => exact ⟨_, rfl⟩
  | some u => exact ⟨u, rfl⟩

theorem pop (h : s.Resumed line fs t) {x : Token} (hx : s.Next x) (real : x.content ≠ .endOfInput) :
    (s.pop x).Resumed line fs (t.pop (x.moved (.newLine line))) := by
  obtain ⟨ts, e, us, ahead, ahead', he, said, reals⟩ := h.ahead
  have real' : ¬ (x.moved (.newLine line)).content = .endOfInput := by
    rwa [Token.content_moved]
  cases ts with
  | nil =>
    cases hx.symm.trans (next_of_ahead ahead)
    exact absurd he real
  | cons y ys =>
    cases hx.symm.trans (next_of_ahead ahead)
    rw [Stream.pop, if_neg real, Stream.pop, if_neg real']
    refine ⟨h.more, h.sound, ⟨ys, e, us, by simp [ahead], by simp [ahead'], he, said, ?_⟩, rfl⟩
    exact fun z hz => reals z (List.mem_cons_of_mem _ hz)

/-- Where the first stream is over, the second has what was written behind the text. -/
theorem said (h : s.Resumed line fs t) (ended : s.Over) : t.Says (Filler.chunks fs) := by
  obtain ⟨ts, e, us, ahead, ahead', he, said, reals⟩ := h.ahead
  obtain ⟨x, xs, first, spent⟩ := ended
  cases ts with
  | nil => exact ⟨h.sound, by rwa [ahead', List.map_nil, List.nil_append]⟩
  | cons y ys =>
    rw [ahead] at first
    cases first
    exact absurd spent (reals x List.mem_cons_self).1

theorem length_lt (h : s.Resumed line fs t) : s.ahead.length < t.ahead.length := by
  obtain ⟨ts, e, us, ahead, ahead', -, said, -⟩ := h.ahead
  have written := Says.say_length said
  have some := List.length_pos_iff.mpr h.more
  rw [Filler.chunks, List.length_map] at written
  rw [ahead, ahead', List.length_append, List.length_append, List.length_map, written]
  exact Nat.add_lt_add_left (Nat.succ_lt_succ some) _

end Resumed

end Stream

end Sigil
