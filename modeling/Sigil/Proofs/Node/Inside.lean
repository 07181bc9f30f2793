import Sigil.Proofs.Node.Enclosed
import Sigil.Proofs.Node.Entries

/-!
# Entries and expressions in parentheses

Given readers of expressions of which the second reads what the first reads,
where it stands in the longer text (`Parser.Tracks`), entries are read alike by
both (`Parser.entries_trails`), whatever closes them (`Border.Closes`): the
same mark in both texts, or the closing parenthesis in the first and the end in
the second. Then the pieces of the grammar are taken one by one
(`Parser.tracks_expressionUpTo`).
-/

namespace Sigil

variable {e : Embedding}

namespace Border

variable (c : Border e)

/-- The first reader is at a closing parenthesis of the text, or has read the one after it. -/
def Early (s : Stream) : Prop :=
  c.Passed s ∨ ∃ x ∈ c.tokens, x.isDelimiter ")" ∧ s.Next x

/-- What closes entries for the two readers, and when the first is lost with them. -/
inductive Closes : Option String → Option String → (Stream → Prop) → Prop
  | brace : Closes (some "\x7d") (some "\x7d") c.Passed
  | parenthesis : Closes (some ")") (some ")") c.Lost
  | ending (plain : ∀ s, ¬ c.Lost s) : Closes none none c.Passed
  | border {mark stop : Token} (ends : c.ending = [mark, stop]) : Closes (some ")") none c.Early

end Border

namespace Parser

theorem run_atClosing (closing : Option String) (s : Stream) :
    (atClosing closing).run s = s.peek 0 >>= fun x => .ok (closes closing x, s) := by
  cases closing with
  | none =>
    rw [atClosing, StateT.run_bind, run_peek]
    cases s.peek 0 <;> rfl
  | some d =>
    rw [atClosing, atDelimiter, StateT.run_bind, run_peek]
    cases s.peek 0 <;> rfl

end Parser

namespace Border

variable {c : Border e} {cl cl' : Option String} {L : Stream → Prop} {s : Stream}

theorem Passed.reads {n : Nat} {t : Stream} (h : c.Passed s) (hr : s.Reads n t) : c.Passed t := by
  obtain ⟨mark, stop, ending, he, hs⟩ := h
  obtain ⟨read, ahead, -, real⟩ := hr
  refine ⟨mark, stop, ending, he, ?_⟩
  cases read with
  | nil => rw [← hs, ahead, List.nil_append]
  | cons x read =>
    rw [hs, List.cons_append] at ahead
    obtain ⟨rfl, -⟩ := List.cons.inj ahead
    exact absurd he (real stop List.mem_cons_self)

theorem Closes.passed (h : c.Closes cl cl' L) : c.Passed s → L s := by
  cases h with
  | brace | ending => exact id
  | parenthesis | border => exact .inl

/-- Where the first reader is lost, it is before a closing parenthesis or after the last. -/
theorem Closes.lost (h : c.Closes cl cl' L) (lost : L s) :
    c.Passed s ∨ ∃ x, s.Next x ∧ x.isDelimiter ")" ∧ Parser.closes cl x := by
  cases h with
  | brace | ending => exact .inl lost
  | parenthesis =>
    refine lost.imp_right ?_
    rintro ⟨mark, stop, -, -, hm, hs⟩
    exact ⟨mark, Stream.next_of_ahead hs, hm, hm⟩
  | border => exact lost.imp_right fun ⟨x, _, hd, hx⟩ => ⟨x, hx, hd, hd⟩

/-- The readers see the same, unless the first is lost. -/
theorem Closes.agree (h : c.Closes cl cl' L) (found : ¬ c.Passed s) {x y : Token}
    (hx : s.Next x) (met : c.Met s x y) :
    Parser.closes cl' y = Parser.closes cl x ∨ Parser.closes cl x ∧ L s := by
  have notEnd (z : Token) (hz : z.content = .endOfInput) (d : String) :
      z.isDelimiter d = false := by
    simp [Token.isDelimiter, hz]
  cases h with
  | brace => exact .inl (met.beside.isDelimiter (by decide))
  | parenthesis =>
    rcases met with ⟨rfl, -⟩ | ⟨hy, ⟨hd, lost⟩ | ⟨he, -⟩⟩
    · exact .inl (Token.isDelimiter_embedded x ")")
    · exact .inr ⟨hd, lost⟩
    · exact .inl ((notEnd y hy ")").trans (notEnd x he ")").symm)
  | ending plain =>
    rcases met with ⟨rfl, -⟩ | ⟨hy, ⟨-, lost⟩ | ⟨he, -⟩⟩
    · exact .inl (decide_eq_decide.mpr (Token.content_embedded x))
    · exact absurd lost (plain s)
    · exact .inl ((decide_eq_true hy).trans (decide_eq_true he).symm)
  | border ends =>
    rcases met with ⟨rfl, inside | passed⟩ | ⟨hy, ⟨hd, -⟩ | ⟨-, alone⟩⟩
    · have no : Parser.closes none (x.embedded e) = false :=
        decide_eq_false ((Token.content_embedded x).not.mpr (c.real x inside))
      cases hd : x.isDelimiter ")" with
      | false => exact .inl (no.trans hd.symm)
      | true => exact .inr ⟨hd, .inr ⟨x, inside, hd, hx⟩⟩
    · exact absurd passed found
    · exact .inl ((decide_eq_true hy).trans hd.symm)
    · cases ends.symm.trans alone

/-- The same tree was read from both streams, where it stands in each. -/
def Gives (c : Border e) (n depth : Nat) (x x' : Node) (u v : Stream) : Prop :=
  x' = x.relabel e.relabel ∧ c.Along n depth true u v

/-- The streams are near each other, unless the first reader is lost as `L` says. -/
def Still (c : Border e) (L : Stream → Prop) (n depth : Nat) (b : Bool) (s t : Stream) : Prop :=
  c.Near n depth b s t ∨ L s

/-- An entry was read from both streams, or none from either, unless the first reader is lost. -/
def Entered (c : Border e) (L : Stream → Prop) (n depth : Nat) (b : Bool) :
    Option Node → Option Node → Stream → Stream → Prop :=
  Parser.Paired (c.Still L n depth b) fun x x' u v =>
    x' = x.relabel e.relabel ∧ c.Still L (n - 1) depth true u v

theorem Along.still {n depth : Nat} {b : Bool} {t : Stream} (h : c.Along n depth b s t)
    (closes : c.Closes cl cl' L) : c.Still L n depth b s t :=
  h.imp_right closes.passed

theorem Still.mono {n m depth : Nat} {b : Bool} {t : Stream} (h : c.Still L n depth b s t)
    (hnm : n ≤ m) : c.Still L m depth b s t :=
  h.imp_left fun near => { near with bound := near.bound.trans_le hnm }

theorem Still.later {n depth : Nat} {t : Stream} (h : c.Still L n depth true s t) (b : Bool) :
    c.Still L n depth b s t :=
  h.imp_left fun near => { near with previous := fun _ => near.previous rfl }

end Border

namespace Parser

/-! ## Entries -/

/-- The second reader reads the trees that the first reads, in the longer text. -/
def Tracks (e : Embedding) (p q : Parser Node) : Prop :=
  ∀ (c : Border e) n depth b s t, c.Along n depth b s t →
    Trails c.Passed c.Passed p q s t (c.Gives (n - 1) depth)

section

variable {α β : Type} {p : Parser α} {q : Parser β} {E F : Stream → Prop}
  {Q : α → β → Stream → Stream → Prop}

/-- A reader that ends up lost. -/
theorem Trails.gone {s t : Stream} (h : ∀ a u, p.run s = .ok (a, u) → F u ∧ ∃ b v, Q a b u v) :
    Trails E F p q s t Q := fun a u ha =>
  let ⟨lost, b, v, hq⟩ := h a u ha
  ⟨fun _ => lost, b, v, hq, .inr lost⟩

end

section

variable {c : Border e} {cl cl' : Option String} {L : Stream → Prop} {n depth : Nat} {b : Bool}
  {s t : Stream} {expression expression' : Parser Node}

theorem skipSemicolons_trails (h : c.Along n depth b s t) :
    Trails c.Passed c.Passed skipSemicolons skipSemicolons s t fun _ _ u v =>
      c.Along n depth b u v := by
  refine .bind (.mono (many_trails (g := Token.embedded e) h fun m _ u v huv => ?_)
    fun _ _ _ _ huv => .pure id huv.2)
  refine .bind (atDelimiter_trails (by decide) huv fun x hx => ?_)
  split_ifs with semi
  · exact .bind (advance_trails huv hx (Token.isDelimiter_content semi)
      (Token.turn_delimiter semi (by decide) depth) fun u v huv => .pure id ⟨rfl, huv.later b⟩)
  · exact .pure id huv

/-- Whether the entries end here; the readers agree, unless the first is lost. -/
theorem atClosing_trails (closes : c.Closes cl cl' L) (found : ¬ c.Passed s)
    (h : c.Near n depth b s t) {Q : Bool → Bool → Stream → Stream → Prop}
    (same : ∀ x, s.Next x → Q (Parser.closes cl x) (Parser.closes cl x) s t)
    (alone : L s → Q true true s t) : Trails c.Passed L (atClosing cl) (atClosing cl') s t Q := by
  intro closed u hu
  rw [run_atClosing] at hu
  obtain ⟨x, hx, hu⟩ := bind_eq_ok hu
  cases hu
  have hx : s.Next x := hx
  obtain ⟨y, hy, met⟩ := h.next hx
  refine ⟨closes.passed, ?_⟩
  rcases closes.agree found hx met with agree | ⟨closed, lost⟩
  · refine ⟨_, t, same x hx, .inl ?_⟩
    rw [run_atClosing, hy, ← agree]
    rfl
  · rw [closed]
    exact ⟨true, t, alone lost, .inr lost⟩

theorem endUnseparated_trails (closes : c.Closes cl cl' L) (found : ¬ c.Passed s)
    (h : c.Near n depth true s t) :
    Trails c.Passed L (endUnseparated cl) (endUnseparated cl') s t fun _ _ u v =>
      c.Still L n depth true u v := by
  refine .bind (atClosing_trails closes found h (fun x _ => ?_) fun _ => .pure id (.inl h))
  split_ifs
  · exact .pure id (.inl h)
  · refine .bind (.get ?_)
    have same : t.previous.any (·.isDelimiter "\x7d") = s.previous.any (·.isDelimiter "\x7d") := by
      rw [h.previous rfl, Option.any_map]
      simp only [Token.isDelimiter_embedded]
    rw [same]
    split_ifs
    · exact .pure id (.inl h)
    · exact .unexpected

theorem endEntry_trails (closes : c.Closes cl cl' L) (h : c.Along n depth true s t) :
    Trails c.Passed L (endEntry cl) (endEntry cl') s t fun _ _ u v =>
      c.Still L n depth true u v := by
  by_cases passed : c.Passed s
  · refine .gone fun _ u hu => ?_
    have lost := closes.passed (passed.reads (endEntry_wp.of_ok hu))
    exact ⟨lost, (), t, .inr lost⟩
  · have near := h.resolve_right passed
    refine .bind (atDelimiter_trails (by decide) h fun x hx => ?_)
    split_ifs with semi
    · exact .bind (advance_trails h hx (Token.isDelimiter_content semi)
        (Token.turn_delimiter semi (by decide) depth) fun u v huv =>
          .pure closes.passed ((huv.mono (Nat.sub_le n 1)).still closes))
    · exact endUnseparated_trails closes passed near

theorem entryHere_trails (he : Tracks e expression expression') (closes : c.Closes cl cl' L)
    (found : ¬ c.Passed s) (h : c.Near n depth b s t) :
    Trails c.Passed L (entryHere expression cl) (entryHere expression' cl') s t
      (c.Entered L n depth b) := by
  refine .bind (atClosing_trails closes found h (fun x hx => ?_) fun _ => .pure id (.inl h))
  split_ifs with closed
  · exact .pure id (.inl h)
  · have notLost : ¬ L s := fun lost => by
      rcases closes.lost lost with passed | ⟨y, hy, -, closed'⟩
      · exact found passed
      · cases hx.symm.trans hy
        exact closed closed'
    refine Trails.found (E := c.Passed) ?_ notLost
    refine .bind (.mono (he c n depth b s t (.inl h)) fun x x' u v ⟨hx, huv⟩ => ?_)
    exact .bind (.mono (endEntry_trails closes huv) fun _ _ u v still => .pure id ⟨hx, still⟩)

/-- After the closing parenthesis was read, it stays so. -/
theorem entryHere_passed (he : Tracks e expression expression') (h : c.Passed s) {r : Option Node}
    {u : Stream} (hr : (entryHere expression cl).run s = .ok (r, u)) : c.Passed u := by
  rw [entryHere, StateT.run_bind, run_atClosing] at hr
  obtain ⟨⟨closed, w⟩, hc, hr⟩ := bind_eq_ok hr
  obtain ⟨x, -, hc⟩ := bind_eq_ok hc
  cases hc
  dsimp only at hr
  split_ifs at hr
  · cases hr
    exact h
  · rw [StateT.run_bind] at hr
    obtain ⟨⟨x, w⟩, hx, hr⟩ := bind_eq_ok hr
    rw [StateT.run_bind] at hr
    obtain ⟨⟨_, w'⟩, hw, hr⟩ := bind_eq_ok hr
    cases hr
    have h : c.Passed w := (he c 0 0 false s s (.inr h) x w hx).1 h
    exact h.reads (endEntry_wp.of_ok hw)

/-- A reader of an entry that ends up lost. -/
theorem entered_gone {p q : Parser (Option Node)} {E : Stream → Prop}
    (h : ∀ r u, p.run s = .ok (r, u) → L u) : Trails E L p q s t (c.Entered L n depth b) :=
  .gone fun r u hr => match r with
    | none => ⟨h none u hr, none, t, .inr (h none u hr)⟩
    | some x => ⟨h (some x) u hr, some (x.relabel e.relabel), t, rfl, .inr (h (some x) u hr)⟩

theorem entry_trails (he : Tracks e expression expression') (closes : c.Closes cl cl' L)
    (h : c.Still L n depth b s t) :
    Trails L L (entry expression cl) (entry expression' cl') s t (c.Entered L n depth b) := by
  by_cases passed : c.Passed s
  · refine entered_gone fun r u hr => ?_
    rw [run_entry] at hr
    obtain ⟨⟨_, v⟩, skipped, hr⟩ := bind_eq_ok hr
    have passed : c.Passed v := passed.reads (skipSemicolons_wp.of_ok skipped)
    exact closes.passed (entryHere_passed he passed hr)
  by_cases lost : L s
  · -- the first reader is before a parenthesis that closes the entries
    obtain ⟨x, hx, hd, closed⟩ := (closes.lost lost).resolve_left passed
    have semi : ¬ x.isDelimiter ";" := by
      simp only [Token.isDelimiter, Bool.and_eq_true, decide_eq_true_eq] at hd ⊢
      simp [hd.2]
    refine entered_gone fun r u hr => ?_
    rw [run_entry, run_skipSemicolons_stop hx semi, ok_bind, entryHere, StateT.run_bind,
      run_atClosing, hx, ok_bind, ok_bind, closed] at hr
    cases hr
    exact lost
  refine Trails.found (E := c.Passed) ?_ lost
  refine .bind (.mono (skipSemicolons_trails (.inl (h.resolve_right lost))) fun _ _ u v huv => ?_)
  by_cases passed : c.Passed u
  · exact entered_gone fun r w hr => closes.passed (entryHere_passed he passed hr)
  · exact entryHere_trails he closes passed (huv.resolve_right passed)

theorem entries_trails (he : Tracks e expression expression') (closes : c.Closes cl cl' L)
    (h : c.Along n depth b s t) :
    Trails c.Passed L (entries expression cl) (entries expression' cl') s t fun ns ns' u v =>
      ns' = Node.relabelAll e.relabel ns ∧ c.Still L n depth b u v := by
  refine Trails.before (E := L) ?_ fun _ => closes.passed
  refine iterate_trails (R := fun m ns ns' u v =>
    ns' = Node.relabelAll e.relabel ns ∧ c.Still L (min m n) depth b u v)
    (fun ns ns' u v huv => ?_) (fun m ns ns' u v ⟨hns, huv⟩ => ?_)
    ⟨rfl, h.rebound.still closes⟩
  · rw [Nat.zero_min] at huv
    exact huv.2.elim (fun near => absurd near.bound (Nat.not_lt_zero _)) id
  · refine .bind (.mono (entry_trails he closes huv) fun r r' u v hr => .pure id ?_)
    cases r with
    | none =>
      cases r' with
      | none => exact ⟨hns, Border.Still.mono hr (Nat.min_le_right m n)⟩
      | some x' => exact hr.elim
    | some x =>
      cases r' with
      | none => exact hr.elim
      | some x' =>
        obtain ⟨hx, still⟩ := hr
        refine ⟨?_, (still.later b).mono (by omega)⟩
        rw [hns, hx, Node.relabelAll_eq_map, Node.relabelAll_eq_map, List.map_append]
        rfl

/-- All entries of a text that ends in both streams. -/
theorem program_trails (he : Tracks e expression expression') (plain : ∀ s, ¬ c.Lost s)
    (h : c.Along n depth b s t) :
    Trails c.Passed c.Passed (program expression) (program expression') s t fun r r' _ _ =>
      r'.2 = Node.relabelAll e.relabel r.2 := by
  refine .bind (peek_trails h fun _ _ _ _ => ?_)
  refine .bind (.mono (entries_trails he (.ending plain) h) fun ns ns' u v hns => ?_)
  exact .bind (.bind (.get (.pure id (.pure id hns.1))))

end

/-! ## The tokens of a text -/

/-- The streams of a view that ends in the longer text where it does on its own, as no name goes on
after the text. -/
theorem near_ofLexed (v : View) (closed : ∀ ch ∈ e.more.head?, Lexer.isNameChar ch = false)
    (o o' : Bool) : ∃ (c : Border e) (n : Nat),
      c.Near n 0 false (.ofLexed v.tokens o 0) (.ofLexed (v.embedded e).tokens o' 0) ∧
        ∀ s, ¬ c.Lost s := by
  have carried := v.tokens_embedded_closed closed
  obtain ⟨ts, real, ⟨err, hv⟩ | ⟨p, hv⟩⟩ := v.tokens_end
  · obtain ⟨rest, hw⟩ : ∃ rest, (v.embedded e).tokens.tokens = ts.map (·.embedded e) ++ rest := by
      rcases carried with same | ⟨-, rest, before⟩
      · exact ⟨[], by rw [same, hv, List.append_nil]; rfl⟩
      · exact ⟨rest, by rw [← before, hv]⟩
    refine ⟨⟨ts, some err, [], rest, real, .inl ⟨rfl, rfl⟩⟩, _, ⟨?_, ⟨[], ts, rfl, rfl, ?_, ?_⟩,
      nofun, Nat.lt_succ_self _⟩, fun s lost => ?_⟩
    · rw [hv]
      rfl
    · rw [hv]
      simp [Stream.ofLexed]
    · rw [Stream.ofLexed, hw]
      rfl
    · rcases lost with ⟨_, _, h, -⟩ | ⟨_, _, h, -⟩ <;> cases h
  · have hw : (v.embedded e).tokens = v.tokens.embedded e := carried.whole (by rw [hv])
    refine ⟨⟨ts, none, [.atEnd p], [.atEnd (p.embedded e)], real,
      .inr ⟨_, _, rfl, rfl, rfl, .inl rfl⟩⟩, _, ⟨?_, ⟨[], ts, rfl, rfl, ?_, ?_⟩,
      nofun, Nat.lt_succ_self _⟩, fun s lost => ?_⟩
    · rw [hv]
      rfl
    · rw [hv]
      rfl
    · rw [Stream.ofLexed, hw, hv]
      simp [Lexed.embedded]
      rfl
    · rcases lost with ⟨_, _, h, -⟩ | ⟨_, _, h, -⟩ <;> cases h

end Parser

end Sigil
