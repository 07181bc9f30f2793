import Sigil.Proofs.Token.Lexed
import Sigil.Proofs.Token.Moved

/-!
# Tokens of a longer text

A view of a text is cut into the same tokens in a longer text, up to the end
of the view or up to a fault in it (`View.tokens_continues`). A view that has
more text beyond it in the longer text ends there as before; one that ended
with the text goes on through what follows it (`View.Continues`).
-/

namespace Sigil

variable (m : Placement)

/-- Tokens in front of others. -/
def Lexed.prepend (ts : List Token) (l : Lexed) : Lexed :=
  { l with tokens := ts ++ l.tokens }

namespace View

/-- A view, and what has become of it in the longer text: more lies beyond it, or it ended with the
text and now goes on through what follows. -/
inductive Continues : Bool → View → View → Prop
  | beyond (v : View) : Continues false v (v.moved m)
  | through (p : Position) (cs : List Char) :
    Continues true ⟨p, cs, []⟩ ⟨p.moved m, cs ++ m.more, []⟩

/-- What is read in the longer text after the end of a view. -/
def rest (p : Position) : Bool → Lexed
  | false => ⟨[.atEnd (p.moved m)], none⟩
  | true => (View.mk (p.moved m) m.more []).tokens

section

variable {m}

theorem advance_advance (v : View) {j : Nat} (h : j ≤ v.inside.length) (k : Nat) :
    (v.advance j).advance k = v.advance (j + k) := by
  have take : v.inside.take (j + k) = v.inside.take j ++ (v.inside.drop j).take k :=
    List.take_add
  have past : j - v.inside.length = 0 := Nat.sub_eq_zero_of_le h
  have beyond : k - (v.inside.length - j) = j + k - v.inside.length := by omega
  simp [advance, take, past, beyond, Position.after_append, List.drop_drop]

theorem Continues.advance {through : Bool} {v w : View} (h : Continues m through v w) {n : Nat}
    (hn : n ≤ v.length) : Continues m through (v.advance n) (w.advance n) := by
  cases h with
  | beyond =>
    have hn : n - v.inside.length ≤ v.beyond.length := by rw [length] at hn; omega
    have moved : (v.moved m).advance n = (v.advance n).moved m := by
      simp only [moved, View.advance, Position.after_moved,
        List.take_append_of_le_length hn, List.drop_append_of_le_length hn]
    rw [moved]
    exact .beyond _
  | through p cs =>
    have hn : n ≤ cs.length := hn
    have moved : View.advance ⟨p.moved m, cs ++ m.more, []⟩ n =
        ⟨(p.after (cs.take n)).moved m, cs.drop n ++ m.more, []⟩ := by
      simp only [View.advance, List.take_append_of_le_length hn,
        List.drop_append_of_le_length hn, List.take_nil, List.drop_nil, Position.after_nil,
        Position.after_moved]
    have self : View.advance ⟨p, cs, []⟩ n = ⟨p.after (cs.take n), cs.drop n, []⟩ := by
      simp only [View.advance, List.take_nil, List.drop_nil, Position.after_nil]
    rw [moved, self]
    exact .through _ _

/-- A view is read from the end of the gap that it begins with. -/
theorem tokens_congr {v w : View} (h : v.advance (Lexer.gapLength false v.inside) =
    w.advance (Lexer.gapLength false w.inside)) : v.tokens = w.tokens := by
  rw [View.tokens.eq_1 v, View.tokens.eq_1 w]
  dsimp only
  rw [h]

theorem offset_length_advance (v : View) (n : Nat) :
    (v.advance n).position.offset + (v.advance n).length = v.position.offset + v.length := by
  simp only [advance, length, Position.offset_after, List.length_take, List.length_drop]
  omega

theorem after_inside_advance {v : View} (h : v.beyond = []) (n : Nat) :
    (v.advance n).position.after (v.advance n).inside = v.position.after v.inside := by
  simp only [advance, h, List.take_nil, Position.after_nil, ← Position.after_append,
    List.take_append_drop]

theorem content_continues {through : Bool} {v w : View} (h : Continues m through v w) {c : Char}
    {cs : List Char} (hv : v.inside = c :: cs) :
    ∃ cs', w.inside = c :: cs' ∧ Lexer.SameAhead cs cs' ∧
      cs' ++ w.beyond = cs ++ v.beyond ++ m.more ∧ w.position = v.position.moved m := by
  cases h with
  | beyond =>
    refine ⟨cs, hv, Lexer.sameAhead_self cs, ?_, rfl⟩
    rw [moved, List.append_assoc]
  | through p ds =>
    obtain rfl : ds = c :: cs := hv
    exact ⟨cs ++ m.more, rfl, Lexer.sameAhead_more (Lexer.apart_more m) cs, by simp, rfl⟩

theorem gap_continues {through : Bool} {v w : View} (h : Continues m through v w)
    (hv : (v.advance (Lexer.gapLength false v.inside)).inside ≠ []) :
    Lexer.gapLength false w.inside = Lexer.gapLength false v.inside := by
  cases h with
  | beyond => rfl
  | through p cs =>
    refine Lexer.gapLength_inside
      (Nat.lt_of_le_of_ne (Lexer.gapLength_le false cs) fun e => hv ?_) _
    rw [inside_advance]
    dsimp only
    rw [e, List.drop_length]

theorem Continues.position {through : Bool} {v w : View} (h : Continues m through v w) :
    w.position = v.position.moved m := by
  cases h <;> rfl

/-- A view of which only a gap is left. -/
theorem tokens_gap {v : View}
    (h : (v.advance (Lexer.gapLength false v.inside)).inside = []) :
    v.tokens = ⟨[.atEnd (v.advance (Lexer.gapLength false v.inside)).position], none⟩ := by
  rw [tokens]
  dsimp only
  split
  · rfl
  · next hc => rw [h] at hc; cases hc

/-- Where only a gap is left of a view, the longer text goes on with what follows it. -/
theorem tokens_rest {through : Bool} {v w : View} (h : Continues m through v w)
    (hv : (v.advance (Lexer.gapLength false v.inside)).inside = []) :
    w.tokens = rest m (v.advance (Lexer.gapLength false v.inside)).position through := by
  have gap := Lexer.gapLength_le false v.inside
  have gapped := h.advance (n := Lexer.gapLength false v.inside) (by rw [length]; omega)
  cases h with
  | beyond =>
    have hw : ((v.moved m).advance (Lexer.gapLength false (v.moved m).inside)).inside = [] := hv
    rw [tokens_gap hw]
    exact congrArg (fun p => Lexed.mk [.atEnd p] none) gapped.position
  | through p cs =>
    have whole : Lexer.gapLength false cs = cs.length := by
      refine Nat.le_antisymm gap ?_
      exact List.drop_eq_nil_iff.mp hv
    have more := Lexer.gapLength_through (m := m) whole
    have hw : View.advance ⟨p.moved m, cs ++ m.more, []⟩ (Lexer.gapLength false cs) =
        ⟨(View.advance ⟨p, cs, []⟩ (Lexer.gapLength false cs)).position.moved m, m.more, []⟩ := by
      have position := gapped.position
      simp only [View.advance, whole, List.drop_nil, List.drop_left, View.mk.injEq] at position ⊢
      exact ⟨position, trivial, trivial⟩
    have inside : Lexer.gapLength false cs ≤ (cs ++ m.more).length := by
      rw [List.length_append]
      omega
    rw [rest, ← hw]
    refine tokens_congr ?_
    rw [advance_advance _ inside, hw]
    exact congrArg (View.advance _) (by rw [more, whole])

/-- Tokens that are read from a view one after the other, and what is left of it then. -/
inductive Reads : View → List Token → View → Prop
  | refl (v : View) : Reads v [] v
  | token {v w u : View} {c : Char} {cs : List Char} {said : Token.Content} {n : Nat}
    {ts : List Token} (hw : v.advance (Lexer.gapLength false v.inside) = w)
    (hi : w.inside = c :: cs) (hc : Lexer.content w.position c cs w.beyond = .ok (said, n))
    (rest : Reads (w.advance (n + 1)) ts u) :
    Reads v (⟨said, String.ofList ((w.inside ++ w.beyond).take (n + 1)),
      ⟨w.position, (w.advance (n + 1)).position⟩⟩ :: ts) u

/-- The tokens of a view are read up to a fault that is found next, or up to its end. -/
theorem tokens_reads (v : View) : ∃ ts u, Reads v ts u ∧
    ((∃ e, v.tokens = ⟨ts, some e⟩ ∧ u.tokens = ⟨[], some e⟩) ∨
      ∃ p, v.tokens = ⟨ts ++ [.atEnd p], none⟩ ∧
        (u.advance (Lexer.gapLength false u.inside)).inside = [] ∧
        p = (u.advance (Lexer.gapLength false u.inside)).position) := by
  fun_induction View.tokens v with
  | case1 v w hw =>
    exact ⟨[], v, .refl v, .inr ⟨w.position, rfl, hw, rfl⟩⟩
  | case2 v w c cs hw err hc =>
    exact ⟨[], v, .refl v, .inl ⟨err, rfl, tokens_error rfl hw hc⟩⟩
  | case3 v w c cs hw said n hc rest lexeme ih =>
    obtain ⟨ts, u, reads, ends⟩ := ih
    refine ⟨_, u, .token rfl hw hc reads, ends.imp ?_ ?_⟩
    · rintro ⟨e, tokens, stops⟩
      exact ⟨e, congrArg (Lexed.cons _) tokens, stops⟩
    · rintro ⟨p, tokens, stops⟩
      exact ⟨p, congrArg (Lexed.cons _) tokens, stops⟩

/-- Tokens that are read from a view are read from what has become of it in the longer text; they
stand within the text. -/
theorem Reads.continues {through : Bool} {v u w : View} {ts : List Token} (h : Reads v ts u)
    (hw : Continues m through v w) : ∃ w', Continues m through u w' ∧
      w.tokens = w'.tokens.prepend (ts.map (·.moved m)) ∧
      (∀ t ∈ ts, t.content ≠ .endOfInput ∧
        t.span.stop.offset ≤ v.position.offset + v.length) ∧
      (v.beyond = [] → u.beyond = [] ∧
        u.position.after u.inside = v.position.after v.inside) := by
  induction h generalizing w with
  | refl v => exact ⟨w, hw, rfl, nofun, fun none => ⟨none, rfl⟩⟩
  | @token v v₁ u c cs said n ts hv₁ hi hc _ ih =>
    have gap := Lexer.gapLength_le false v.inside
    have gapped := hw.advance (n := Lexer.gapLength false v.inside) (by rw [length]; omega)
    have hg := gap_continues hw (by rw [hv₁, hi]; exact List.cons_ne_nil c cs)
    rw [hv₁] at gapped
    obtain ⟨cs', hi', ahead, hb, position⟩ := content_continues gapped hi
    have left := offset_length_advance v (Lexer.gapLength false v.inside)
    rw [hv₁] at left
    obtain ⟨again, shorter⟩ := Lexer.content_moved ahead hb hc
    have length : v₁.length = cs.length + v₁.beyond.length + 1 := by
      rw [View.length, hi, List.length_cons]
      omega
    have next := gapped.advance (n := n + 1) (by omega)
    have left' := offset_length_advance v₁ (n + 1)
    obtain ⟨w', continues, tokens, reals, whole⟩ := ih next
    generalize hw₁ : w.advance (Lexer.gapLength false v.inside) = w₁ at *
    have lexeme : (w₁.inside ++ w₁.beyond).take (n + 1) =
        (v₁.inside ++ v₁.beyond).take (n + 1) := by
      rw [hi, hi', List.cons_append, hb, List.cons_append, List.take_succ_cons,
        List.take_succ_cons, List.take_append_of_le_length (by rw [List.length_append]; omega)]
    have tokens' : w.tokens = _ :=
      tokens_cons (by rw [hg, hw₁]) hi' (by rw [position]; exact again)
    rw [position, lexeme, next.position, tokens] at tokens'
    refine ⟨w', continues, tokens', ?_, fun none => ?_⟩
    · refine List.forall_mem_cons.mpr ⟨⟨Lexer.content_ne_endOfInput hc, ?_⟩, fun t ht => ?_⟩
      · dsimp only
        omega
      · exact ⟨(reals t ht).1, by have := (reals t ht).2; omega⟩
    · have none₁ : v₁.beyond = [] := by rw [← hv₁, View.advance, none, List.drop_nil]
      have none₂ : (v₁.advance (n + 1)).beyond = [] := by
        rw [View.advance, none₁, List.drop_nil]
      obtain ⟨none', after⟩ := whole none₂
      refine ⟨none', ?_⟩
      rw [after, after_inside_advance none₁, ← hv₁, after_inside_advance none]

/-- The tokens of a view are those of what has become of it in the longer text, up to the end of the
view or up to a fault in it; they stand within the text. -/
theorem tokens_continues {through : Bool} {v w : View} (h : Continues m through v w) :
    ∃ (ts : List Token) (l : Lexed), w.tokens = l.prepend (ts.map (·.moved m)) ∧
      (∀ t ∈ ts, t.content ≠ .endOfInput ∧
        t.span.stop.offset ≤ v.position.offset + v.length) ∧
      ((∃ e, v.tokens = ⟨ts, some e⟩) ∨
        ∃ p, v.tokens = ⟨ts ++ [.atEnd p], none⟩ ∧ l = rest m p through ∧
          (v.beyond = [] → p = v.position.after v.inside)) := by
  obtain ⟨ts, u, reads, ends⟩ := v.tokens_reads
  obtain ⟨w', continues, tokens, reals, whole⟩ := reads.continues h
  refine ⟨ts, w'.tokens, tokens, reals, ends.imp (fun ⟨e, he, _⟩ => ⟨e, he⟩) ?_⟩
  rintro ⟨p, hp, gap, rfl⟩
  refine ⟨_, hp, tokens_rest continues gap, fun none => ?_⟩
  obtain ⟨none', after⟩ := whole none
  rw [← after, ← after_inside_advance none' (Lexer.gapLength false u.inside), gap]
  rfl

end

end View

end Sigil
