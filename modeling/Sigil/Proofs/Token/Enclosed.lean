import Sigil.Proofs.Token.Embedded
import Sigil.Proofs.Token.Steady

/-!
# Tokens of a text in parentheses

Where a stretch of a text ends with a closing parenthesis that is a token of it,
the tokens before that are those of the stretch without it
(`View.tokens_enclosed`): none of them can tell the parenthesis from the end.
`Token.nest` counts the parentheses that some tokens leave open.
-/

namespace Sigil

/-! ## Parentheses -/

namespace Token

/-- How many parentheses are open after a token. -/
def turn (depth : Nat) (t : Token) : Option Nat :=
  if t.isDelimiter "(" || t.isDelimiter "$(" then some (depth + 1)
  else if t.isDelimiter ")" then if depth = 0 then none else some (depth - 1)
  else some depth

/-- How many parentheses are open after some tokens, unless they close more than are open. -/
def nest (depth : Nat) (ts : List Token) : Option Nat :=
  ts.foldlM turn depth

theorem nest_snoc {depth d d' : Nat} {ts : List Token} {t : Token} (h : nest depth ts = some d)
    (ht : t.turn d = some d') : nest depth (ts ++ [t]) = some d' := by
  have h : ts.foldlM turn depth = some d := h
  rw [nest, List.foldlM_append, h]
  show (do let e ← t.turn d; some e) = some d'
  rw [ht]
  rfl

/-- Whether a token is neither the end of a text nor a closing parenthesis. -/
def isInner (t : Token) : Bool :=
  t.content ≠ .endOfInput && !t.isDelimiter ")"

theorem isInner_of_content {t : Token} (h : t.content ≠ .endOfInput)
    (hd : t.content ≠ .delimiter) : t.isInner := by
  simp [isInner, isDelimiter, h, hd]

theorem isInner_content {t : Token} (h : t.isInner) : t.content ≠ .endOfInput := by
  simp only [isInner, Bool.and_eq_true, decide_eq_true_eq] at h
  exact h.1

theorem isInner_delimiter {t : Token} {d : String} (h : t.isDelimiter d) (hd : d ≠ ")") :
    t.isInner := by
  simp only [isDelimiter, Bool.and_eq_true, decide_eq_true_eq] at h
  simp [isInner, isDelimiter, h.1, h.2, hd]

theorem turn_of_content {t : Token} (h : t.content ≠ .delimiter) (depth : Nat) :
    t.turn depth = some depth := by
  simp [turn, isDelimiter, h]

theorem turn_open {t : Token} (h : t.isDelimiter "(" ∨ t.isDelimiter "$(") (depth : Nat) :
    t.turn depth = some (depth + 1) := by
  rw [turn, if_pos (by simpa using h)]

theorem turn_close {t : Token} (h : t.isDelimiter ")") (depth : Nat) :
    t.turn (depth + 1) = some depth := by
  simp only [isDelimiter, Bool.and_eq_true, decide_eq_true_eq] at h
  simp [turn, isDelimiter, h.1, h.2]

theorem turn_delimiter {t : Token} {d : String} (h : t.isDelimiter d)
    (hd : d ∉ ["(", "$(", ")"]) (depth : Nat) : t.turn depth = some depth := by
  simp only [isDelimiter, Bool.and_eq_true, decide_eq_true_eq] at h
  simp only [List.mem_cons, List.not_mem_nil, or_false, not_or] at hd
  simp [turn, isDelimiter, h.1, h.2, hd]

end Token

/-! ## Up to the closing parenthesis -/

theorem Token.isDelimiter_lexeme {t : Token} {d : String} (h : t.isDelimiter d) :
    t.lexeme = d := by
  simp only [isDelimiter, Bool.and_eq_true, decide_eq_true_eq] at h
  exact h.2

/-- A closing parenthesis is a token of its own. -/
theorem Lexer.content_mark (p : Position) (inside beyond : List Char) :
    content p ')' inside beyond = .ok (.delimiter, 0) :=
  (ReadsToken.mark inside beyond (by decide)).read

namespace View

/-- A stretch that ends with a closing parenthesis, and the one before that: what is left of them
after some characters. -/
theorem advance_enclosed {v : View} {s : List Char} {n : Nat} (hv : v.inside = s ++ [')'])
    (hn : n ≤ s.length) :
    (v.advance n).inside = s.drop n ++ [')'] ∧
      (View.mk v.position s (')' :: v.beyond)).advance n =
        ⟨(v.advance n).position, s.drop n, ')' :: (v.advance n).beyond⟩ ∧
      (v.advance n).position.offset + (s.drop n).length = v.position.offset + s.length := by
  have within : n ≤ v.inside.length := by rw [hv, List.length_append]; omega
  have none : n - s.length = 0 := Nat.sub_eq_zero_of_le hn
  refine ⟨?_, ?_, ?_⟩
  · rw [inside_advance, hv, List.drop_append_of_le_length hn]
  · rw [beyond_advance within]
    simp [advance, hv, none, Nat.sub_eq_zero_of_le (hn.trans (Nat.le_succ _)),
      List.take_append_of_le_length hn]
  · rw [offset_advance within, List.length_drop]
    omega

/-- The gap that a stretch begins with comes before the closing parenthesis that it ends with, if
that is no part of a comment. -/
theorem gap_enclosed {v : View} {s : List Char} (hv : v.inside = s ++ [')'])
    (hw : (v.advance (Lexer.gapLength false v.inside)).inside ≠ []) :
    Lexer.gapLength false v.inside ≤ s.length ∧
      Lexer.gapLength false s = Lexer.gapLength false v.inside := by
  have before : Lexer.gapLength false v.inside ≤ s.length := by
    rw [inside_advance, Ne, List.drop_eq_nil_iff, hv, List.length_append,
      List.length_singleton, ← hv] at hw
    omega
  refine ⟨before, ?_⟩
  rw [hv] at before ⊢
  exact Lexer.gapLength_of_append before

/-- The tokens of a stretch that ends with a closing parenthesis are those of the text before it,
and the parenthesis. -/
def Encloses (v : View) (s : List Char) : Prop :=
  ∃ ts mark stop, v.tokens = ⟨ts ++ [mark, .atEnd stop], none⟩ ∧ mark.isDelimiter ")" ∧
    (View.mk v.position s (')' :: v.beyond)).tokens = ⟨ts ++ [.atEnd mark.span.start], none⟩ ∧
    ∀ t ∈ ts ++ [.atEnd mark.span.start], t.span.stop.offset ≤ v.position.offset + s.length

/-- The closing parenthesis comes first. -/
theorem encloses_mark {v w : View} {s : List Char}
    (hw : v.advance (Lexer.gapLength false v.inside) = w) (hi : w.inside = [')'])
    (hs : (View.mk v.position s (')' :: v.beyond)).advance (Lexer.gapLength false s) =
      ⟨w.position, [], ')' :: w.beyond⟩) : v.Encloses s := by
  have spent : (w.advance 1).inside = [] := by rw [inside_advance, hi]; rfl
  have tokens := tokens_cons hw hi (Lexer.content_mark w.position [] w.beyond)
  rw [tokens_nil spent] at tokens
  refine ⟨[], _, _, tokens, ?_, ?_, ?_⟩
  · rw [hi]
    rfl
  · refine (tokens_gap ?_).trans ?_ <;> rw [hs]
    rfl
  · have gap := Lexer.gapLength_le false s
    have ends := congrArg (·.position.offset) hs
    dsimp only at ends
    rw [offset_advance gap] at ends
    refine List.forall_mem_singleton.mpr ?_
    show w.position.offset ≤ _
    dsimp only at ends gap
    omega

/-- A token comes first that ends before the closing parenthesis. -/
theorem encloses_cons {v w : View} {s cs : List Char} {c : Char} {said : Token.Content} {n : Nat}
    (hw : v.advance (Lexer.gapLength false v.inside) = w) (hi : w.inside = c :: (cs ++ [')']))
    (hs : (View.mk v.position s (')' :: v.beyond)).advance (Lexer.gapLength false s) =
      ⟨w.position, c :: cs, ')' :: w.beyond⟩)
    (ends : w.position.offset + cs.length + 1 = v.position.offset + s.length)
    (hc : Lexer.content w.position c (cs ++ [')']) w.beyond = .ok (said, n)) (hn : n ≤ cs.length)
    (h : (w.advance (n + 1)).Encloses (cs.drop n)) : v.Encloses s := by
  obtain ⟨ts, mark, stop, tokens, hm, before, within⟩ := h
  obtain ⟨-, rest, left⟩ := advance_enclosed (v := w) (s := c :: cs) (n := n + 1) hi
    (Nat.succ_le_succ hn)
  have again : Lexer.content w.position c cs (')' :: w.beyond) = .ok (said, n) := by
    rw [← hc]
    refine (Lexer.content_congr (Lexer.sameAhead_more ?_ cs) (by simp)).symm
    exact Lexer.apart_cons (by decide) []
  rw [List.drop_succ_cons] at rest left
  refine ⟨⟨said, String.ofList ((w.inside ++ w.beyond).take (n + 1)),
    ⟨w.position, (w.advance (n + 1)).position⟩⟩ :: ts, mark, stop, ?_, hm, ?_, ?_⟩
  · rw [tokens_cons hw hi hc, tokens]
    rfl
  · rw [tokens_cons hs rfl again, rest, before, hi]
    simp [Lexed.cons]
  · refine List.forall_mem_cons.mpr ⟨?_, fun t ht => (within t ht).trans ?_⟩
    · rw [List.length_cons] at left
      dsimp only
      omega
    · rw [List.length_cons] at left
      omega

/-- A stretch that ends with a token of its own, the closing parenthesis, has the tokens of the
stretch before that, which end within it. -/
theorem tokens_enclosed (v : View) (s : List Char) (hv : v.inside = s ++ [')'])
    (h : ∃ t ∈ v.tokens.tokens, t.isDelimiter ")" ∧
      t.span.stop.offset = v.position.offset + s.length + 1) : v.Encloses s := by
  fun_induction View.tokens v generalizing s with
  | case1 v w hw =>
    obtain ⟨t, ht, hd, -⟩ := h
    cases List.mem_singleton.mp ht
    cases hd
  | case2 v w c cs hw err hc =>
    obtain ⟨t, ht, -⟩ := h
    cases ht
  | case3 v w c cs hw said n hc rest lexeme ih =>
    obtain ⟨before, gap⟩ := gap_enclosed hv (hw ▸ List.cons_ne_nil c cs)
    obtain ⟨inside, shorter, ends⟩ := advance_enclosed hv before
    rw [show v.advance (Lexer.gapLength false v.inside) = w from rfl] at inside shorter ends
    rw [← congrArg (View.advance _) gap] at shorter
    generalize s.drop (Lexer.gapLength false v.inside) = left at inside shorter ends
    cases left with
    | nil => exact encloses_mark rfl inside shorter
    | cons d ds =>
      cases hw.symm.trans inside
      rw [List.length_cons] at ends
      -- the token ends before the closing parenthesis, as that is one of its own
      obtain ⟨t, ht, hd, hstop⟩ := h
      have within : n ≤ ds.length := by
        by_contra beyond
        have spent : rest.inside = [] := by
          rw [inside_advance, hw, List.drop_eq_nil_iff]
          simp
          omega
        rw [tokens_nil spent] at ht
        rcases List.mem_cons.mp ht with rfl | ht
        · have length := congrArg String.length (Token.isDelimiter_lexeme hd)
          simp only [lexeme, inside, String.length_ofList, List.length_take, List.length_append,
            List.length_cons] at length
          change _ = 1 at length
          omega
        · cases List.mem_singleton.mp ht
          cases hd
      obtain ⟨inside', -, ends'⟩ := advance_enclosed (v := w) (s := c :: ds) (n := n + 1) inside
        (Nat.succ_le_succ within)
      rw [List.drop_succ_cons, List.length_cons] at ends'
      refine encloses_cons rfl inside shorter ends hc within (ih _ inside' ⟨t, ?_, hd, ?_⟩)
      · refine (List.mem_cons.mp ht).resolve_left ?_
        rintro rfl
        dsimp only [rest] at hstop
        omega
      · dsimp only [rest]
        omega

end View

end Sigil
