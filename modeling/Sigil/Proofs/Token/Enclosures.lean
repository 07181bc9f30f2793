import Mathlib.Tactic.SplitIfs
import Sigil.Token.Lexer

/-!
# The raw scan for the end of a substitution

Where a substitution in a string is found to end depends neither on where it
stands (`closing_unplaced`) nor on what follows its end (`closing_local`). It
ends at a parenthesis (`closing_mark`). So what it encloses is a closed text
(`exists_of_closing`), and a closed text is closed wherever it is written
(`closing_of_isClosed`).
-/

namespace Sigil.Lexer

/-- Whether the raw scan for the end of a substitution finds it right after a text. -/
def isClosed (cs : List Char) : Bool :=
  match closing [.substitution .start 1] .start (cs ++ [')']) with
  | .ok n => n = cs.length
  | .error _ => false

theorem isClosed_iff {cs : List Char} :
    isClosed cs ↔ closing [.substitution .start 1] .start (cs ++ [')']) = .ok cs.length := by
  unfold isClosed
  split
  · next h => rw [h, decide_eq_true_eq, Except.ok.injEq]
  · next h =>
    rw [h]
    exact iff_of_false Bool.false_ne_true fun found => by cases found

namespace Enclosure

/-- An enclosure without the place where it was opened. -/
def unplaced : Enclosure → Enclosure
  | substitution _ depth => substitution .start depth
  | raw _ depth => raw .start depth
  | string _ => string .start
  | escape _ => escape .start

/-- What encloses the next character does not depend on places. -/
theorem map_unplaced_next {p q : Position} {c : Char} {following : Option Char}
    {es fs : List Enclosure} (h : es.map unplaced = fs.map unplaced) :
    (next p c following es).map unplaced = (next q c following fs).map unplaced := by
  cases es with
  | nil => cases List.map_eq_nil_iff.mp h.symm; rfl
  | cons e es =>
    cases fs with
    | nil => cases h
    | cons f fs =>
      simp only [List.map_cons, List.cons.injEq] at h
      obtain ⟨heq, htail⟩ := h
      cases e <;> cases f <;> cases heq <;> simp only [next] <;> try split_ifs
      all_goals simp [unplaced, htail]

/-- Whether a character ends the outermost enclosure does not depend on what follows it. -/
theorem next_eq_nil {p : Position} {c : Char} {following other : Option Char}
    {es : List Enclosure} (h : next p c following es = []) : next p c other es = [] := by
  cases es with
  | nil => rfl
  | cons e es =>
    cases e <;> simp only [next] at h ⊢
    · exact h
    · split_ifs at h
    · split_ifs at h ⊢
      exact h
    · exact h

/-- The place that is shown if the enclosure is never closed. -/
def opened : Enclosure → Position
  | substitution opened _ | raw opened _ | string opened | escape opened => opened

/-- Whether a closing parenthesis is what the enclosure ends with. -/
def isCode : Enclosure → Bool
  | substitution .. | raw .. => true
  | string _ | escape _ => false

/-- What a character at `p` can do to enclosures: it closes the innermost one, makes it another of
its kind, or opens one within it. -/
inductive Turn (p : Position) (c : Char) (innermost : Enclosure) (outer : List Enclosure) :
    List Enclosure → Prop
  | closes (h : innermost.isCode → c = ')') : Turn p c innermost outer outer
  | changes {e : Enclosure} (opened : e.opened = innermost.opened)
    (code : e.isCode = innermost.isCode) : Turn p c innermost outer (e :: outer)
  | opens {e : Enclosure} (opened : e.opened = p) : Turn p c innermost outer (e :: innermost :: outer)

theorem turn_next (p : Position) (c : Char) (following : Option Char) (innermost : Enclosure)
    (outer : List Enclosure) : Turn p c innermost outer (next p c following (innermost :: outer)) := by
  cases innermost with
  | substitution opened depth =>
    rw [next]
    split_ifs with close
    · exact .closes fun _ => close
    · exact .changes rfl rfl
    · exact .changes rfl rfl
    · exact .opens rfl
    · exact .changes rfl rfl
    · exact .changes rfl rfl
  | raw opened depth =>
    rw [next]
    split_ifs <;> exact .changes rfl rfl
  | string opened =>
    rw [next]
    split_ifs
    · exact .closes fun code => by cases code
    · exact .changes rfl rfl
    · exact .opens rfl
    · exact .changes rfl rfl
  | escape opened => exact .changes rfl rfl

/-- If the outermost enclosure ends with a parenthesis, it goes on to do so. -/
theorem outermost_next {p : Position} {c : Char} {following : Option Char} {es : List Enclosure}
    (h : ∀ e ∈ es.getLast?, e.isCode) : ∀ e ∈ (next p c following es).getLast?, e.isCode := by
  cases es with
  | nil => exact h
  | cons innermost outer =>
    have turn := turn_next p c following innermost outer
    generalize next p c following (innermost :: outer) = es at turn ⊢
    cases outer with
    | nil =>
      cases turn with
      | closes => rintro _ ⟨⟩
      | changes opened code =>
        rintro _ ⟨⟩
        exact code ▸ h innermost rfl
      | opens => exact h
    | cons => cases turn <;> exact h

end Enclosure

/-- What the scan does with a character. -/
theorem closing_cases {es : List Enclosure} {p : Position} {c : Char} {cs : List Char} {k : Nat}
    (h : closing es p (c :: cs) = .ok k) :
    (Enclosure.next p c cs.head? es = [] ∧ k = 0) ∨
      ∃ innermost outer j, Enclosure.next p c cs.head? es = innermost :: outer ∧
        closing (innermost :: outer) (p.step c) cs = .ok j ∧ k = j + 1 := by
  rw [closing] at h
  cases next : Enclosure.next p c cs.head? es with
  | nil =>
    rw [next] at h
    cases h
    exact .inl ⟨rfl, rfl⟩
  | cons innermost outer =>
    rw [next] at h
    dsimp only at h
    cases hj : closing (innermost :: outer) (p.step c) cs with
    | error err => rw [hj] at h; cases h
    | ok j =>
      rw [hj] at h
      cases h
      exact .inr ⟨innermost, outer, j, rfl, hj, rfl⟩

/-- A character that closes no more than some of the enclosures. -/
theorem closing_cons {es outer : List Enclosure} {innermost : Enclosure} {p : Position}
    {c : Char} {cs : List Char} (h : Enclosure.next p c cs.head? es = innermost :: outer) :
    closing es p (c :: cs) = (closing (innermost :: outer) (p.step c) cs).map (· + 1) := by
  rw [closing, h]

theorem closing_unplaced {p q : Position} {es fs : List Enclosure} {cs : List Char}
    (h : es.map Enclosure.unplaced = fs.map Enclosure.unplaced) :
    (closing es p cs).toOption = (closing fs q cs).toOption := by
  induction cs generalizing p q es fs with
  | nil =>
    cases es with
    | nil => cases List.map_eq_nil_iff.mp h.symm; rfl
    | cons e es =>
      cases fs with
      | nil => cases h
      | cons f fs => rfl
  | cons c cs ih =>
    have same : (Enclosure.next p c cs.head? es).map Enclosure.unplaced =
        (Enclosure.next q c cs.head? fs).map Enclosure.unplaced := Enclosure.map_unplaced_next h
    unfold closing
    generalize Enclosure.next p c cs.head? es = es' at same ⊢
    generalize Enclosure.next q c cs.head? fs = fs' at same ⊢
    cases es' with
    | nil => cases List.map_eq_nil_iff.mp same.symm; rfl
    | cons e es' =>
      cases fs' with
      | nil => cases same
      | cons f fs' =>
        have := ih (p := p.step c) (q := q.step c) same
        dsimp only
        cases hx : closing (e :: es') (p.step c) cs <;>
          cases hy : closing (f :: fs') (q.step c) cs <;> rw [hx, hy] at this <;> cases this <;> rfl

/-- Where a substitution ends does not depend on where it stands. -/
theorem substitution_unplaced {o p : Position} {cs : List Char} {k : Nat}
    (h : closing [.substitution o 1] p cs = .ok k) (o' p' : Position) :
    closing [.substitution o' 1] p' cs = .ok k := by
  have same : (closing [.substitution o 1] p cs).toOption =
      (closing [.substitution o' 1] p' cs).toOption := closing_unplaced rfl
  rw [h] at same
  cases hk : closing [.substitution o' 1] p' cs with
  | error e => rw [hk] at same; cases same
  | ok j => rw [hk] at same; cases same; rfl

/-- The end of enclosures that is found within a text is found whatever follows the text. -/
theorem closing_local {es : List Enclosure} {p : Position} {cs rest : List Char} {k : Nat}
    (h : closing es p (cs ++ rest) = .ok k) (within : k < cs.length) (rest' : List Char) :
    closing es p (cs ++ rest') = .ok k := by
  induction cs generalizing es p k with
  | nil => exact absurd within (Nat.not_lt_zero k)
  | cons c cs ih =>
    rw [List.cons_append] at h ⊢
    obtain ⟨ends, rfl⟩ | ⟨innermost, outer, j, next, hj, rfl⟩ := closing_cases h
    · rw [closing, Enclosure.next_eq_nil ends]
    · have within : j < cs.length := Nat.lt_of_succ_lt_succ within
      have following : (cs ++ rest').head? = (cs ++ rest).head? := by
        cases cs with
        | nil => exact absurd within (Nat.not_lt_zero j)
        | cons d cs => rfl
      rw [closing_cons (following ▸ next), ih hj within]
      rfl

/-- What ends with a parenthesis is found to end at one. -/
theorem closing_mark {es : List Enclosure} {p : Position} {cs : List Char} {k : Nat}
    (h : closing es p cs = .ok k) (hes : es ≠ []) (outermost : ∀ e ∈ es.getLast?, e.isCode) :
    ∃ rest, cs.drop k = ')' :: rest := by
  induction cs generalizing es p k with
  | nil =>
    cases es with
    | nil => exact absurd rfl hes
    | cons => cases h
  | cons c cs ih =>
    obtain ⟨ends, rfl⟩ | ⟨innermost, outer, j, next, hj, rfl⟩ := closing_cases h
    · obtain ⟨innermost, outer, rfl⟩ := List.exists_cons_of_ne_nil hes
      have turn := Enclosure.turn_next p c cs.head? innermost outer
      rw [ends] at turn
      cases turn with
      | closes close => exact ⟨cs, by rw [close (outermost innermost rfl)]; rfl⟩
    · exact ih hj (List.cons_ne_nil _ _) (next ▸ Enclosure.outermost_next outermost)

/-- The end of a text within an enclosure is all that can keep it open. -/
theorem closing_error {p : Position} {es : List Enclosure} {cs : List Char} {err : LexError}
    (h : closing es p cs = .error err) : err.fault.isIncomplete := by
  induction cs generalizing p es with
  | nil =>
    cases es with
    | nil => cases h
    | cons innermost outer => cases h; cases innermost <;> rfl
  | cons c cs ih =>
    rw [closing] at h
    split at h
    · cases h
    · cases hc : closing (Enclosure.next p c cs.head? es) (p.step c) cs with
      | error err => rw [hc] at h; cases h; exact ih hc
      | ok k => rw [hc] at h; cases h

/-- A closed text ends where its substitution does, wherever both stand. -/
theorem closing_of_isClosed {cs : List Char} (h : isClosed cs) (p q : Position) (rest : List Char) :
    closing [.substitution p 1] q (cs ++ ')' :: rest) = .ok cs.length := by
  rw [List.append_cons]
  have alone := isClosed_iff.mp h
  rw [← List.append_nil (cs ++ [')'])] at alone
  exact substitution_unplaced (closing_local alone (by simp) rest) p q

/-- What a substitution encloses is a closed text, and a parenthesis comes after it. -/
theorem exists_of_closing {o p : Position} {cs : List Char} {k : Nat}
    (h : closing [.substitution o 1] p cs = .ok k) :
    ∃ inside after, cs = inside ++ ')' :: after ∧ inside.length = k ∧ isClosed inside := by
  obtain ⟨after, mark⟩ := closing_mark h (List.cons_ne_nil _ _) (by rintro _ ⟨⟩; rfl)
  have parted : cs = cs.take k ++ ')' :: after := by rw [← mark, List.take_append_drop]
  have within : k ≤ cs.length := by
    have := congrArg List.length mark
    rw [List.length_drop, List.length_cons] at this
    omega
  have length : (cs.take k).length = k := List.length_take_of_le within
  refine ⟨cs.take k, after, parted, length, isClosed_iff.mpr ?_⟩
  rw [parted, List.append_cons] at h
  have alone := closing_local h (by simp [length]) []
  rw [List.append_nil] at alone
  rw [length]
  exact substitution_unplaced alone .start .start

end Sigil.Lexer
