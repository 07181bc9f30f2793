import Mathlib.Data.List.TakeWhile
import Mathlib.Tactic.SplitIfs
import Sigil.Editor
import Sigil.Proofs.Token.Placed

/-!
# Lines in an editor

An editor cuts a text into lines by itself, at more characters than positions
count as ends of lines. Where lines end as positions count them
(`Text.breaksPlainly`), the line of a place is the one that its position says
(`Text.getElem?_linesWithEnds`). A position counts the line feeds before it
(`Position.line_after_start`) and what stands behind the last of them
(`Position.column_after_start`).
-/

namespace Sigil

namespace Text

/-- Whether every line of a text ends with a line feed, which may follow a carriage return. -/
def breaksPlainly : List Char → Bool
  | [] => true
  | '\r' :: '\n' :: cs => breaksPlainly cs
  | c :: cs => (!isLineEnd c || c = '\n') && breaksPlainly cs

/-- The first line of a text, with its end. -/
def firstLine (cs : List Char) : List Char :=
  (linesWithEnds cs).head?.getD []

/-- What a text has after its last line feed. -/
def lastLine (cs : List Char) : List Char :=
  (cs.reverse.takeWhile (· ≠ '\n')).reverse

variable {c : Char} {cs before word rest : List Char}

theorem linesWithEnds_cons (h : isLineEnd c = false) (cs : List Char) :
    linesWithEnds (c :: cs) = (c :: firstLine cs) :: (linesWithEnds cs).tail := by
  rw [linesWithEnds, if_neg (by rw [h]; exact Bool.false_ne_true)]
  · rw [firstLine]
    cases linesWithEnds cs <;> rfl
  · rintro _ rfl -
    cases h

theorem linesWithEnds_feed (cs : List Char) :
    linesWithEnds ('\n' :: cs) = ['\n'] :: linesWithEnds cs := by
  rw [linesWithEnds]
  · rfl
  · intro _ h
    cases h

/-- The first line goes on with what comes first after it. -/
theorem head?_firstLine (cs : List Char) : (firstLine cs).head? = cs.head? := by
  rw [firstLine]
  fun_cases linesWithEnds cs with
  | case1 => rfl
  | case2 => rfl
  | case3 c cs _ h => rfl
  | case4 => rfl
  | case5 => rfl

theorem firstLine_append (free : ∀ c ∈ word, isLineEnd c = false) (rest : List Char) :
    firstLine (word ++ rest) = word ++ firstLine rest := by
  induction word with
  | nil => rfl
  | cons c word ih =>
    obtain ⟨hc, free⟩ := List.forall_mem_cons.mp free
    rw [List.cons_append, firstLine, linesWithEnds_cons hc, List.head?_cons, Option.getD_some,
      ih free, List.cons_append]

theorem lastLine_append_singleton (cs : List Char) (c : Char) :
    lastLine (cs ++ [c]) = if c = '\n' then [] else lastLine cs ++ [c] := by
  by_cases h : c = '\n' <;> simp [lastLine, h]

theorem lastLine_append (free : '\n' ∉ word) (cs : List Char) :
    lastLine (cs ++ word) = lastLine cs ++ word := by
  have whole : ∀ c ∈ word.reverse, decide (c ≠ '\n') = true := fun c hc =>
    decide_eq_true fun feed => free (feed ▸ List.mem_reverse.mp hc)
  rw [lastLine, List.reverse_append, List.takeWhile_append_of_pos whole, List.reverse_append,
    List.reverse_reverse, lastLine]

theorem lastLine_cons (c : Char) (cs : List Char) : lastLine (c :: cs) =
    if c = '\n' ∨ '\n' ∈ cs then lastLine cs else c :: lastLine cs := by
  induction cs using List.reverseRecOn with
  | nil => by_cases h : c = '\n' <;> simp [lastLine, h]
  | append_singleton cs d ih =>
    rw [← List.cons_append, lastLine_append_singleton, lastLine_append_singleton, ih]
    by_cases h : d = '\n'
    · simp [h]
    · simp only [h, if_false, List.mem_append, List.mem_singleton, Ne.symm h, or_false]
      split_ifs <;> rfl

/-- Where lines end plainly, the line of a place is the one after as many line feeds. -/
theorem getElem?_linesWithEnds (plain : breaksPlainly before) (here : word ≠ [])
    (free : ∀ c ∈ word, isLineEnd c = false) (rest : List Char) :
    (linesWithEnds (before ++ (word ++ rest)))[before.count '\n']? =
      some (lastLine before ++ (word ++ firstLine rest)) := by
  fun_induction breaksPlainly before with
  | case1 =>
    obtain ⟨c, word, rfl⟩ := List.exists_cons_of_ne_nil here
    obtain ⟨hc, free⟩ := List.forall_mem_cons.mp free
    rw [List.nil_append, List.cons_append, linesWithEnds_cons hc, firstLine_append free]
    rfl
  | case2 before ih =>
    have count : ('\r' :: '\n' :: before).count '\n' = before.count '\n' + 1 := by simp
    rw [List.cons_append, List.cons_append, linesWithEnds, count, List.getElem?_cons_succ,
      ih plain, lastLine_cons, if_pos (.inr List.mem_cons_self), lastLine_cons, if_pos (.inl rfl)]
  | case3 c before _ ih =>
    rw [Bool.and_eq_true, Bool.or_eq_true, decide_eq_true_iff] at plain
    obtain ⟨hc, plain⟩ := plain
    have found := ih plain
    by_cases feed : c = '\n'
    · subst feed
      rw [List.cons_append, linesWithEnds_feed, List.count_cons_self, List.getElem?_cons_succ,
        found, lastLine_cons, if_pos (.inl rfl)]
    · have hc : isLineEnd c = false := by simpa using hc.resolve_right feed
      rw [List.cons_append, linesWithEnds_cons hc, List.count_cons_of_ne feed, lastLine_cons]
      by_cases more : '\n' ∈ before
      · obtain ⟨k, hk⟩ := Nat.exists_eq_succ_of_ne_zero (List.count_pos_iff.mpr more).ne'
        rw [hk] at found ⊢
        rw [if_pos (.inr more), List.getElem?_cons_succ, List.getElem?_tail]
        exact found
      · rw [List.count_eq_zero_of_not_mem more] at found ⊢
        rw [← List.head?_eq_getElem?] at found
        rw [if_neg (not_or.mpr ⟨feed, more⟩), List.getElem?_cons_zero, firstLine, found]
        rfl

end Text

theorem Position.line_after_start (before : List Char) :
    (Position.start.after before).line = before.count '\n' + 1 := by
  have place : Position.ofOffset before before.length = .after .start (before.take _) :=
    Position.ofOffset_eq_after (Nat.le_refl _)
  rw [List.take_length] at place
  rw [← place, Position.ofOffset, List.take_length]

theorem Position.column_after_start (before : List Char) :
    (Position.start.after before).column = (Text.lastLine before).length + 1 := by
  have place : Position.ofOffset before before.length = .after .start (before.take _) :=
    Position.ofOffset_eq_after (Nat.le_refl _)
  rw [List.take_length] at place
  rw [← place, Position.ofOffset, List.take_length, Nat.sub_self, Nat.zero_add, Text.lastLine,
    List.length_reverse]

end Sigil
