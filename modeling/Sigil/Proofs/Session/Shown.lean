import Sigil.Proofs.Token.Placed
import Sigil.Session

/-!
# How failures are shown

A failure at a place that stands in a text is shown with the line of the text in
which it stands, and under it a mark at the place (`Failure.format_standsIn`).
Places count their lines (`Position.line_column_after`) as the text is cut into
lines (`Text.getElem?_splitAtChar`).
-/

namespace Sigil

/-! ## Lines -/

namespace Text

/-- A line comes first if no other line is before it. -/
theorem splitAtChar_line {sep : Char} {line rest : List Char} (free : sep ∉ line)
    (ends : ∀ c ∈ rest.head?, c = sep) :
    ∃ lines, splitAtChar sep (line ++ rest) = line :: lines := by
  induction line with
  | nil =>
    cases rest with
    | nil => exact ⟨[], rfl⟩
    | cons c rest =>
      rw [List.nil_append, splitAtChar, if_pos (ends c rfl)]
      exact ⟨_, rfl⟩
  | cons c line ih =>
    rw [List.mem_cons, not_or] at free
    obtain ⟨lines, h⟩ := ih free.2
    refine ⟨lines, ?_⟩
    rw [List.cons_append, splitAtChar, if_neg (Ne.symm free.1), h]

/-- A line is found behind the lines that end before it. -/
theorem getElem?_splitAtChar {sep : Char} {lead line rest : List Char}
    (begins : ∀ c ∈ lead.getLast?, c = sep) (free : sep ∉ line) (ends : ∀ c ∈ rest.head?, c = sep) :
    (splitAtChar sep (lead ++ (line ++ rest)))[lead.count sep]? = some line := by
  induction lead with
  | nil =>
    obtain ⟨lines, h⟩ := splitAtChar_line free ends
    rw [List.nil_append, h]
    rfl
  | cons c lead ih =>
    have begins' : ∀ d ∈ lead.getLast?, d = sep := by
      cases lead with
      | nil => nofun
      | cons => exact begins
    have found := ih begins'
    rw [List.cons_append, splitAtChar]
    split_ifs with e
    · rw [e, List.count_cons_self, List.getElem?_cons_succ]
      exact found
    · -- a separator is still to come
      obtain ⟨k, hk⟩ : ∃ k, lead.count sep = k + 1 := by
        refine Nat.exists_eq_succ_of_ne_zero fun none => ?_
        cases lead with
        | nil => exact e (begins c rfl)
        | cons d lead =>
          have last := List.getLast?_eq_some_getLast (List.cons_ne_nil d lead)
          rw [begins' _ last] at last
          exact List.count_eq_zero.mp none (List.mem_of_getLast? last)
      rw [List.count_cons_of_ne e, hk]
      rw [hk] at found
      cases lines : splitAtChar sep (lead ++ (line ++ rest)) with
      | nil => rw [lines] at found; cases found
      | cons piece pieces => rw [lines] at found; exact found

end Text

namespace Position

/-- The place stands in a line of the text, behind `first` and before `last`. -/
def InLine (source : List Char) (p : Position) (first last : List Char) : Prop :=
  '\n' ∉ first ++ last ∧ ∃ lead rest, source = lead ++ (first ++ last ++ rest) ∧
    p.offset = (lead ++ first).length ∧ (∀ c ∈ lead.getLast?, c = '\n') ∧ ∀ c ∈ rest.head?, c = '\n'

/-- What lies before a place: whole lines, which its line counts, and what its column counts. -/
theorem line_column_after (before : List Char) : ∃ lead first, before = lead ++ first ∧
    '\n' ∉ first ∧ (∀ c ∈ lead.getLast?, c = '\n') ∧
      (start.after before).line = lead.count '\n' + 1 ∧
      (start.after before).column = first.length + 1 := by
  induction before using List.reverseRecOn with
  | nil => exact ⟨[], [], rfl, nofun, nofun, rfl, rfl⟩
  | append_singleton before c ih =>
    obtain ⟨lead, first, rfl, free, begins, line, column⟩ := ih
    rw [after_append, after_cons, after_nil, step]
    split_ifs with e
    · refine ⟨lead ++ first ++ [c], [], (List.append_nil _).symm, nofun, fun d hd => ?_, ?_, rfl⟩
      · rw [List.getLast?_concat] at hd
        cases hd
        exact e
      · rw [e, List.count_append, List.count_append, List.count_eq_zero_of_not_mem free, line]
        rfl
    · refine ⟨lead, first ++ [c], List.append_assoc _ _ _, ?_, begins, line, ?_⟩
      · simpa using ⟨free, Ne.symm e⟩
      · rw [List.length_append, column]
        rfl

/-- A place in a text by its line, which is found where the place says. -/
theorem StandsIn.inLine {source : List Char} {p : Position} (h : p.StandsIn source) :
    ∃ first last, p.InLine source first last ∧ p.column = first.length + 1 ∧ p.line ≠ 0 ∧
      (Text.splitAtChar '\n' source)[p.line - 1]? = some (first ++ last) := by
  obtain ⟨before, ⟨rest, rfl⟩, rfl⟩ := h
  obtain ⟨lead, first, rfl, free, begins, line, column⟩ := line_column_after before
  obtain ⟨last, tail, rfl, free', ends⟩ : ∃ last tail, rest = last ++ tail ∧ '\n' ∉ last ∧
      ∀ c ∈ tail.head?, c = '\n' := by
    by_cases more : '\n' ∈ rest
    · obtain ⟨last, tail, h, free⟩ := List.eq_append_cons_of_mem more
      exact ⟨last, _, h, free, by rintro _ ⟨⟩; rfl⟩
    · exact ⟨rest, [], (List.append_nil _).symm, more, fun c hc => by cases hc⟩
  have whole : lead ++ first ++ (last ++ tail) = lead ++ (first ++ last ++ tail) := by
    simp only [List.append_assoc]
  have free : '\n' ∉ first ++ last := by
    simpa using ⟨free, free'⟩
  have offset : (start.after (lead ++ first)).offset = (lead ++ first).length := by
    rw [offset_after]
    exact Nat.zero_add _
  refine ⟨first, last, ⟨free, lead, tail, whole, offset, begins, ends⟩, column, ?_, ?_⟩
  · rw [line]
    exact Nat.succ_ne_zero _
  · rw [whole, line]
    exact Text.getElem?_splitAtChar begins free ends

end Position

/-! ## Failures -/

/-- A failure at a place in the text is shown with its line, and with a mark under the place. -/
theorem Failure.format_standsIn {source : List Char} {f : Failure} {p : Position}
    (hp : f.position = some p) (h : p.StandsIn source) :
    ∃ first last, p.InLine source first last ∧
      f.format source = s!"Error on line {p.line}, col {p.column}: {f.message}" ++ "\n  " ++
        String.ofList (first ++ last) ++ "\n  " ++
        String.ofList (List.replicate first.length ' ') ++ "^" := by
  obtain ⟨first, last, inLine, column, line, found⟩ := h.inLine
  refine ⟨first, last, inLine, ?_⟩
  unfold format
  rw [hp]
  dsimp only
  rw [if_neg line, found, column]
  rfl

end Sigil
