import Sigil.Proofs.Editor.Lines
import Sigil.Proofs.Node.Forward
import Sigil.Proofs.Typing.Told

/-!
# Ranges of diagnostics

Every diagnostic of a document is about a span of its text that does not end
before it starts (`Document.diagnostics_proper`): a point where reading stopped, or
the span of a node. A span that does not lie in one line starts in an earlier line
than it ends (`Span.Proper.lines`), and may well end left of the column where it
starts. The range of a span keeps its end right of its start, so as to mark
something where there is nothing, but compares columns only. So it is the range from
the start to the end, unless a span of more than one line ends at or left of the
column where it starts (`Document.diagnostics_marked`).
-/

namespace Sigil

variable {source : List Char} {s : Span}

/-! ## Lines and columns of a span -/

theorem Position.StandsIn.positive {p : Position} (h : p.StandsIn source) :
    0 < p.line ∧ 0 < p.column := by
  obtain ⟨before, -, rfl⟩ := h
  rw [line_after_start, column_after_start]
  exact ⟨Nat.succ_pos _, Nat.succ_pos _⟩

/-- A span is a point, or lies in one line, or ends in a later line than it starts. -/
theorem Span.Proper.lines (h : s.Proper source) : s.start = s.stop ∨
    s.start.line = s.stop.line ∧ s.start.column < s.stop.column ∨ s.start.line < s.stop.line := by
  obtain ⟨⟨⟨before, inText, start⟩, ⟨upTo, inText', stop⟩⟩, forward⟩ := h
  have length {cs : List Char} : (Position.start.after cs).offset = cs.length := by
    rw [Position.offset_after]
    exact Nat.zero_add _
  rw [start, stop, length, length] at forward
  obtain ⟨piece, rfl⟩ := List.prefix_of_prefix_length_le inText inText' forward
  rw [start, stop]
  by_cases feeds : '\n' ∈ piece
  · refine .inr (.inr ?_)
    have := List.count_pos_iff.mpr feeds
    rw [Position.line_after_start, Position.line_after_start, List.count_append]
    omega
  · cases piece with
    | nil => exact .inl (by rw [List.append_nil])
    | cons c piece =>
      refine .inr (.inl ⟨?_, ?_⟩)
      · rw [Position.line_after_start, Position.line_after_start, List.count_append,
          List.count_eq_zero_of_not_mem feeds, Nat.add_zero]
      · rw [Position.column_after_start, Position.column_after_start,
          Text.lastLine_append feeds, List.length_append, List.length_cons]
        omega

/-! ## Ranges -/

namespace EditorRange

/-- The range from the start of a span to its end. -/
def exact (s : Span) : EditorRange :=
  ⟨s.start.line - 1, s.start.column - 1, s.stop.line - 1, s.stop.column - 1⟩

/-- The range of a span is the one from its start to its end, if it ends right of its start. -/
theorem ofSpan?_eq_exact (h : s.start.column < s.stop.column) :
    ofSpan? (some s) = exact s := by
  rw [ofSpan?, exact, Nat.max_eq_left (Nat.le_sub_one_of_lt h)]

/-- Else it ends by the character that the span starts with, whatever the line is. -/
theorem ofSpan?_of_le (h : s.stop.column ≤ s.start.column) :
    ofSpan? (some s) = { exact s with endCharacter := s.start.column } := by
  rw [ofSpan?, exact, Nat.max_eq_right ((Nat.sub_le _ 1).trans h)]

end EditorRange

/-! ## Diagnostics -/

namespace Document

/-- Every diagnostic of a document is about a span of its text. -/
theorem diagnostics_proper (text : List Char) :
    ∀ d ∈ (ofText text).diagnostics, ∃ s, d.span = some s ∧ s.Proper text := by
  have failed {f : Failure} {p : Position} (hf : f.span = some (.point p)) (hp : p.StandsIn text) :
      ∀ d ∈ (unreadable text f).diagnostics, ∃ s, d.span = some s ∧ s.Proper text :=
    List.forall_mem_singleton.mpr ⟨_, hf, .point hp⟩
  unfold ofText
  cases h : parseProgram text with
  | error stop =>
    have stands := parseProgram_stop h
    cases stop with
    | lex e => exact failed rfl stands
    | parse e => exact failed rfl stands
    | needsMore | exhausted => exact List.forall_mem_nil _
  | ok n => exact check_told (parseProgram_spanned h) Scopes.told_empty

/-- The range of a diagnostic. A diagnostic about a point is marked by the character there; one
about some text, from its start to its end, exactly unless it is about a text of more than one line
that ends at or left of the column where it starts, and then the range ends one character behind
that column. -/
theorem diagnostics_marked (text : List Char) (d : Diagnostic)
    (h : d ∈ (ofText text).diagnostics) : ∃ s, d.span = some s ∧ s.Proper text ∧
      (s.start = s.stop → EditorRange.ofSpan? d.span =
        ⟨s.start.line - 1, s.start.column - 1, s.start.line - 1, s.start.column⟩) ∧
      (s.start ≠ s.stop →
        (EditorRange.ofSpan? d.span = .exact s ↔
          ¬ (s.start.line < s.stop.line ∧ s.stop.column ≤ s.start.column)) ∧
        (s.start.line < s.stop.line → s.stop.column ≤ s.start.column →
          EditorRange.ofSpan? d.span =
            { EditorRange.exact s with endCharacter := s.start.column })) := by
  obtain ⟨s, span, proper⟩ := diagnostics_proper text d h
  refine ⟨s, span, proper, ?_⟩
  rw [span]
  refine ⟨fun point => ?_, fun some_ => ⟨⟨fun same => ?_, fun right => ?_⟩, fun _ left => ?_⟩⟩
  · rw [EditorRange.ofSpan?_of_le (congrArg Position.column point).ge, EditorRange.exact, ← point]
  · rintro ⟨-, left⟩
    rw [EditorRange.ofSpan?_of_le left] at same
    have column : s.start.column = s.stop.column - 1 := congrArg EditorRange.endCharacter same
    have positive := proper.standsIn.1.positive.2
    omega
  · refine EditorRange.ofSpan?_eq_exact ?_
    rcases proper.lines with point | ⟨-, before⟩ | later
    · exact absurd point some_
    · exact before
    · exact Nat.lt_of_not_le fun left => right ⟨later, left⟩
  · exact EditorRange.ofSpan?_of_le left

/-- A sum that is indented, and goes on in the next line. -/
def indentedSample : List Char :=
  "        1 +\n\"a\"".toList

/-- It cannot be added up, and what is marked goes on behind the end of its last line. -/
theorem diagnostics_marked_indentedSample : ∃ d ∈ (ofText indentedSample).diagnostics,
    d.span = some ⟨⟨8, 1, 9⟩, ⟨15, 2, 4⟩⟩ ∧ EditorRange.ofSpan? d.span = ⟨0, 8, 1, 9⟩ := by
  have spans : (ofText indentedSample).diagnostics.map (·.span) =
      [some ⟨⟨8, 1, 9⟩, ⟨15, 2, 4⟩⟩] := by
    decide +kernel
  obtain ⟨d, reported, span⟩ := List.map_eq_singleton_iff.mp spans
  have here : d ∈ (ofText indentedSample).diagnostics :=
    reported ▸ List.mem_singleton_self d
  obtain ⟨s, same, -, -, marked⟩ := diagnostics_marked indentedSample d here
  cases span.symm.trans same
  exact ⟨d, here, span, (marked (by decide)).2 (by decide) (by decide)⟩

end Document

end Sigil
