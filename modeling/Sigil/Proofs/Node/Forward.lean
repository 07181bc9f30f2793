import Sigil.Proofs.Node.CoveredExpressions

/-!
# Spans of a script

Every node of a script has a span, which stands in the text and does not end
before it starts (`parseProgram_spanned`). This asks nothing of the text, in which
strings may have substitutions that are read on beyond their end.
-/

namespace Sigil

variable {enclosed : Prop} {base limit : Nat} {s t : Stream} {x : Token} {ns : List Node}
  {source : List Char} {n : Node}

/-- A span of a text, which does not end before it starts. -/
structure Span.Proper (source : List Char) (s : Span) : Prop where
  standsIn : s.StandsIn source
  forward : s.start.offset ≤ s.stop.offset

theorem Span.Proper.point {p : Position} (h : p.StandsIn source) : (Span.point p).Proper source :=
  ⟨⟨h, h⟩, Nat.le_refl _⟩

namespace Stream

/-- The token to come does not end before it starts, even if it is the end of the text. -/
theorem Laid.next_ordered (h : s.Laid enclosed base limit) (hx : s.Next x) :
    x.span.start.offset ≤ x.span.stop.offset := by
  have tokens := h.tokens
  cases ahead : s.ahead with
  | cons y ys =>
    cases hx.symm.trans (next_of_ahead ahead)
    rw [ahead] at tokens
    exact tokens.2.1.ordered
  | nil =>
    -- only a text with a fault has no token at all, and there is none to see in it
    cases hs : s.error with
    | some e =>
      have inside := length_of_peek hx (by rw [hs]; rfl)
      rw [ahead] at inside
      exact absurd inside (Nat.lt_irrefl 0)
    | none =>
      obtain ⟨z, last, -⟩ := h.ends hs
      rw [ahead] at last
      cases last

/-- The span of all that was read of a stream, which may be nothing. -/
theorem Gains.ordered (h : s.Gains enclosed base t ns) (hs : s.Laid enclosed base limit)
    (fresh : s.previous = none) (hx : s.Next x) :
    x.span.start.offset ≤ (t.previous.getD x).span.stop.offset := by
  obtain ⟨read, took⟩ := h.took
  have previous := took.previous
  rw [fresh, Option.or_none] at previous
  cases read with
  | nil =>
    rw [previous]
    exact hs.next_ordered hx
  | cons y read =>
    have begun := took.edge_lt hs (List.cons_ne_nil y read)
    have ahead := took.ahead
    rw [List.cons_append] at ahead
    cases hx.symm.trans (next_of_ahead ahead)
    rw [edge_of_next hx (took.real x List.mem_cons_self), floor, previous] at begun
    rw [previous]
    exact begun.le

end Stream

/-- All nodes of a script have spans in its text. -/
theorem parseProgram_spanned (h : parseProgram source = .ok n) :
    n.Spanned fun span => ∃ s, span = some s ∧ s.Proper source := by
  obtain ⟨⟨⟨span, body⟩, u⟩, hu, made⟩ := bind_eq_ok h
  cases made
  obtain ⟨limit, laid, -⟩ :=
    Stream.laid_ofLexed (View.whole source) (fun h : False => h.elim) false
  obtain ⟨gains, -, x, hx, hspan⟩ :=
    Parser.yields_program (Parser.lays_expressionUpTo _) laid _ u hu
  have forward : (Node.program span body).Forward :=
    Node.spanned_iff.mpr ⟨⟨_, hspan, gains.ordered laid rfl hx⟩, gains.stand.forward⟩
  have stream := Stream.standsIn_ofLexed (View.standsIn_whole source).tokens false 0
  have placed := Parser.program_places (Parser.expressionUpTo_places (source.length + 1)) _ stream
  rw [← tokenize, hu] at placed
  have standsIn : (Node.program span body).StandsIn source :=
    Parser.standsIn_of placed.1.1 placed.1.2
  intro m hm
  obtain ⟨s, hs, le⟩ := forward m hm
  exact ⟨s, hs, standsIn m hm s hs, le⟩

/-- A script that is not read stops at a place in its text. -/
theorem parseProgram_stop {stop : Stop} (h : parseProgram source = .error stop) :
    stop.StandsIn source := by
  have stream := Stream.standsIn_ofLexed (View.standsIn_whole source).tokens false 0
  have placed := Parser.program_places (Parser.expressionUpTo_places (source.length + 1)) _ stream
  rw [parseProgram, tokenize] at h
  generalize (Parser.program _).run _ = r at placed h
  cases r with
  | error stop =>
    cases h
    exact placed
  | ok r => cases h

end Sigil
