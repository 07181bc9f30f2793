import Sigil.Proofs.Token.Completable
import Sigil.Proofs.Token.Respaced

/-!
# Excerpts

The text from the start of a token to the end of a later one has the tokens from
the one to the other, adjacent where they were, and no others
(`View.tokens_excerpt`). Nothing in it depends on what stands before it, and
where it ends a token ends in the whole text.
-/

namespace Sigil

/-- What is between the start and the end of a span. -/
theorem Span.slice_append {s : Span} {before inside behind : List Char}
    (start : s.start.offset = before.length)
    (stop : s.stop.offset = before.length + inside.length) :
    s.slice (before ++ (inside ++ behind)) = inside := by
  rw [slice, start, stop, ← List.append_assoc, ← List.length_append, List.take_left, List.drop_left]

namespace View

variable {v u : View} {ts us : List Token} {x y : Token}

theorem Reads.split (h : Reads v (ts ++ us) u) : ∃ w, Reads v ts w ∧ Reads w us u := by
  induction ts generalizing v with
  | nil => exact ⟨v, .refl v, h⟩
  | cons t ts ih =>
    cases h with
    | token hw hi hc rest =>
      obtain ⟨w, before, after⟩ := ih rest
      exact ⟨w, .token hw hi hc before, after⟩

/-- Where the last token ends is where reading goes on. -/
theorem Reads.stop (h : Reads v ts u) (last : y ∈ ts.getLast?) : y.span.stop = u.position := by
  induction h with
  | refl v => cases last
  | token hw hi hc rest ih =>
    rw [List.getLast?_cons] at last
    cases hts : List.getLast? _ with
    | none =>
      rw [hts] at last
      cases last
      rw [List.getLast?_eq_none_iff] at hts
      subst hts
      cases rest
      rfl
    | some z =>
      rw [hts] at last
      exact ih (hts.trans last)

/-- What tokens are read from, without the gap before the first of them. -/
theorem Reads.trimmed (h : Reads v (x :: ts) u) (holds : v.Holds (x :: ts)) :
    ∃ gap text, v.inside = gap ++ (text ++ u.inside) ∧
      x.span.start.offset = v.position.offset + gap.length ∧
      Lexer.Respaced true v.position.offset (x :: ts) text := by
  cases h with
  | @token _ w _ c ds said n _ hw hi hc rest =>
    obtain ⟨within, holds⟩ := holds.after hw hi hc rfl
    obtain ⟨token, ds, rfl, rfl, lexeme, inside, -⟩ := advance_token hi within
    obtain ⟨text, htext, respaced⟩ := rest.self holds (.nil : Lexer.Gap false [])
    have gap_le := Lexer.gapLength_le false v.inside
    refine ⟨v.inside.take (Lexer.gapLength false v.inside), c :: token ++ text, ?_, ?_, ?_⟩
    · rw [List.append_assoc, ← htext, inside, List.cons_append, ← hi, ← hw, inside_advance,
        List.take_append_drop]
    · rw [List.length_take, Nat.min_eq_left gap_le, ← offset_advance gap_le, hw]
    · have start : Lexer.Respaced true v.position.offset
          (⟨said, String.ofList (c :: token), ⟨w.position, _⟩⟩ :: ts) _ :=
        .token .nil (.inl rfl) respaced
      rw [String.toList_ofList, List.append_nil] at start
      simpa [lexeme] using start

/-- The tokens of the text from the start of one token to the end of another. -/
theorem tokens_excerpt {source : List Char} {before inner behind : List Token}
    (h : Reads (whole source) (before ++ (x :: inner ++ behind)) u)
    (holds : (whole source).Holds (before ++ (x :: inner ++ behind)))
    (last : y ∈ (x :: inner).getLast?) :
    ∃ ps q, ps.map Prod.fst = x :: inner ∧ Token.Kins ps ∧
      (whole (Span.slice ⟨x.span.start, y.span.stop⟩ source)).tokens =
        ⟨ps.map Prod.snd ++ [.atEnd q], none⟩ := by
  obtain ⟨v, before, h⟩ := h.split
  obtain ⟨w, read, -⟩ := h.split
  obtain ⟨a, ha, rfl⟩ := before.eq_advance rfl
  have start : ((whole source).advance a).position.offset = a :=
    (offset_advance ha).trans (Nat.zero_add a)
  have inside : ((whole source).advance a).inside = source.drop a := rfl
  have beyond : ((whole source).advance a).beyond = [] := beyond_advance ha
  replace ha : a ≤ source.length := ha
  generalize (whole source).advance a = v at *
  have left : v.position.offset + v.inside.length = source.length := by
    rw [start, inside, List.length_drop, Nat.add_sub_cancel' ha]
  have held : v.Holds (x :: inner) := fun t ht => by
    have bound := holds t (List.mem_append_right _ (List.mem_append_left _ ht))
    rw [left]
    exact bound.trans_eq (Nat.zero_add _)
  obtain ⟨gap, text, whole_eq, first, respaced⟩ := read.trimmed held
  obtain ⟨b, hb, rfl⟩ := read.eq_advance beyond
  have stop := congrArg Position.offset (read.stop last)
  rw [offset_advance hb] at stop
  have excerpt : Span.slice ⟨x.span.start, y.span.stop⟩ source = text := by
    have cut : source = (source.take a ++ gap) ++ (text ++ (v.advance b).inside) := by
      rw [List.append_assoc, ← whole_eq, inside, List.take_append_drop]
    have passed : (source.take a ++ gap).length = v.position.offset + gap.length := by
      rw [List.length_append, List.length_take, Nat.min_eq_left ha, start]
    have read : b = gap.length + text.length := by
      have length := congrArg List.length whole_eq
      rw [List.length_append, List.length_append, inside_advance, List.length_drop] at length
      omega
    refine (congrArg _ cut).trans (Span.slice_append (first.trans passed.symm) ?_)
    rw [passed, stop, read, Nat.add_assoc]
  obtain ⟨ps, q, hps, tokens, kins, -⟩ :=
    read.respaced held (w := .whole text) respaced (by rintro _ ⟨⟩)
  exact ⟨ps, q, hps, kins, excerpt ▸ tokens⟩

end View

end Sigil
