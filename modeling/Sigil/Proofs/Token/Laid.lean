import Sigil.Proofs.Token.Respaced

/-!
# Tokens one behind the other

The tokens of a view stand one behind the other, and so do the variables and
substitutions of a string within the string (`View.laid_of_stop`). If the view
is contained, what is read within a substitution in a string stands between the
marks of the substitution (`View.laid_tokens`); whether this is asked for is a
parameter of what is said here and of what readers make of the tokens.
-/

namespace Sigil

/-- A piece of a text that is not empty and stands between two offsets. -/
def Span.Between (lo hi : Nat) (s : Span) : Prop :=
  lo ≤ s.start.offset ∧ s.start.offset < s.stop.offset ∧ s.stop.offset ≤ hi

theorem Span.Between.mono {lo lo' hi hi' : Nat} {s : Span} (h : s.Between lo hi) (hlo : lo' ≤ lo)
    (hhi : hi ≤ hi') : s.Between lo' hi' :=
  ⟨hlo.trans h.1, h.2.1, h.2.2.trans hhi⟩

/-- The variables and substitutions of a string stand one behind the other between two offsets, and
what is in a substitution stands between its marks. -/
def StringPart.Laid (hi : Nat) : Nat → List StringPart → Prop
  | _, [] => True
  | lo, .text _ :: ps => Laid hi lo ps
  | lo, .variable _ _ s :: ps => s.Between lo hi ∧ Laid hi s.stop.offset ps
  | lo, .substitution w s :: ps => (s.Between lo hi ∧ s.start.offset ≤ w.position.offset ∧
      w.position.offset + w.inside.length ≤ s.stop.offset) ∧ Laid hi s.stop.offset ps

namespace StringPart

variable {lo lo' hi hi' : Nat} {ps : List StringPart}

theorem Laid.mono (h : Laid hi lo ps) (hlo : lo' ≤ lo) (hhi : hi ≤ hi') : Laid hi' lo' ps := by
  induction ps generalizing lo lo' with
  | nil => trivial
  | cons p ps ih =>
    cases p with
    | text s =>
      have rest : Laid hi lo ps := h
      exact ih rest hlo
    | «variable» name default s => exact ⟨h.1.mono hlo hhi, ih h.2 (Nat.le_refl _)⟩
    | substitution w s => exact ⟨⟨h.1.1.mono hlo hhi, h.1.2⟩, ih h.2 (Nat.le_refl _)⟩

theorem laid_prependText (text : List Char) (h : Laid hi lo ps) :
    Laid hi lo (Lexer.prependText text ps) := by
  unfold Lexer.prependText
  split_ifs <;> exact h

end StringPart

namespace Lexer

/-- The parts of a string stand in order in what they were read from. -/
theorem ReadsParts.laid {p : Position} {text cs : List Char} {parts : List StringPart} {n : Nat}
    (h : ReadsParts p text cs parts n) : StringPart.Laid (p.offset + n) p.offset parts := by
  induction h with
  | quote => exact StringPart.laid_prependText _ trivial
  | escaped means more ih =>
    rw [Position.offset_step, Position.offset_step] at ih
    exact ih.mono (by omega) (by omega)
  | @substitution p text inside rest parts n closed more ih =>
    have start : ((p.step '$').step '(').offset = p.offset + 2 := by
      rw [Position.offset_step, Position.offset_step]
    have stop : ((((p.step '$').step '(').after inside).step ')').offset =
        p.offset + 2 + inside.length + 1 := by
      rw [Position.offset_step, Position.offset_after, start]
    refine StringPart.laid_prependText _ ⟨⟨⟨Nat.le_refl _, ?_, ?_⟩, ?_, ?_⟩, ?_⟩
    all_goals dsimp only
    · omega
    · omega
    · omega
    · omega
    · exact ih.mono (Nat.le_refl _) (by omega)
  | @«variable» p text taken rest name default parts n refers more ih =>
    have stop : ((p.step '$').after taken).offset = p.offset + 1 + taken.length := by
      rw [Position.offset_after, Position.offset_step]
    refine StringPart.laid_prependText _ ⟨⟨Nat.le_refl _, ?_, ?_⟩, ?_⟩
    all_goals dsimp only
    · omega
    · omega
    · exact ih.mono (Nat.le_refl _) (by omega)
  | char quote backslash sigil more ih =>
    rw [Position.offset_step] at ih
    exact ih.mono (by omega) (by omega)

/-- The parts of a string stand in order behind the quote that opens it. -/
theorem laid_content {p : Position} {c : Char} {inside beyond : List Char} {said : Token.Content}
    {n : Nat} (h : content p c inside beyond = .ok (said, n)) :
    ∀ ps, said = .string ps → StringPart.Laid (p.offset + (n + 1)) p.offset ps := by
  rintro _ rfl
  cases content_eq_ok_iff.mp h with
  | string cut =>
    have laid := cut.laid
    rw [Position.offset_step] at laid
    exact laid.mono (by omega) (by omega)
  | raw => exact StringPart.laid_prependText _ trivial

end Lexer

/-! ## Tokens -/

/-- A token has a place, which is not empty unless it is the end of the text, and the parts of a
string have places in that. If this is asked for, it encloses what is read within it. -/
structure Token.Sited (enclosed : Prop) (t : Token) : Prop where
  ordered : t.span.start.offset ≤ t.span.stop.offset
  nonempty : t.content ≠ .endOfInput → t.span.start.offset < t.span.stop.offset
  parts : ∀ ps, t.content = .string ps → StringPart.Laid t.span.stop.offset t.span.start.offset ps
  contained : enclosed → t.Contained

/-- Tokens stand one behind the other between two offsets. -/
def Token.Laid (enclosed : Prop) (hi : Nat) : Nat → List Token → Prop
  | lo, [] => lo ≤ hi
  | lo, t :: ts =>
    lo ≤ t.span.start.offset ∧ t.Sited enclosed ∧ Laid enclosed hi t.span.stop.offset ts

variable {enclosed : Prop}

theorem Token.Laid.le {lo hi : Nat} {ts : List Token} (h : Laid enclosed hi lo ts) : lo ≤ hi := by
  induction ts generalizing lo with
  | nil => exact h
  | cons t ts ih => exact h.1.trans (h.2.1.ordered.trans (ih h.2.2))

namespace View

theorem laid_of_stop {v : View} {hi : Nat} (start : v.position.offset ≤ hi)
    (stops : ∀ t ∈ v.tokens.tokens, t.span.stop.offset ≤ hi ∧ (enclosed → t.Contained)) :
    Token.Laid enclosed hi v.position.offset v.tokens.tokens := by
  fun_induction View.tokens v with
  | case1 v w hw =>
    have gap := Lexer.gapLength_le false v.inside
    have moved : w.position.offset = v.position.offset + _ := offset_advance gap
    have last := stops _ (List.mem_singleton_self _)
    refine ⟨?_, ⟨Nat.le_refl _, fun real => absurd rfl real, ?_, last.2⟩, last.1⟩
    · show v.position.offset ≤ w.position.offset
      omega
    · rintro _ ⟨⟩
  | case2 => exact start
  | case3 v w c cs hw said n hc rest lexeme ih =>
    have gap := Lexer.gapLength_le false v.inside
    have moved : w.position.offset = v.position.offset + _ := offset_advance gap
    have stop : rest.position.offset = w.position.offset + (n + 1) :=
      offset_advance_of_le (length_content hw hc)
    have first := stops _ List.mem_cons_self
    refine ⟨?_, ⟨?_, fun _ => ?_, ?_, first.2⟩, ih first.1 fun t ht =>
      stops t (List.mem_cons_of_mem _ ht)⟩
    · show v.position.offset ≤ w.position.offset
      omega
    · show w.position.offset ≤ rest.position.offset
      omega
    · show w.position.offset < rest.position.offset
      omega
    · intro ps string
      have laid := Lexer.laid_content hc ps string
      rwa [← stop] at laid

/-- The tokens of a view, which encloses them and what is read within them if this is asked for. -/
theorem laid_tokens (v : View) (contained : enclosed → v.Bounded ∧ v.Contained) :
    ∃ hi, Token.Laid enclosed hi v.position.offset v.tokens.tokens ∧
      (enclosed → hi = v.position.offset + v.inside.length) := by
  by_cases within : enclosed
  · obtain ⟨bounded, contained⟩ := contained within
    exact ⟨_, laid_of_stop (Nat.le_add_right _ _) fun t ht =>
      ⟨bounded t ht, fun _ => contained.token ht⟩, fun _ => rfl⟩
  · exact ⟨_, laid_of_stop (Nat.le_add_right _ _) fun t ht =>
      ⟨v.tokens_stop t ht, fun h => absurd h within⟩, fun h => absurd h within⟩

end View

end Sigil
