import Mathlib.Tactic.SplitIfs
import Sigil.Proofs.Token.Embedded

/-!
# Places in a text

Everything that is read from a text stands in it: each place that a token or a
fault of the text gives is where some of its characters end
(`Position.StandsIn`), with the line and the column that go with the offset
(`Position.standsIn_iff`).

The invariant of the readers is that they are at a place from which the text goes
on with what they still have to read (`Position.Precedes`). A view keeps it
however far it is advanced (`View.StandsIn.advance`), and the inside of a
substitution in a string is a view of the same text, so that what is read from it
later stands in the text as well (`View.StandsIn.tokens`).
-/

namespace Sigil

variable {source : List Char}

/-! ## Places -/

namespace Position

/-- The place is reached by characters that a text begins with. -/
def StandsIn (source : List Char) (p : Position) : Prop :=
  ∃ before, before <+: source ∧ p = start.after before

/-- From the place on a text goes on with `cs`. -/
def Precedes (source : List Char) (p : Position) (cs : List Char) : Prop :=
  ∃ before, source = before ++ cs ∧ p = start.after before

theorem standsIn_start : start.StandsIn source :=
  ⟨[], List.nil_prefix, rfl⟩

/-- The offset of a place in a text says which it is. -/
theorem standsIn_iff {p : Position} :
    p.StandsIn source ↔ p.offset ≤ source.length ∧ p = .ofOffset source p.offset := by
  constructor
  · rintro ⟨before, ⟨rest, rfl⟩, rfl⟩
    have offset : (start.after before).offset = before.length := by
      rw [offset_after]
      exact Nat.zero_add _
    have within : before.length ≤ (before ++ rest).length := by
      rw [List.length_append]
      exact Nat.le_add_right _ _
    rw [offset, ofOffset_eq_after within, List.take_left]
    exact ⟨within, rfl⟩
  · rintro ⟨within, h⟩
    refine ⟨source.take p.offset, List.take_prefix _ _, ?_⟩
    rw [← ofOffset_eq_after within]
    exact h

variable {p : Position} {c : Char} {cs : List Char}

theorem precedes_start : Precedes source start source :=
  ⟨[], rfl, rfl⟩

theorem Precedes.standsIn (h : Precedes source p cs) : p.StandsIn source :=
  let ⟨before, hs, hp⟩ := h
  ⟨before, ⟨cs, hs.symm⟩, hp⟩

theorem Precedes.step (h : Precedes source p (c :: cs)) : Precedes source (p.step c) cs := by
  obtain ⟨before, hs, rfl⟩ := h
  refine ⟨before ++ [c], by rw [hs, List.append_assoc]; rfl, ?_⟩
  rw [after_append]
  rfl

theorem Precedes.after {ds : List Char} (h : Precedes source p (ds ++ cs)) :
    Precedes source (p.after ds) cs := by
  obtain ⟨before, hs, rfl⟩ := h
  exact ⟨before ++ ds, by rw [hs, List.append_assoc], (after_append _ _ _).symm⟩

theorem Precedes.drop (h : Precedes source p cs) (n : Nat) :
    Precedes source (p.after (cs.take n)) (cs.drop n) :=
  Precedes.after (by rwa [List.take_append_drop])

end Position

/-! ## What stands in a text -/

/-- Both ends of the span stand in a text. -/
def Span.StandsIn (source : List Char) (s : Span) : Prop :=
  s.start.StandsIn source ∧ s.stop.StandsIn source

/-- A text goes on with what is to be read. -/
def View.StandsIn (source : List Char) (v : View) : Prop :=
  v.position.Precedes source (v.inside ++ v.beyond)

/-- What a part of a string refers to stands in a text. -/
def StringPart.StandsIn (source : List Char) : StringPart → Prop
  | .text _ => True
  | .variable _ _ span => span.StandsIn source
  | .substitution inside span => inside.StandsIn source ∧ span.StandsIn source

/-- What a token refers to stands in a text. -/
def Token.Content.StandsIn (source : List Char) : Token.Content → Prop
  | .string parts => ∀ part ∈ parts, part.StandsIn source
  | _ => True

/-- A token stands in a text, with all that it refers to. -/
structure Token.StandsIn (source : List Char) (t : Token) : Prop where
  span : t.span.StandsIn source
  content : t.content.StandsIn source

/-- The tokens stand in a text, and so does the fault after them. -/
structure Lexed.StandsIn (source : List Char) (l : Lexed) : Prop where
  tokens : ∀ t ∈ l.tokens, t.StandsIn source
  error : ∀ e ∈ l.error, e.position.StandsIn source

theorem Token.standsIn_atEnd {p : Position} (h : p.StandsIn source) :
    (Token.atEnd p).StandsIn source :=
  ⟨⟨h, h⟩, trivial⟩

namespace Lexer

variable {α β : Type}

/-- A result that is as `Q` says, or a fault that stands in a text. -/
def Places (source : List Char) (Q : α → Prop) : Except LexError α → Prop
  | .ok a => Q a
  | .error e => e.position.StandsIn source

theorem Places.bind {Q : α → Prop} {R : β → Prop} {r : Except LexError α}
    {f : α → Except LexError β} (h : Places source Q r)
    (hf : ∀ a, r = .ok a → Q a → Places source R (f a)) : Places source R (r >>= f) := by
  cases r with
  | ok a => exact hf a rfl h
  | error e => exact h

/-- A fault of something that was read from one place on. -/
theorem places_located {p : Position} (hp : p.StandsIn source) (r : Except LexFault α) :
    Places source (fun a => r = .ok a) (r.mapError (LexError.mk · p)) := by
  cases r with
  | ok a => rfl
  | error fault => exact hp

/-! ## Enclosures -/

/-- What the enclosures after a character say they were opened at stands in the text. -/
theorem Enclosure.standsIn_next {p : Position} {es : List Enclosure}
    (h : ∀ e ∈ es, e.opened.StandsIn source) (hp : p.StandsIn source) (c : Char)
    (following : Option Char) : ∀ e ∈ next p c following es, e.opened.StandsIn source := by
  cases es with
  | nil => exact h
  | cons innermost outer =>
    obtain ⟨innermost', outer'⟩ := List.forall_mem_cons.mp h
    have turn := Enclosure.turn_next p c following innermost outer
    generalize Enclosure.next p c following (innermost :: outer) = es at turn ⊢
    cases turn with
    | closes => exact outer'
    | changes opened => exact List.forall_mem_cons.mpr ⟨opened ▸ innermost', outer'⟩
    | opens opened => exact List.forall_mem_cons.mpr ⟨opened ▸ hp, h⟩

/-- A scan that does not find the end of a substitution shows where something was opened that is
never closed. -/
theorem closing_standsIn {es : List Enclosure} {p : Position} {cs : List Char} {e : LexError}
    (here : p.Precedes source cs) (h : ∀ e ∈ es, e.opened.StandsIn source)
    (found : closing es p cs = .error e) : e.position.StandsIn source := by
  induction cs generalizing es p with
  | nil =>
    cases es with
    | nil => cases found
    | cons innermost outer =>
      cases found
      have opened := h innermost List.mem_cons_self
      cases innermost <;> exact opened
  | cons c cs ih =>
    cases next : Enclosure.next p c cs.head? es with
    | nil =>
      rw [closing, next] at found
      cases found
    | cons innermost outer =>
      rw [closing_cons next] at found
      cases deeper : closing (innermost :: outer) (p.step c) cs with
      | error e =>
        rw [deeper] at found
        cases found
        exact ih here.step (next ▸ Enclosure.standsIn_next h here.standsIn c cs.head?) deeper
      | ok n =>
        rw [deeper] at found
        cases found

/-! ## Strings -/

theorem standsIn_prependText {text : List Char} {parts : List StringPart}
    (h : ∀ part ∈ parts, part.StandsIn source) :
    ∀ part ∈ prependText text parts, part.StandsIn source := by
  unfold prependText
  split_ifs
  · exact h
  · exact List.forall_mem_cons.mpr ⟨trivial, h⟩

/-- The parts of a string stand in the text that it is read from. -/
theorem stringParts_places {opened p : Position} {text cs : List Char}
    (here : p.Precedes source cs) (ho : opened.StandsIn source) :
    Places source (fun r => ∀ part ∈ r.1, part.StandsIn source) (stringParts opened p text cs) := by
  induction p, text, cs using stringParts_induction with
  | ends =>
    rw [stringParts_nil]
    exact ho
  | backslash =>
    rw [stringParts_backslash]
    exact ho
  | quote =>
    rw [stringParts_quote]
    exact standsIn_prependText (List.forall_mem_nil _)
  | unknown p text c rest means =>
    rw [stringParts_unknown means]
    exact here.standsIn
  | escaped p text c d rest means ih =>
    rw [stringParts_escaped means]
    exact (ih here.step.step).bind fun _ _ parts => parts
  | unclosed p text rest e closes =>
    rw [stringParts_unclosed closes]
    have opened : ∀ e ∈ [Enclosure.substitution p 1], e.opened.StandsIn source :=
      List.forall_mem_singleton.mpr here.standsIn
    exact closing_standsIn here.step.step opened closes
  | substitution p text inside rest closed ih =>
    rw [stringParts_substitution _ _ _ _ closed]
    have start := here.step.step
    have stop := start.after.step
    refine (ih stop).bind fun _ _ parts => ?_
    exact standsIn_prependText
      (List.forall_mem_cons.mpr ⟨⟨start, here.standsIn, stop.standsIn⟩, parts⟩)
  | fault p text rest f plain refers =>
    rw [stringParts_fault plain refers]
    exact here.standsIn
  | named p text taken rest name default refers ih =>
    rw [stringParts_reference _ _ _ refers]
    have after := here.step.after
    refine (ih after).bind fun _ _ parts => ?_
    exact standsIn_prependText (List.forall_mem_cons.mpr ⟨⟨here.standsIn, after.standsIn⟩, parts⟩)
  | char p text c rest quote backslash sigil ih =>
    rw [stringParts_char quote backslash sigil]
    exact (ih here.step).bind fun _ _ parts => parts

theorem rawParts_places {opened : Position} (ho : opened.StandsIn source) (cs : List Char) :
    Places source (fun r => ∀ part ∈ r.1, part.StandsIn source) (rawParts opened cs) := by
  unfold rawParts
  dsimp only
  split_ifs
  · exact ho
  · exact standsIn_prependText nofun

/-! ## Tokens -/

/-- What a token says stands in the text that it is read from. -/
theorem content_places {p : Position} {c : Char} {inside beyond : List Char}
    (here : p.Precedes source (c :: (inside ++ beyond))) :
    Places source (fun r => r.1.StandsIn source) (content p c inside beyond) := by
  have place := here.standsIn
  unfold content
  dsimp only
  split_ifs
  · split
    · trivial
    · refine (places_located place _).bind fun ref _ _ => ?_
      split <;> trivial
  · exact (stringParts_places here.step place).bind fun _ _ parts => parts
  · exact (rawParts_places place _).bind fun _ _ parts => parts
  · refine (places_located place _).bind fun said _ number => ?_
    obtain ⟨n, rfl⟩ | ⟨x, rfl⟩ := numberContent_cases number <;> trivial
  · trivial
  · split <;> trivial
  · split
    · trivial
    · exact place

end Lexer

namespace View

variable {v : View}

theorem standsIn_whole (source : List Char) : (View.whole source).StandsIn source := by
  rw [StandsIn, whole, List.append_nil]
  exact Position.precedes_start

theorem StandsIn.position (h : v.StandsIn source) : v.position.StandsIn source :=
  Position.Precedes.standsIn h

theorem StandsIn.advance (h : v.StandsIn source) (n : Nat) : (v.advance n).StandsIn source := by
  have taken : v.position.Precedes source (v.inside.take n ++ (v.inside.drop n ++ v.beyond)) := by
    rwa [← List.append_assoc, List.take_append_drop]
  by_cases within : n ≤ v.inside.length
  · have none : n - v.inside.length = 0 := Nat.sub_eq_zero_of_le within
    rw [StandsIn, View.advance, none]
    exact taken.after
  · -- nothing of the stretch itself is left
    have all : v.inside.drop n = [] := List.drop_of_length_le (Nat.le_of_not_le within)
    rw [all, List.nil_append] at taken
    rw [StandsIn, View.advance, all, List.nil_append]
    exact taken.after.drop _

/-- What the next character of a view says stands in the text. -/
theorem StandsIn.content {c : Char} {cs : List Char} (h : v.StandsIn source)
    (hv : v.inside = c :: cs) :
    Lexer.Places source (fun r => r.1.StandsIn source)
      (Lexer.content v.position c cs v.beyond) := by
  rw [StandsIn, hv] at h
  exact Lexer.content_places h

/-- All tokens of a view stand in the text, and so does the fault that follows them. -/
theorem StandsIn.tokens (h : v.StandsIn source) : v.tokens.StandsIn source := by
  fun_induction View.tokens v with
  | case1 v w hw =>
    have left : w.StandsIn source := h.advance _
    exact ⟨List.forall_mem_singleton.mpr (Token.standsIn_atEnd left.position),
      fun e he => by cases he⟩
  | case2 v w c cs hw err hc =>
    have left : w.StandsIn source := h.advance _
    have found := left.content hw
    rw [hc] at found
    exact ⟨List.forall_mem_nil _, fun e he => by cases he; exact found⟩
  | case3 v w c cs hw said n hc rest lexeme ih =>
    have left : w.StandsIn source := h.advance _
    have found := left.content hw
    rw [hc] at found
    have after : rest.StandsIn source := left.advance _
    have read := ih after
    exact ⟨List.forall_mem_cons.mpr ⟨⟨⟨left.position, after.position⟩, found⟩, read.tokens⟩,
      read.error⟩

end View

end Sigil
