import Mathlib.Logic.Relation
import Sigil.Proofs.Token.Local
import Sigil.Proofs.Token.Tiled

/-!
# Tokens with other gaps between them

A text is written anew from tokens of another one, with other gaps: where there
was a gap there is one again, and where there was none there is none
(`Lexer.Respaced`). It is cut into the same tokens (`View.Reads.respaced`), if
none of them was read beyond the end of its stretch. Tokens are adjacent where
they were; of their places nothing else is kept.

The inside of a substitution in a string is such a text. A view is contained if
nothing that is read within the substitutions in its strings ends beyond the
parentheses that close them (`View.Contained`).
-/

namespace Sigil

/-- Two tokens that say the same, wherever they stand. -/
structure Token.Kin (t u : Token) : Prop where
  content : t.content.Kin u.content
  lexeme : u.lexeme = t.lexeme

/-- Tokens of one text with those of another that say the same, and are adjacent where they are. -/
structure Token.Kins (ps : List (Token × Token)) : Prop where
  kin : ∀ x ∈ ps, x.1.Kin x.2
  chain : ps.IsChain fun x y => Parser.adjacent x.1 y.1 = Parser.adjacent x.2 y.2

namespace Lexer

/-! ## Gaps -/

theorem endsToken_of_isBlank {c : Char} (h : Text.isBlank c) : endsToken c := by
  have letter : ¬ c.isAlphanum := fun letter => by
    have visible := isVisible_of_isAlphanum letter
    simp [isVisible, h] at visible
  have others : (['_', '.', '-', '/', '~', '+', ':', '@'] ++
      ['=', '!', '<', '>', '&', '|', '*', '%', '(']).all fun d => !Text.isBlank d := by decide
  have other {d : Char} (hd : d ∈ ['_', '.', '-', '/', '~', '+', ':', '@'] ++
      ['=', '!', '<', '>', '&', '|', '*', '%', '(']) : c ≠ d := by
    rintro rfl
    have visible := List.all_eq_true.mp others c hd
    rw [h] at visible
    cases visible
  have word : c ∉ ['_', '.', '-', '/', '~', '+', ':', '@'] :=
    fun hc => other (List.mem_append_left _ hc) rfl
  have operator : c ∉ ['=', '!', '<', '>', '&', '|', '*', '%', '('] :=
    fun hc => other (List.mem_append_right _ hc) rfl
  simp [endsToken, isWordChar, letter, word, operator]

/-- What begins with a gap ends every token. -/
theorem Gap.apart {openEnd : Bool} {gap rest : List Char} (h : Gap openEnd gap) (some : gap ≠ []) :
    Apart (gap ++ rest) := by
  cases h with
  | nil => exact absurd rfl some
  | blank hc => exact apart_cons (endsToken_of_isBlank hc) _
  | comment | last => exact apart_cons (by decide) _

/-- No name goes on with what ends every token. -/
theorem Apart.names {rest beyond : List Char} (h : Apart rest)
    (clear : ∀ c ∈ beyond.head?, isNameChar c = false) :
    ∀ c ∈ (rest ++ beyond).head?, isNameChar c = false := by
  intro c hc
  cases rest with
  | nil => exact clear c hc
  | cons d rest =>
    cases hc
    exact Bool.eq_false_iff.mpr fun name => by
      have word := isWordChar_of_isNameChar name
      rw [h.head] at word
      cases word

theorem gapLength_comment {text : List Char} (line : '\n' ∉ text) (rest : List Char) :
    gapLength true (text ++ rest) = text.length + gapLength true rest := by
  induction text with
  | nil => exact (Nat.zero_add _).symm
  | cons c cs ih =>
    rw [List.mem_cons, not_or] at line
    obtain ⟨hc, line⟩ := line
    rw [List.cons_append, gapLength]
    simp only [Bool.true_and, Bool.true_or, if_true, ne_eq, Ne.symm hc, not_false_eq_true,
      decide_true]
    rw [ih line, ite_self, List.length_cons]
    omega

/-- A gap is passed over as a whole, before what can be seen or at the end of the text. -/
theorem Gap.gapLength {openEnd : Bool} {gap rest : List Char} (h : Gap openEnd gap)
    (ends : openEnd = true → rest = []) (stop : ∀ c ∈ rest.head?, isVisible c) :
    gapLength false (gap ++ rest) = gap.length := by
  induction h with
  | nil =>
    cases rest with
    | nil => rfl
    | cons c rest =>
      have visible := stop c rfl
      simp only [isVisible, Bool.and_eq_true, Bool.not_eq_true', decide_eq_true_eq] at visible
      simp [Lexer.gapLength, visible.1, visible.2]
  | blank hc _ ih => simp [Lexer.gapLength, hc, ih ends]
  | @comment _ text cs line _ ih =>
    have hash : ¬ Text.isBlank '#' := by decide
    have newline : Text.isBlank '\n' := by decide
    rw [List.cons_append, List.append_assoc, List.cons_append, Lexer.gapLength]
    simp [hash, gapLength_comment line, Lexer.gapLength, newline, ih ends]
  | last line =>
    have hash : ¬ Text.isBlank '#' := by decide
    rw [ends rfl, List.append_nil, Lexer.gapLength]
    have all := gapLength_comment line []
    rw [List.append_nil] at all
    simp [hash, all, Lexer.gapLength]

/-- What comes after a gap can be seen. -/
theorem gapLength_stop {inComment : Bool} {cs ds : List Char} {c : Char}
    (h : cs.drop (gapLength inComment cs) = c :: ds) : isVisible c := by
  induction cs generalizing inComment with
  | nil => cases h
  | cons d cs ih =>
    rw [gapLength] at h
    split_ifs at h with blank comment
    · exact ih h
    · exact ih h
    · cases h
      rw [Bool.or_eq_true, decide_eq_true_eq, not_or] at comment
      simp [isVisible, blank, comment.2]

/-! ## Texts with other gaps -/

/-- A text that is made of tokens with gaps between them. There is a gap between two tokens where
there was one, and before the first if it was not right at `i`, or in any case if the start is
free. -/
inductive Respaced : Bool → Nat → List Token → List Char → Prop
  | last {free openEnd : Bool} {i : Nat} {gap : List Char} (h : Gap openEnd gap) :
    Respaced free i [] gap
  | token {free : Bool} {i : Nat} {t : Token} {ts : List Token} {gap cs : List Char}
    (h : Gap false gap) (kept : free ∨ (gap = [] ↔ t.span.start.offset = i))
    (rest : Respaced false t.span.stop.offset ts cs) :
    Respaced free i (t :: ts) (gap ++ (t.lexeme.toList ++ cs))

/-- The text that is made of tokens and the gaps before each of them and behind the last. -/
def respace : List Token → List (List Char) → List Char
  | t :: ts, gap :: gaps => gap ++ (t.lexeme.toList ++ respace ts gaps)
  | _, gaps => gaps.headD []

/-- Whether gaps can stand before tokens and behind the last of them: they are empty where there was
no gap. What was before the first, from `i` on, is of no matter if the start is free. -/
def fits (free : Bool) (i : Nat) : List Token → List (List Char) → Bool
  | [], gaps => gaps.length = 1
  | _ :: _, [] => false
  | t :: ts, gap :: gaps =>
    (free ∨ (gap = [] ↔ t.span.start.offset = i)) && fits false t.span.stop.offset ts gaps

theorem respaced_respace {free : Bool} {i : Nat} {ts : List Token} {gaps : List (List Char)}
    (fitting : fits free i ts gaps) (h : ∀ gap ∈ gaps, Gap false gap) :
    Respaced free i ts (respace ts gaps) := by
  induction ts generalizing free i gaps with
  | nil =>
    obtain ⟨gap, rfl⟩ := List.length_eq_one_iff.mp (of_decide_eq_true fitting)
    exact .last (h gap List.mem_cons_self)
  | cons t ts ih =>
    cases gaps with
    | nil => cases fitting
    | cons gap gaps =>
      rw [fits, Bool.and_eq_true, decide_eq_true_eq] at fitting
      rw [List.forall_mem_cons] at h
      exact .token h.1 fitting.1 (ih fitting.2 h.2)

end Lexer

namespace View

/-- Every token that is read from a view ends within it. -/
def Bounded (v : View) : Prop :=
  ∀ t ∈ v.tokens.tokens, t.span.stop.offset ≤ v.position.offset + v.inside.length

/-- One view is the inside of a substitution in a string that is read from the other. -/
def Quotes (v w : View) : Prop :=
  ∃ t ∈ v.tokens.tokens, ∃ parts span, t.content = .string parts ∧ .substitution w span ∈ parts

/-- Nothing that is read from the inside of a substitution in a string, however deep it lies, ends
beyond the parenthesis that closes the substitution. -/
def Contained (v : View) : Prop :=
  ∀ w, Relation.TransGen Quotes v w → w.Bounded

variable {v u w : View} {ts : List Token}

/-- A token that ends within its stretch has the next characters there. -/
theorem advance_token {n : Nat} {c : Char} {cs : List Char} (hi : w.inside = c :: cs)
    (within : n + 1 ≤ w.inside.length) : ∃ token rest, cs = token ++ rest ∧ token.length = n ∧
      (w.inside ++ w.beyond).take (n + 1) = c :: token ∧ (w.advance (n + 1)).inside = rest ∧
      (w.advance (n + 1)).beyond = w.beyond := by
  rw [hi, List.length_cons] at within
  have length : (cs.take n).length = n := by
    rw [List.length_take]
    omega
  refine ⟨cs.take n, cs.drop n, (List.take_append_drop n cs).symm, length, ?_, ?_, ?_⟩
  · rw [hi, List.cons_append, List.take_succ_cons, List.take_append_of_le_length (by omega)]
  · rw [inside_advance, hi, List.drop_succ_cons]
  · exact beyond_advance (by rw [hi, List.length_cons]; omega)

/-- Tokens end within a view. -/
def Holds (v : View) (ts : List Token) : Prop :=
  ∀ t ∈ ts, t.span.stop.offset ≤ v.position.offset + v.inside.length

/-- The first of some tokens that end within a view, and the view behind it. -/
theorem Holds.after {n : Nat} {c : Char} {cs : List Char} {said : Token.Content} {t : Token}
    (h : v.Holds (t :: ts)) (hw : v.advance (Lexer.gapLength false v.inside) = w)
    (hi : w.inside = c :: cs) (hc : Lexer.content w.position c cs w.beyond = .ok (said, n))
    (ht : t.span.stop = (w.advance (n + 1)).position) :
    n + 1 ≤ w.inside.length ∧ (w.advance (n + 1)).Holds ts := by
  have gap := Lexer.gapLength_le false v.inside
  have start : w.position.offset = v.position.offset + _ := hw ▸ offset_advance gap
  have left : w.inside.length = v.inside.length - Lexer.gapLength false v.inside := by
    rw [← hw, inside_advance, List.length_drop]
  have stop := offset_advance_of_le (length_content hi hc)
  have ends := h t List.mem_cons_self
  rw [ht] at ends
  have within : n + 1 ≤ w.inside.length := by omega
  refine ⟨within, fun u hu => ?_⟩
  have ends := h u (List.mem_cons_of_mem _ hu)
  rw [stop, inside_advance, List.length_drop]
  omega

/-- What comes next in a view, and in a text with other gaps, is the same up to a gap or the end. -/
theorem Reads.ahead (h : Reads v ts u) (holds : v.Holds ts) {cs : List Char}
    (hs : Lexer.Respaced false v.position.offset ts cs) :
    ∃ same rest rest', v.inside = same ++ rest ∧ cs = same ++ rest' ∧ Lexer.Apart rest' := by
  -- where there is a gap nothing needs to be the same
  have apart {v : View} {openEnd : Bool} {gap more : List Char} (hg : Lexer.Gap openEnd gap)
      (some : gap ≠ []) : ∃ same rest rest', v.inside = same ++ rest ∧ gap ++ more = same ++ rest' ∧
        Lexer.Apart rest' :=
    ⟨[], v.inside, gap ++ more, rfl, rfl, hg.apart some⟩
  induction h generalizing cs with
  | refl v =>
    cases hs with
    | last hg =>
      by_cases none : cs = []
      · exact ⟨[], v.inside, [], rfl, none, by rintro _ ⟨⟩⟩
      · have here : ∃ same rest rest', v.inside = same ++ rest ∧ cs ++ [] = same ++ rest' ∧
            Lexer.Apart rest' := apart hg none
        rwa [List.append_nil] at here
  | @token v w u c ds said n ts hw hi hc rest ih =>
    cases hs with
    | @token _ _ _ _ gap cs hg kept hs =>
      by_cases none : gap = []
      · subst none
        obtain ⟨within, holds⟩ := holds.after hw hi hc rfl
        obtain ⟨token, ds', rfl, length, lexeme, inside, -⟩ := advance_token hi within
        obtain ⟨same, more, more', hsame, rfl, apart'⟩ := ih holds hs
        have here : w.position.offset = v.position.offset := by simpa using kept
        have whole : v.inside = w.inside := by
          have start := offset_advance (Lexer.gapLength_le false v.inside)
          rw [hw, here] at start
          rw [← hw, inside_advance, show Lexer.gapLength false v.inside = 0 by omega, List.drop_zero]
        refine ⟨c :: token ++ same, more, more', ?_, ?_, apart'⟩
        · rw [whole, hi, ← inside, hsame]
          simp
        · simp [lexeme]
      · exact apart hg none

/-- Tokens that are read from a view are read from a text with other gaps between them, up to its
end, if nothing goes on with the last of them. They are adjacent where they were. -/
theorem Reads.respaced {free : Bool} (h : Reads v ts u) (holds : v.Holds ts) {w : View}
    (hs : Lexer.Respaced free v.position.offset ts w.inside)
    (clear : ∀ c ∈ w.beyond.head?, Lexer.isNameChar c = false) :
    ∃ ps : List (Token × Token), ∃ p, ps.map Prod.fst = ts ∧
      w.tokens = ⟨ps.map Prod.snd ++ [.atEnd p], none⟩ ∧ Token.Kins ps ∧
      (free = false → ∀ x ∈ ps.head?, (x.1.span.start.offset = v.position.offset ↔
        x.2.span.start.offset = w.position.offset)) := by
  induction h generalizing free w with
  | refl v =>
    cases hs with
    | last hg =>
      have all : Lexer.gapLength false (w.inside ++ []) = w.inside.length :=
        hg.gapLength (fun _ => rfl) (by rintro _ ⟨⟩)
      rw [List.append_nil] at all
      refine ⟨[], _, rfl, tokens_gap ?_, ⟨List.forall_mem_nil _, .nil⟩, fun _ => by rintro _ ⟨⟩⟩
      rw [inside_advance, all, List.drop_length]
  | @token v v₁ u c ds said n ts hv₁ hi hc rest ih =>
    obtain ⟨within, holds'⟩ := holds.after hv₁ hi hc rfl
    obtain ⟨token, ds, rfl, rfl, lexeme, inside, -⟩ := advance_token hi within
    obtain ⟨start, is, beyond⟩ := w
    dsimp only at hs clear ⊢
    cases hs with
    | @token _ _ _ _ gap cs hg kept hs =>
    obtain ⟨same, more, more', hsame, rfl, apart⟩ := rest.ahead holds' hs
    rw [inside] at hsame
    subst hsame
    rw [lexeme, String.toList_ofList]
    have visible : Lexer.isVisible c := by
      have behind : v.inside.drop (Lexer.gapLength false v.inside) =
          c :: (token ++ (same ++ more)) := by
        rw [← inside_advance, hv₁, hi]
      exact Lexer.gapLength_stop behind
    have passed : Lexer.gapLength false (gap ++ (c :: token ++ (same ++ more'))) = gap.length :=
      hg.gapLength (fun h => by cases h) (by rintro _ ⟨⟩; exact visible)
    obtain ⟨said', hc', kin⟩ := Lexer.content_local hc rfl (start.after gap) apart
      (apart.names clear)
    obtain ⟨ps, p, hps, tokens, ⟨kins, chain⟩, first⟩ :=
      ih holds' (w := ⟨(start.after gap).after (c :: token), same ++ more', beyond⟩) hs clear
    refine ⟨(_, ⟨said', String.ofList (c :: token), ⟨start.after gap, _⟩⟩) :: ps, p,
      congrArg _ hps, (tokens_first _ _ _ passed hc').trans (by rw [tokens]; rfl),
      ⟨List.forall_mem_cons.mpr ⟨⟨kin, rfl⟩, kins⟩,
        List.isChain_cons.mpr ⟨fun y hy => ?_, chain⟩⟩, ?_⟩
    · exact decide_eq_decide.mpr (first rfl y hy)
    · rintro rfl _ ⟨⟩
      have kept : gap = [] ↔ v₁.position.offset = v.position.offset := by simpa using kept
      have offset : (start.after gap).offset = start.offset + gap.length := Position.offset_after ..
      rw [← kept, ← List.length_eq_zero_iff]
      dsimp only
      omega

/-- What tokens are read from is a text with its own gaps, before any gap. -/
theorem Reads.self (h : Reads v ts u) (holds : v.Holds ts) {openEnd : Bool} {gap : List Char}
    (hg : Lexer.Gap openEnd gap) :
    ∃ cs, v.inside = cs ++ u.inside ∧ Lexer.Respaced false v.position.offset ts (cs ++ gap) := by
  induction h with
  | refl v => exact ⟨[], rfl, .last hg⟩
  | @token v w u c ds said n ts hw hi hc rest ih =>
    obtain ⟨within, holds⟩ := holds.after hw hi hc rfl
    obtain ⟨token, ds, rfl, rfl, lexeme, inside, -⟩ := advance_token hi within
    obtain ⟨openEnd, whole, passed⟩ := Lexer.gap_take false v.inside
    have start : w.position.offset = v.position.offset + _ :=
      hw ▸ offset_advance (Lexer.gapLength_le false v.inside)
    have behind : v.inside.drop (Lexer.gapLength false v.inside) = c :: (token ++ ds) := by
      rw [← inside_advance, hw, hi]
    -- the token comes behind the gap, which is not open then
    obtain rfl : openEnd = false := Bool.eq_false_iff.mpr fun h => by
      rw [whole h, List.drop_length] at behind
      cases behind
    obtain ⟨cs, hcs, rest⟩ := ih holds
    rw [inside] at hcs
    have gap_le := Lexer.gapLength_le false v.inside
    have kept : v.inside.take (Lexer.gapLength false v.inside) = [] ↔
        w.position.offset = v.position.offset := by
      rw [start, ← List.length_eq_zero_iff, List.length_take]
      omega
    refine ⟨v.inside.take (Lexer.gapLength false v.inside) ++ (c :: token ++ cs), ?_, ?_⟩
    · rw [List.append_assoc, List.append_assoc, ← hcs, List.cons_append, ← behind,
        List.take_append_drop]
    · have text : Lexer.Respaced false v.position.offset
          (⟨said, String.ofList (c :: token), ⟨w.position, _⟩⟩ :: ts) _ :=
        .token passed (.inr kept) rest
      rw [String.toList_ofList] at text
      simpa [lexeme] using text

/-- A view that is read to its end, and a view of a text with other gaps between its tokens. -/
theorem tokens_respaced {free : Bool} {v w : View} (bounded : v.Bounded)
    (whole : v.tokens.error = none)
    (hs : Lexer.Respaced free v.position.offset v.tokens.tokens.dropLast w.inside)
    (clear : ∀ c ∈ w.beyond.head?, Lexer.isNameChar c = false) :
    ∃ ps p q, v.tokens = ⟨ps.map Prod.fst ++ [.atEnd p], none⟩ ∧
      w.tokens = ⟨ps.map Prod.snd ++ [.atEnd q], none⟩ ∧ Token.Kins ps := by
  obtain ⟨ts, u, reads, ⟨e, hv, -⟩ | ⟨p, hv, -⟩⟩ := v.tokens_reads
  · rw [hv] at whole
    cases whole
  · rw [hv] at hs
    have holds : v.Holds ts := fun t ht => bounded t (by rw [hv]; exact List.mem_append_left _ ht)
    obtain ⟨ps, q, rfl, hw, kins, -⟩ :=
      reads.respaced holds (by rwa [List.dropLast_concat] at hs) clear
    exact ⟨ps, p, q, hv, hw, kins⟩

/-- A view that is read to its end, and the same stretch of another text. -/
theorem tokens_kin {v w : View} (bounded : v.Bounded) (whole : v.tokens.error = none)
    (same : w.inside = v.inside) (clear : ∀ c ∈ w.beyond.head?, Lexer.isNameChar c = false) :
    ∃ ps p q, v.tokens = ⟨ps.map Prod.fst ++ [.atEnd p], none⟩ ∧
      w.tokens = ⟨ps.map Prod.snd ++ [.atEnd q], none⟩ ∧ Token.Kins ps := by
  obtain ⟨ts, u, reads, ⟨e, hv, -⟩ | ⟨p, hv, ends, -⟩⟩ := v.tokens_reads
  · rw [hv] at whole
    cases whole
  · have holds : v.Holds ts := fun t ht => bounded t (by rw [hv]; exact List.mem_append_left _ ht)
    have all : u.inside.length ≤ Lexer.gapLength false u.inside := List.drop_eq_nil_iff.mp ends
    obtain ⟨openEnd, -, passed⟩ := Lexer.gap_take false u.inside
    rw [List.take_of_length_le all] at passed
    obtain ⟨cs, hcs, self⟩ := reads.self holds passed
    have gaps : Lexer.Respaced false v.position.offset v.tokens.tokens.dropLast w.inside := by
      rw [same, hcs, hv, List.dropLast_concat]
      exact self
    exact tokens_respaced bounded whole gaps clear

/-! ## Contained views -/

theorem Contained.quoted {v w : View} (h : v.Contained) (hw : v.Quotes w) :
    w.Bounded ∧ w.Contained :=
  ⟨h w (.single hw), fun x hx => h x (.head hw hx)⟩

theorem contained_of_quoted {v : View} (h : ∀ w, v.Quotes w → w.Bounded ∧ w.Contained) :
    v.Contained := fun x path => by
  obtain ⟨w, hw, rest⟩ := Relation.TransGen.head'_iff.mp path
  rcases Relation.reflTransGen_iff_eq_or_transGen.mp rest with rfl | more
  · exact (h x hw).1
  · exact (h w hw).2 x more

instance (v : View) : Decidable v.Bounded :=
  inferInstanceAs (Decidable (∀ t ∈ v.tokens.tokens, _))

/-- The insides of the substitutions in the strings that are read from a view. -/
def substitutions (v : View) : List View :=
  (v.tokens.tokens.flatMap (·.parts)).filterMap fun
    | .substitution w _ => some w
    | _ => none

theorem mem_substitutions {v w : View} (h : v.Quotes w) : w ∈ v.substitutions := by
  obtain ⟨t, ht, parts, span, string, hw⟩ := h
  refine List.mem_filterMap.mpr ⟨.substitution w span, List.mem_flatMap.mpr ⟨t, ht, ?_⟩, rfl⟩
  rw [Token.parts, string]
  exact hw

/-- Whether a view is contained and its substitutions nest at most so deep. -/
def isContained : Nat → View → Bool
  | 0, v => v.substitutions.isEmpty
  | depth + 1, v => v.substitutions.all fun w => w.Bounded ∧ isContained depth w

theorem contained_of_isContained {depth : Nat} {v : View} (h : isContained depth v) :
    v.Contained := by
  induction depth generalizing v with
  | zero =>
    refine contained_of_quoted fun w hw => ?_
    have none := mem_substitutions hw
    rw [List.isEmpty_iff.mp h] at none
    cases none
  | succ depth ih =>
    refine contained_of_quoted fun w hw => ?_
    have inside := List.all_eq_true.mp h w (mem_substitutions hw)
    rw [decide_eq_true_eq] at inside
    exact ⟨inside.1, ih inside.2⟩

end View

/-- Nothing that is read from the inside of a substitution in the token ends beyond the parenthesis
that closes the substitution. -/
def Token.Contained (t : Token) : Prop :=
  ∀ parts w s, t.content = .string parts → .substitution w s ∈ parts → w.Bounded ∧ w.Contained

theorem View.Contained.token {v : View} (h : v.Contained) {t : Token} (ht : t ∈ v.tokens.tokens) :
    t.Contained := fun parts _ s string hw => h.quoted ⟨t, ht, parts, s, string, hw⟩

theorem View.bounded_whole (source : List Char) : (View.whole source).Bounded :=
  tokens_stop (View.whole source)

end Sigil
