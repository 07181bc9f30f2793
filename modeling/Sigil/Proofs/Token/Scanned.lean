import Mathlib.Data.List.Chain
import Sigil.Proofs.Token.Enclosed

/-!
# The raw scan along the tokens

The raw scan for the end of a substitution knows nothing of tokens. It counts
the parentheses that the tokens of a text are (`View.scan_tokens`), if it
passes over what only the tokens tell from code (`Token.AllSteady`): the gaps
with the comments in them, and the defaults of references. A text that has none
of both is such a text (`Token.allSteady_tokenize`).
-/

namespace Sigil

/-- The characters from one place to another are the next ones at the first. -/
theorem Span.slice_eq {p q : Position} {source cs : List Char} (h : source.drop p.offset = cs) :
    Span.slice ⟨p, q⟩ source = cs.take (q.offset - p.offset) := by
  rw [slice, List.drop_take, h]

theorem Position.offset_step (p : Position) (c : Char) : (p.step c).offset = p.offset + 1 :=
  p.offset_after [c]

namespace Lexer

theorem take_takeWhile (p : Char → Bool) (cs : List Char) :
    cs.take (cs.takeWhile p).length = cs.takeWhile p :=
  (List.prefix_iff_eq_take.mp (List.takeWhile_prefix p)).symm

/-! ## References -/

/-- A reference without a default has no other characters than those of its name, and braces. -/
theorem reference_chars {cs : List Char} {ref : Reference} (h : reference cs = .ok ref)
    (plain : ref.default = none) : ∃ c ds, cs.take ref.length = c :: ds ∧
      ∀ d ∈ c :: ds, isWordChar d ∨ d ∈ ['\x7b', '\x7d'] := by
  have named {name : List Char} (h : ∀ d ∈ name, isNameChar d) :
      ∀ d ∈ name, isWordChar d ∨ d ∈ ['\x7b', '\x7d'] :=
    fun d hd => .inl (isWordChar_of_isNameChar (h d hd))
  cases reference_eq_ok_iff.mp h with
  | @plain name rest starts chars stop =>
    cases name with
    | nil => cases starts
    | cons c name => exact ⟨c, name, List.take_left, named chars⟩
  | @braced name rest starts chars =>
    refine ⟨'\x7b', name ++ ['\x7d'], ?_, ?_⟩
    · rw [List.take_succ_cons, List.append_cons, List.take_left' (by simp)]
    · simpa [or_imp, forall_and] using named chars
  | defaulted => cases plain

/-- A reference without a default means nothing to the raw scan. -/
theorem steady_reference {cs : List Char} {ref : Reference} (h : reference cs = .ok ref)
    (plain : ref.default = none) :
    Steady inCode ('$' :: cs.take ref.length) ∧ Steady inString ('$' :: cs.take ref.length) := by
  obtain ⟨c, ds, taken, chars⟩ := reference_chars h plain
  have plain : ∀ d ∈ c :: ds, isPlainInCode d ∧ isPlainInString d := fun d hd => by
    rcases chars d hd with word | brace
    · exact isPlain_of_isWordChar word
    · have passed : ['\x7b', '\x7d'].all fun d => isPlainInCode d && isPlainInString d := by decide
      exact Bool.and_eq_true_iff.mp (List.all_eq_true.mp passed d brace)
  rw [taken]
  constructor
  · refine .of_code (List.all_eq_true.mpr (List.forall_mem_cons.mpr ⟨by decide, fun d hd => ?_⟩))
    exact (plain d hd).1
  · have letters : Steady inString (c :: ds) :=
      .of_string (List.all_eq_true.mpr fun d hd => (plain d hd).2)
    have other : c ≠ '(' := by
      rintro rfl
      exact absurd (plain _ List.mem_cons_self).1 (by decide)
    intro following
    rw [scan, show Enclosure.next .start '$' _ inString = inString by
      simp [Enclosure.next, inString, other]]
    exact letters following

/-! ## Strings -/

/-- Other enclosures around do not matter to a character. -/
theorem Enclosure.next_append {p : Position} {c : Char} {following : Option Char}
    {es : List Enclosure} (h : es ≠ []) (outer : List Enclosure) :
    next p c following (es ++ outer) = next p c following es ++ outer := by
  cases es with
  | nil => exact absurd rfl h
  | cons e es => cases e <;> simp only [next, List.cons_append] <;> split_ifs <;> rfl

/-- The scan for the end of the outermost enclosure leaves what is around that. -/
theorem scan_closing {es : List Enclosure} (hes : es ≠ []) {p : Position} {cs : List Char}
    {k : Nat} (h : closing es p cs = .ok k) (following : Option Char) (outer : List Enclosure) :
    scan following (es.map Enclosure.unplaced ++ outer) (cs.take (k + 1)) = outer := by
  induction cs generalizing es p k with
  | nil =>
    cases es with
    | nil => exact absurd rfl hes
    | cons e es => cases h
  | cons c cs ih =>
    have step (next : Option Char) :
        Enclosure.next .start c next (es.map Enclosure.unplaced ++ outer) =
          (Enclosure.next p c next es).map Enclosure.unplaced ++ outer := by
      rw [Enclosure.next_append (by simpa using hes), Enclosure.next_unplaced]
    rw [closing] at h
    cases hn : Enclosure.next p c cs.head? es with
    | nil =>
      rw [hn] at h
      cases h
      rw [List.take_succ_cons, List.take_zero, scan, scan, step, Enclosure.next_eq_nil hn]
      rfl
    | cons innermost others =>
      rw [hn] at h
      dsimp only at h
      cases hk : closing (innermost :: others) (p.step c) cs with
      | error err => rw [hk] at h; cases h
      | ok j =>
        rw [hk] at h
        cases h
        have head : (cs.take (j + 1)).head?.or following = cs.head? := by
          cases cs with
          | nil => cases hk
          | cons d ds => rfl
        rw [List.take_succ_cons, scan, head, step, hn]
        exact ih (List.cons_ne_nil _ _) hk

/-- A substitution in a string is passed over. -/
theorem steady_substitution {inside : List Char} (closed : isClosed inside) :
    Steady inString ('$' :: '(' :: (inside ++ [')'])) := by
  intro following
  have passed := scan_closing (List.cons_ne_nil _ _) (isClosed_iff.mp closed) following inString
  rwa [List.take_of_length_le (by simp)] at passed

theorem mem_prependText {text : List Char} {parts : List StringPart} {part : StringPart}
    (h : part ∈ parts) : part ∈ prependText text parts := by
  unfold prependText
  split
  · exact h
  · exact List.mem_cons_of_mem _ h

/-- The scan reads a string up to its closing quote if it passes over the defaults in it. -/
theorem ReadsParts.scan {source : List Char} {p : Position} {text cs : List Char}
    {parts : List StringPart} {n : Nat} (h : ReadsParts p text cs parts n)
    (here : source.drop p.offset = cs)
    (steady : ∀ name default span, .variable name (some default) span ∈ parts →
      Steady inString (span.slice source)) (following : Option Char) :
    Lexer.scan following inString (cs.take n) = inCode := by
  have left {p q : Position} {t r : List Char} (here : source.drop p.offset = t ++ r)
      (offset : q.offset = p.offset + t.length) : source.drop q.offset = r := by
    rw [offset, ← List.drop_drop, here, List.drop_left]
  induction h with
  | quote rest => rfl
  | @escaped p text c d rest parts n means more ih =>
    exact ih (left (t := ['\\', c]) here (by simp [Position.offset_step])) steady
  | @substitution p text inside rest parts n closed more ih =>
    have parted : '$' :: '(' :: (inside ++ ')' :: rest) =
        '$' :: '(' :: (inside ++ [')']) ++ rest := by simp
    have length : ('$' :: '(' :: (inside ++ [')'])).length = inside.length + 3 := by simp
    rw [parted] at here ⊢
    rw [Nat.add_assoc, Nat.add_comm n, ← length, List.take_length_add_append, scan_append,
      steady_substitution closed]
    refine ih (left here ?_) fun name default span hm => steady name default span ?_
    · simp only [Position.offset_step, Position.offset_after, length]
      omega
    · exact mem_prependText (List.mem_cons_of_mem _ hm)
  | @«variable» p text taken rest name default parts n refers more ih =>
    have offset : ((p.step '$').after taken).offset = p.offset + ('$' :: taken).length := by
      simp only [Position.offset_step, Position.offset_after, List.length_cons]
      omega
    rw [← List.cons_append] at here ⊢
    have read : Steady inString ('$' :: taken) := by
      cases default with
      | none => simpa using (steady_reference refers rfl).2
      | some default =>
        have slice := steady (String.ofList name) (String.ofList default) ⟨p, _⟩
          (mem_prependText List.mem_cons_self)
        rwa [Span.slice_eq here, offset, Nat.add_sub_cancel_left, List.take_left] at slice
    rw [Nat.add_assoc, Nat.add_comm n, ← List.length_cons, List.take_length_add_append,
      scan_append, read]
    refine ih (left here offset) fun name default span hm => steady name default span ?_
    exact mem_prependText (List.mem_cons_of_mem _ hm)
  | @char p text c rest parts n quote backslash sigil more ih =>
    have plain : Steady inString [c] :=
      .of_string (by simpa [isPlainInString] using ⟨quote, backslash, sigil⟩)
    rw [List.take_succ_cons, ← List.singleton_append, scan_append, plain]
    exact ih (left (t := [c]) here (Position.offset_step p c)) steady

/-- A raw string is passed over. -/
theorem steady_raw {text : List Char} (plain : '\'' ∉ text) :
    Steady inCode ('\'' :: (text ++ ['\''])) := by
  have passed : Steady [.raw .start 1] text := by
    induction text with
    | nil => exact .nil _
    | cons c cs ih =>
      rw [List.mem_cons, not_or] at plain
      exact .cons (fun _ => if_neg (Ne.symm plain.1)) (ih plain.2)
  intro following
  change scan following [.raw .start 1] _ = _
  rw [scan_append, passed]
  rfl

/-! ## Numbers -/

theorem wordChars_fractionText {cs : List Char} (h : fractionText cs ≠ []) :
    ∀ c ∈ cs.take ((fractionText cs).length + 1), isWordChar c := by
  unfold fractionText at h ⊢
  split at h
  · next cs =>
    rw [List.take_succ_cons, take_takeWhile]
    refine List.forall_mem_cons.mpr ⟨by decide, fun c hc => ?_⟩
    exact isWordChar_of_isDigit (List.mem_takeWhile_imp hc)
  · exact absurd rfl h

theorem wordChars_exponentText {cs sign ds : List Char} (h : exponentText cs = some (sign, ds)) :
    ∀ c ∈ cs.take (sign.length + ds.length + 1), isWordChar c := by
  unfold exponentText at h
  split at h
  · next e cs =>
    split at h
    · next mark =>
      extract_lets found at h
      have signed : ∀ c ∈ cs.take found.length, isWordChar c := by
        dsimp only [found]
        split <;> simp <;> decide
      clear_value found
      have digits := take_takeWhile Char.isDigit (cs.drop found.length)
      split at h
      · cases h
      · cases h
        rw [List.take_succ_cons, List.take_add, digits]
        refine List.forall_mem_cons.mpr ⟨?_, fun c hc => ?_⟩
        · rcases mark with rfl | rfl <;> decide
        · rcases List.mem_append.mp hc with hc | hc
          · exact signed c hc
          · exact isWordChar_of_isDigit (List.mem_takeWhile_imp hc)
    · cases h
  · cases h

/-- A number has no other characters than those of words. -/
theorem wordChars_numberText (cs : List Char) :
    ∀ c ∈ cs.take (numberText cs).length, isWordChar c := by
  have exponent (cs : List Char) :
      ∀ c ∈ cs.take (NumberText.length ⟨[], [], exponentText cs⟩), isWordChar c := by
    cases h : exponentText cs with
    | none => exact List.forall_mem_nil _
    | some r => simpa [NumberText.length] using wordChars_exponentText h
  have rest (cs : List Char) : ∀ c ∈ cs.take ((if (fractionText cs).isEmpty then 0
      else (fractionText cs).length + 1) + NumberText.length ⟨[], [], exponentText
        (if (fractionText cs).isEmpty then cs else cs.drop ((fractionText cs).length + 1))⟩),
      isWordChar c := by
    split
    · rw [Nat.zero_add]
      exact exponent cs
    · next h =>
      rw [List.take_add, List.forall_mem_append]
      exact ⟨wordChars_fractionText (by simpa using h), exponent _⟩
  rw [NumberText.length_eq, List.take_add, List.forall_mem_append]
  refine ⟨fun c hc => ?_, rest _⟩
  have digits : cs.take (numberText cs).whole.length = cs.takeWhile Char.isDigit :=
    take_takeWhile Char.isDigit cs
  exact isWordChar_of_isDigit (List.mem_takeWhile_imp (digits ▸ hc))

/-! ## Steady texts are decidable -/

theorem Enclosure.next_following {p : Position} {c : Char} {following : Option Char}
    {es : List Enclosure} (h : following ≠ some '(') :
    next p c following es = next p c none es := by
  cases es with
  | nil => rfl
  | cons e es => cases e <;> simp [next, h]

/-- Only an opening parenthesis after a text matters to the scan. -/
theorem scan_following {following : Option Char} (h : following ≠ some '(')
    (es : List Enclosure) (cs : List Char) : scan following es cs = scan none es cs := by
  induction cs generalizing es with
  | nil => rfl
  | cons c cs ih =>
    rw [scan, scan, ih]
    cases cs with
    | nil => exact congrArg (scan none · []) (Enclosure.next_following h)
    | cons d ds => rfl

theorem steady_iff {es : List Enclosure} {cs : List Char} :
    Steady es cs ↔ scan none es cs = es ∧ scan (some '(') es cs = es := by
  refine ⟨fun h => ⟨h none, h _⟩, fun h following => ?_⟩
  by_cases opens : following = some '('
  · rw [opens, h.2]
  · rw [scan_following opens, h.1]

instance (es : List Enclosure) (cs : List Char) : Decidable (Steady es cs) :=
  decidable_of_iff _ steady_iff.symm

end Lexer

namespace Token

open Lexer (Enclosure Steady inCode inString)

/-- The references with defaults in a token, with what encloses them for the raw scan. -/
def defaultTexts (source : List Char) (t : Token) : List (List Enclosure × List Char) :=
  match t.content with
  | .defaulted .. => [(inCode, t.span.slice source)]
  | .string parts => parts.filterMap fun
    | .variable _ (some _) span => some (inString, span.slice source)
    | _ => none
  | _ => []

/-- The raw scan passes over the gaps between the tokens of a text, with the comments in them, and
over the references with defaults in the tokens. -/
structure AllSteady (source : List Char) (ts : List Token) : Prop where
  gaps : ts.IsChain fun t u => Steady inCode (Span.slice ⟨t.span.stop, u.span.start⟩ source)
  defaults : ∀ t ∈ ts, ∀ r ∈ t.defaultTexts source, Steady r.1 r.2

/-- What comes after a token. -/
theorem AllSteady.after {source : List Char} {t : Token} {ts : List Token}
    (h : AllSteady source (t :: ts)) : AllSteady source ts :=
  ⟨h.gaps.tail, fun x hx => h.defaults x (List.mem_cons_of_mem _ hx)⟩

/-- What comes before a token ends there. -/
theorem AllSteady.before {source : List Char} {ts rest : List Token} {t : Token}
    (h : AllSteady source (ts ++ t :: rest)) : AllSteady source (ts ++ [.atEnd t.span.start]) := by
  obtain ⟨gaps, defaults⟩ := h
  rw [List.forall_mem_append] at defaults
  obtain ⟨before, -, joined⟩ := List.isChain_append.mp gaps
  refine ⟨List.isChain_append.mpr ⟨before, .singleton _, ?_⟩, ?_⟩
  · rintro x hx _ ⟨⟩
    exact joined x hx t rfl
  · exact List.forall_mem_append.mpr ⟨defaults.1, List.forall_mem_singleton.mpr nofun⟩

instance (source : List Char) (ts : List Token) : Decidable (AllSteady source ts) :=
  decidable_of_iff _ ⟨fun h => ⟨h.1, h.2⟩, fun h => And.intro h.gaps h.defaults⟩

end Token

namespace Lexer

/-! ## Tokens -/

/-- A delimiter is one of the characters that are, or starts a substitution. -/
theorem content_delimiter {p : Position} {c : Char} {inside beyond : List Char} {n : Nat}
    (h : content p c inside beyond = .ok (.delimiter, n)) :
    (c :: (inside ++ beyond)).take (n + 1) = ['$', '('] ∨
      ∃ d ∈ delimiters, (c :: (inside ++ beyond)).take (n + 1) = [d] := by
  cases content_eq_ok_iff.mp h with
  | opening => exact .inl rfl
  | mark inside beyond known => exact .inr ⟨c, known, rfl⟩

theorem steady_number {c : Char} (digit : c.isDigit) (inside beyond : List Char) :
    Steady inCode ((c :: (inside ++ beyond)).take ((numberText (c :: inside)).length - 1 + 1)) := by
  have some : 0 < (numberText (c :: inside)).length := by
    simp only [NumberText.length, numberText, List.takeWhile_cons_of_pos digit, List.length_cons]
    omega
  have within := length_numberText (c :: inside)
  rw [Nat.sub_add_cancel some, ← List.cons_append, List.take_append_of_le_length within]
  exact (steady_wordChars (wordChars_numberText (c :: inside))).1

theorem steady_word {c : Char} {inside : List Char} (starts : startsWord (c :: inside))
    (beyond : List Char) :
    Steady inCode ((c :: (inside ++ beyond)).take ((inside.takeWhile isWordChar).length + 1)) := by
  have word := isWordChar_of_isWord (isWord_takeWhile c inside starts)
  rw [String.toList_ofList] at word
  rw [List.take_succ_cons, List.take_append_of_le_length (List.takeWhile_prefix _).length_le,
    take_takeWhile]
  exact (steady_wordChars word).1

theorem steady_operator {cs : List Char} {op : String}
    (found : (operators.find? fun op => op.toList.isPrefixOf cs) = some op) (beyond : List Char) :
    Steady inCode ((cs ++ beyond).take (op.length - 1 + 1)) := by
  have known : ∀ op ∈ operators, 0 < op.length ∧ op.toList.all isPlainInCode := by decide
  obtain ⟨some, plain⟩ := known op (List.mem_of_find?_eq_some found)
  have start := List.find?_some found
  have start : op.toList <+: cs ++ beyond :=
    (List.isPrefixOf_iff_prefix.mp start).trans (List.prefix_append cs beyond)
  have taken := List.prefix_iff_eq_take.mp start
  rw [String.length_toList] at taken
  rw [Nat.sub_add_cancel some, ← taken]
  exact .of_code plain

/-- The raw scan passes over every token but the parentheses. -/
theorem steady_content {source : List Char} {p q : Position} {c : Char}
    {inside beyond : List Char} {said : Token.Content} {n : Nat} {lexeme : String}
    (h : content p c inside beyond = .ok (said, n)) (code : said ≠ .delimiter)
    (here : source.drop p.offset = c :: (inside ++ beyond)) (ends : q.offset = p.offset + (n + 1))
    (steady : ∀ r ∈ Token.defaultTexts source ⟨said, lexeme, ⟨p, q⟩⟩, Steady r.1 r.2) :
    Steady inCode ((c :: (inside ++ beyond)).take (n + 1)) := by
  have slice : Span.slice ⟨p, q⟩ source = (c :: (inside ++ beyond)).take (n + 1) := by
    rw [Span.slice_eq here, ends, Nat.add_sub_cancel_left]
  cases content_eq_ok_iff.mp h with
  | opening | mark => exact absurd rfl code
  | «variable» refers => exact (steady_reference refers rfl).1
  | defaulted refers =>
    rw [← slice]
    exact steady _ List.mem_cons_self
  | @string _ _ parts n cut =>
    have after : source.drop (p.step '"').offset = inside ++ beyond := by
      rw [Position.offset_step, ← List.drop_drop, here]
      rfl
    refine fun following => cut.scan after (fun name default span hm => ?_) following
    exact steady (inString, span.slice source) (List.mem_filterMap.mpr ⟨_, hm, rfl⟩)
  | @raw _ _ text rest parted plain =>
    rw [parted, List.append_cons, ← List.cons_append, List.take_left' (by simp)]
    exact steady_raw plain
  | integer _ digit | float _ digit => exact steady_number digit inside beyond
  | word _ starts => exact steady_word starts beyond
  | operator _ _ found => exact steady_operator found beyond

/-! ## Gaps -/

theorem isPlainInCode_of_isBlank {c : Char} (h : Text.isBlank c) : isPlainInCode c := by
  simp only [isPlainInCode, decide_eq_true_eq, List.mem_cons, List.not_mem_nil, or_false]
  rintro (rfl | rfl | rfl | rfl) <;> exact absurd h (by decide)

theorem isBlank_of_mem_gap {cs : List Char} (plain : '#' ∉ cs) :
    ∀ c ∈ cs.take (gapLength false cs), Text.isBlank c := by
  induction cs with
  | nil => exact List.forall_mem_nil _
  | cons c cs ih =>
    rw [List.mem_cons, not_or] at plain
    rw [gapLength]
    split_ifs with blank hash
    · rw [List.take_succ_cons]
      exact List.forall_mem_cons.mpr ⟨blank, ih plain.2⟩
    · exact absurd (by simpa using hash) (Ne.symm plain.1)
    · exact List.forall_mem_nil _

/-! ## The tokens of a text -/

/-- What encloses a character in a substitution where so many parentheses are open. -/
def inDepth (depth : Nat) : List Enclosure :=
  [.substitution .start (depth + 1)]

theorem Steady.inDepth {cs : List Char} (h : Steady inCode cs) (depth : Nat) :
    Steady (inDepth depth) cs := by
  have deep := h.under (List.cons_ne_nil _ _) depth []
  rwa [show Enclosure.under depth [] inCode = Lexer.inDepth depth from
    congrArg (fun k => [Enclosure.substitution .start k]) (Nat.add_comm 1 depth)] at deep

/-- The raw scan reads a token: as many parentheses are open afterwards as the token says. -/
theorem scan_content {source : List Char} {p q : Position} {c : Char}
    {inside beyond : List Char} {said : Token.Content} {n depth d : Nat}
    (h : content p c inside beyond = .ok (said, n))
    (here : source.drop p.offset = c :: (inside ++ beyond)) (ends : q.offset = p.offset + (n + 1))
    (lexeme : String) (hl : lexeme = String.ofList ((c :: (inside ++ beyond)).take (n + 1)))
    (steady : ∀ r ∈ Token.defaultTexts source ⟨said, lexeme, ⟨p, q⟩⟩, Steady r.1 r.2)
    (turns : Token.turn depth ⟨said, lexeme, ⟨p, q⟩⟩ = some d) (following : Option Char) :
    scan following (inDepth depth) ((c :: (inside ++ beyond)).take (n + 1)) = inDepth d := by
  by_cases code : said = .delimiter
  · subst code
    rcases content_delimiter h with taken | ⟨mark, hm, taken⟩
    · rw [taken] at hl ⊢
      subst hl
      cases turns
      rfl
    · rw [taken] at hl ⊢
      subst hl
      simp only [delimiters, List.mem_cons, List.not_mem_nil, or_false] at hm
      rcases hm with rfl | rfl | others
      · cases turns
        rfl
      · cases depth with
        | zero => cases turns
        | succ depth =>
          cases turns
          rfl
      · have plain : mark ∈ ['\x7b', '\x7d', ',', ';'] := by simpa using others
        have passed : ['\x7b', '\x7d', ',', ';'].all fun c => isPlainInCode c &&
            String.ofList [c] ∉ ["(", "$(", ")"] := by decide
        obtain ⟨code, other⟩ := Bool.and_eq_true_iff.mp (List.all_eq_true.mp passed mark plain)
        rw [decide_eq_true_eq] at other
        rw [Token.turn_delimiter (d := String.ofList [mark]) (by simp [Token.isDelimiter])
          other] at turns
        cases turns
        exact (Steady.of_code (by simpa using code)).inDepth depth following
  · rw [Token.turn_of_content code] at turns
    cases turns
    exact (steady_content h code here ends steady).inDepth depth following

end Lexer

theorem Token.nest_cons {t : Token} {ts : List Token} {depth d : Nat}
    (h : nest depth (t :: ts) = some d) : ∃ k, t.turn depth = some k ∧ nest k ts = some d := by
  rw [nest, List.foldlM_cons] at h
  exact Option.bind_eq_some_iff.mp h

namespace View

variable {source : List Char} {v : View}

theorem offset_advance_of_le {n : Nat} (hn : n ≤ v.length) :
    (v.advance n).position.offset = v.position.offset + n := by
  rw [length] at hn
  simp only [advance, Position.offset_after, List.length_take]
  omega

/-- What is left of a stretch comes next in the text. -/
theorem drop_advance {n : Nat} (here : source.drop v.position.offset = v.inside ++ v.beyond)
    (hn : n ≤ v.length) :
    source.drop (v.advance n).position.offset = (v.advance n).inside ++ (v.advance n).beyond := by
  rw [offset_advance_of_le hn, ← List.drop_drop, here, List.drop_append]
  rfl

/-- A token ends with the text or before. -/
theorem length_content {c : Char} {cs : List Char} {said : Token.Content} {n : Nat}
    (hv : v.inside = c :: cs) (hc : Lexer.content v.position c cs v.beyond = .ok (said, n)) :
    n + 1 ≤ v.length := by
  have within := Lexer.content_length hc
  rw [length, hv, List.length_cons]
  omega

/-- The gap that a stretch begins with, in the text. -/
theorem slice_gap (here : source.drop v.position.offset = v.inside ++ v.beyond) :
    Span.slice ⟨v.position, (v.advance (Lexer.gapLength false v.inside)).position⟩ source =
      v.inside.take (Lexer.gapLength false v.inside) := by
  have gap := Lexer.gapLength_le false v.inside
  rw [Span.slice_eq here, offset_advance gap, Nat.add_sub_cancel_left,
    List.take_append_of_le_length gap]

/-- A gap without a comment is blank, and means nothing to the raw scan. -/
theorem steady_of_slice {cs : List Char} {s : Span}
    (h : s.slice source = cs.take (Lexer.gapLength false cs)) (plain : '#' ∉ cs) :
    Lexer.Steady Lexer.inCode (s.slice source) := by
  rw [h]
  exact .of_code (List.all_eq_true.mpr fun c hc =>
    Lexer.isPlainInCode_of_isBlank (Lexer.isBlank_of_mem_gap plain c hc))

/-- The raw scan passes over the gap that a stretch begins with. -/
theorem steady_gap {u t : Token} {ts : List Token}
    (here : source.drop v.position.offset = v.inside ++ v.beyond) (hu : u.span.stop = v.position)
    (ht : t.span.start = (v.advance (Lexer.gapLength false v.inside)).position)
    (steady : Token.AllSteady source (u :: t :: ts)) :
    Lexer.Steady Lexer.inCode (v.inside.take (Lexer.gapLength false v.inside)) := by
  have gaps := (List.isChain_cons_cons.mp steady.gaps).1
  rwa [hu, ht, slice_gap here] at gaps

/-- Without comments the gaps between the tokens mean nothing to the raw scan. -/
theorem steady_gaps (v : View) (u : Token)
    (here : source.drop v.position.offset = v.inside ++ v.beyond) (hu : u.span.stop = v.position)
    (plain : '#' ∉ v.inside) : (u :: v.tokens.tokens).IsChain fun t u =>
      Lexer.Steady Lexer.inCode (Span.slice ⟨t.span.stop, u.span.start⟩ source) := by
  fun_induction View.tokens v generalizing u with
  | case1 v w hw =>
    refine List.isChain_pair.mpr ?_
    rw [hu]
    exact steady_of_slice (slice_gap here) plain
  | case2 v w c cs hw err hc => exact .singleton u
  | case3 v w c cs hw said n hc rest lexeme ih =>
    have gap := Lexer.gapLength_le false v.inside
    have before := slice_gap here
    have here : source.drop w.position.offset = w.inside ++ w.beyond :=
      drop_advance here (gap.trans (Nat.le_add_right _ _))
    refine .cons_cons ?_ (ih _ (drop_advance here (length_content hw hc)) rfl fun hash => ?_)
    · rw [hu]
      exact steady_of_slice before plain
    · exact plain (List.mem_of_mem_drop (List.mem_of_mem_drop hash))

/-- The raw scan counts the parentheses that are tokens of a stretch, if they all end within it. -/
theorem scan_tokens (v : View) (u : Token) (depth d : Nat)
    (here : source.drop v.position.offset = v.inside ++ v.beyond) (hu : u.span.stop = v.position)
    (steady : Token.AllSteady source (u :: v.tokens.tokens)) (whole : v.tokens.error = none)
    (within : ∀ t ∈ v.tokens.tokens, t.span.stop.offset ≤ v.position.offset + v.inside.length)
    (nested : Token.nest depth v.tokens.tokens = some d) (following : Option Char) :
    Lexer.scan following (Lexer.inDepth depth) v.inside = Lexer.inDepth d := by
  fun_induction View.tokens v generalizing u depth with
  | case1 v w hw =>
    obtain ⟨k, turns, ends⟩ := Token.nest_cons nested
    cases turns
    cases ends
    have gap := steady_gap here hu rfl steady
    rw [List.take_of_length_le (List.drop_eq_nil_iff.mp hw)] at gap
    exact gap.inDepth _ following
  | case2 v w c cs hw err hc => cases whole
  | case3 v w c cs hw said n hc rest lexeme ih =>
    obtain ⟨k, turns, nested⟩ := Token.nest_cons nested
    have gap := Lexer.gapLength_le false v.inside
    have passed := steady_gap here hu rfl steady
    have here : source.drop w.position.offset = w.inside ++ w.beyond :=
      drop_advance here (gap.trans (Nat.le_add_right _ _))
    have offset : rest.position.offset = w.position.offset + (n + 1) :=
      offset_advance_of_le (length_content hw hc)
    -- the token ends within the stretch
    have inside : n + 1 ≤ w.inside.length := by
      have stops : rest.position.offset ≤ _ := within _ List.mem_cons_self
      have started : w.position.offset = v.position.offset + _ := offset_advance gap
      have left : w.inside.length = v.inside.length - _ := List.length_drop
      omega
    have ahead : w.inside ++ w.beyond = c :: (cs ++ w.beyond) := by rw [hw, List.cons_append]
    have taken : (c :: (cs ++ w.beyond)).take (n + 1) = w.inside.take (n + 1) := by
      rw [← ahead, List.take_append_of_le_length inside]
    have read := Lexer.scan_content hc (here.trans ahead) offset lexeme (by rw [← ahead])
      (steady.defaults _ (List.mem_cons_of_mem _ List.mem_cons_self)) turns
    have left := ih ⟨said, lexeme, ⟨w.position, rest.position⟩⟩ k
      (drop_advance here (length_content hw hc)) rfl steady.after whole (fun t ht => ?_) nested
    · rw [taken] at read
      have split : v.inside = v.inside.take (Lexer.gapLength false v.inside) ++
          (w.inside.take (n + 1) ++ rest.inside) := by
        rw [show rest.inside = w.inside.drop (n + 1) from rfl, List.take_append_drop,
          show w.inside = v.inside.drop _ from rfl, List.take_append_drop]
      rw [split, Lexer.scan_append, passed.inDepth depth, Lexer.scan_append, read, left]
    · refine (within t (List.mem_cons_of_mem _ ht)).trans ?_
      have started : w.position.offset = v.position.offset + _ := offset_advance gap
      have left : w.inside.length = v.inside.length - _ := List.length_drop
      have left' : rest.inside.length = w.inside.length - _ := List.length_drop
      omega

/-- The raw scan finds the end of a text in parentheses, if it passes over its comments and
defaults. -/
theorem isClosed_enclosed {s : List Char} {u : Token}
    (here : source.drop v.position.offset = s ++ ')' :: v.beyond) (hu : u.span.stop = v.position)
    (steady : Token.AllSteady source (u :: v.tokens.tokens)) (h : v.Encloses s)
    (nested : Token.nest 0 (View.mk v.position s (')' :: v.beyond)).tokens.tokens = some 0) :
    Lexer.isClosed s := by
  obtain ⟨ts, mark, stop, hv, -, hw, within⟩ := h
  rw [hv, ← List.cons_append] at steady
  refine Lexer.isClosed_of_scan ?_
  refine View.scan_tokens (View.mk v.position s (')' :: v.beyond)) u 0 0 here hu ?_ (by rw [hw]) ?_
    nested (some ')')
  · rw [hw]
    exact steady.before
  · rwa [hw]

end View

/-- The raw scan can follow the tokens of a text without comments and without defaults. -/
theorem Token.allSteady_tokenize {source : List Char} (plain : '#' ∉ source)
    (defaults : ∀ t ∈ (tokenize source).tokens, t.defaultTexts source = []) :
    AllSteady source (tokenize source).tokens := by
  have gaps := (View.whole source).steady_gaps (.atEnd .start) (List.append_nil _).symm rfl plain
  refine ⟨gaps.tail, fun t ht r hr => ?_⟩
  rw [defaults t ht] at hr
  cases hr

end Sigil
