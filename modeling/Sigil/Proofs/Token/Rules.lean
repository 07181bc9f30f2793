import Mathlib.Data.List.TakeWhile
import Sigil.Proofs.Token.Enclosures

/-!
# Rules for tokens

The reader of tokens tries the forms of a token one after the other. What it
finds is said here by rules, one for each form of a reference
(`ReadsReference`), of a part of a string (`ReadsParts`) and of a token
(`ReadsToken`). The reader finds exactly what the rules give
(`reference_eq_ok_iff`, `stringParts_eq_ok_iff`, `content_eq_ok_iff`), so that
what holds of all tokens is proved rule by rule, and a token is shown to be
read by naming its rule.
-/

namespace Sigil

/-- A step that succeeds before another one. -/
theorem bind_eq_ok {ε α β : Type} {x : Except ε α} {f : α → Except ε β} {b : β}
    (h : (x >>= f) = .ok b) : ∃ a, x = .ok a ∧ f a = .ok b := by
  cases x with
  | error e => cases h
  | ok a => exact ⟨a, rfl, h⟩

/-- What fails gives nothing. -/
theorem error_ne_ok {ε α : Type} {e : ε} {a : α} : (.error e : Except ε α) ≠ .ok a := by
  intro h
  cases h

@[simp] theorem ok_bind {ε α β : Type} (a : α) (f : α → Except ε β) :
    (Except.ok a >>= f) = f a := rfl

/-- Another name for what goes wrong changes nothing where nothing does. -/
theorem mapError_eq_ok {ε δ α : Type} {x : Except ε α} {f : ε → δ} {a : α} :
    x.mapError f = .ok a ↔ x = .ok a := by
  cases x with
  | error e => exact ⟨fun h => absurd h error_ne_ok, fun h => absurd h error_ne_ok⟩
  | ok b => exact Iff.of_eq (by rw [Except.mapError, Except.ok.injEq, Except.ok.injEq])

namespace Lexer

/-! ## Texts of a kind -/

/-- Characters of a kind up to where the next one is of another kind. -/
theorem takeWhile_append_of_stop {p : Char → Bool} {cs rest : List Char} (h : ∀ c ∈ cs, p c)
    (hr : ∀ c ∈ rest.head?, p c = false) : (cs ++ rest).takeWhile p = cs := by
  rw [List.takeWhile_append_of_pos h]
  cases rest with
  | nil => simp
  | cons c rest => rw [List.takeWhile_cons_of_neg (by simp [hr c rfl]), List.append_nil]

/-- A text is what comes first of a kind, and what begins with something else. -/
theorem exists_takeWhile (p : Char → Bool) (cs : List Char) : ∃ rest,
    cs = cs.takeWhile p ++ rest ∧ (∀ c ∈ cs.takeWhile p, p c) ∧ ∀ c ∈ rest.head?, p c = false := by
  refine ⟨cs.dropWhile p, List.takeWhile_append_dropWhile.symm,
    fun c hc => List.mem_takeWhile_imp hc, fun c hc => ?_⟩
  have stop := List.head?_dropWhile_not p cs
  rw [Option.mem_def.mp hc] at stop
  simpa using stop

/-- The text before a mark that it does not hold itself. -/
theorem takeWhile_ne_append {mark : Char} {text : List Char} (h : mark ∉ text) (rest : List Char) :
    (text ++ mark :: rest).takeWhile (· ≠ mark) = text := by
  refine takeWhile_append_of_stop (fun c hc => ?_) (by rintro _ ⟨⟩; simp)
  simpa using fun same : c = mark => h (same ▸ hc)

/-- A mark is not found in a text before its end. -/
theorem length_takeWhile_ne_iff {mark : Char} {cs : List Char} :
    (cs.takeWhile (· ≠ mark)).length = cs.length ↔ mark ∉ cs := by
  constructor
  · intro h found
    rw [← (List.takeWhile_prefix _).eq_of_length h] at found
    simpa using List.mem_takeWhile_imp found
  · intro h
    rw [List.takeWhile_eq_self_iff.mpr]
    intro c hc
    simpa using fun same : c = mark => h (same ▸ hc)

/-- A text that a mark is found in is what comes before the mark, the mark, and what comes after. -/
theorem exists_append_of_length_ne {mark : Char} {cs : List Char}
    (h : (cs.takeWhile (· ≠ mark)).length ≠ cs.length) :
    ∃ text rest, cs = text ++ mark :: rest ∧ mark ∉ text ∧ cs.takeWhile (· ≠ mark) = text := by
  obtain ⟨rest, parted, other, stop⟩ := exists_takeWhile (· ≠ mark) cs
  generalize cs.takeWhile (· ≠ mark) = text at *
  cases rest with
  | nil => exact absurd (by rw [parted, List.append_nil]) h
  | cons c rest =>
    obtain rfl : c = mark := by simpa using stop c rfl
    exact ⟨text, rest, parted, fun found => by simpa using other _ found, rfl⟩

variable {p : Position} {c : Char} {text cs inside beyond : List Char} {parts : List StringPart}
  {said : Token.Content} {n : Nat}

/-! ## References -/

/-- The rules for what follows a sigil: a name, or a name in braces with or without a default. -/
inductive ReadsReference : List Char → Reference → Prop
  | plain {name rest : List Char} (starts : name.head?.any isNameStart)
    (chars : ∀ c ∈ name, isNameChar c) (stop : ∀ c ∈ rest.head?, isNameChar c = false) :
    ReadsReference (name ++ rest) ⟨name, none, name.length⟩
  | braced {name : List Char} (rest : List Char) (starts : name.head?.any isNameStart)
    (chars : ∀ c ∈ name, isNameChar c) :
    ReadsReference ('\x7b' :: (name ++ '\x7d' :: rest)) ⟨name, none, name.length + 2⟩
  | defaulted {name default : List Char} (rest : List Char) (starts : name.head?.any isNameStart)
    (chars : ∀ c ∈ name, isNameChar c) (stop : '\x7d' ∉ default) :
    ReadsReference ('\x7b' :: (name ++ ':' :: '-' :: (default ++ '\x7d' :: rest)))
      ⟨name, some (stripQuotes default), name.length + default.length + 4⟩

/-- A reference without braces is a name. -/
theorem reference_name (rest : List Char) (brace : c ≠ '\x7b') : reference (c :: rest) =
    if isNameStart c then .ok ⟨c :: rest.takeWhile isNameChar, none,
      (rest.takeWhile isNameChar).length + 1⟩ else .error (.missingName (some c)) := by
  rw [reference]
  · rfl
  · exact brace

theorem isNameStart_isNameChar (h : isNameStart c) : isNameChar c := by
  simp only [isNameStart, isNameChar, Char.isAlphanum, Bool.or_eq_true] at h ⊢
  rcases h with h | h
  · exact .inl (.inl h)
  · exact .inr h

theorem readsReference_of_braced {ref : Reference} (h : bracedReference cs = .ok ref) :
    ReadsReference ('\x7b' :: cs) ref := by
  unfold bracedReference at h
  dsimp only at h
  obtain ⟨left, parted, names, -⟩ := exists_takeWhile isNameChar cs
  generalize cs.takeWhile isNameChar = name at *
  subst parted
  rw [List.drop_left] at h
  split at h
  · cases h
  · cases h
  · split_ifs at h with starts
    cases h
    exact .braced _ starts names
  · split_ifs at h with ends starts
    cases h
    obtain ⟨text, rest, rfl, plain, taken⟩ := exists_append_of_length_ne ends
    rw [taken]
    exact .defaulted rest starts names plain
  · cases h

theorem ReadsReference.read {ref : Reference} (h : ReadsReference cs ref) :
    reference cs = .ok ref := by
  have named {name : List Char} (chars : ∀ c ∈ name, isNameChar c) {d : Char}
      (hd : isNameChar d = false) (more : List Char) :
      (name ++ d :: more).takeWhile isNameChar = name :=
    takeWhile_append_of_stop chars (by rintro _ ⟨⟩; exact hd)
  cases h with
  | @plain name rest starts chars stop =>
    cases name with
    | nil => cases starts
    | cons c name =>
      have starts : isNameStart c := starts
      have brace : c ≠ '\x7b' := by
        rintro rfl
        revert starts
        decide
      have whole : (name ++ rest).takeWhile isNameChar = name :=
        takeWhile_append_of_stop (List.forall_mem_cons.mp chars).2 stop
      rw [List.cons_append, reference_name _ brace, if_pos starts, whole]
      rfl
  | braced rest starts chars =>
    rw [reference, bracedReference]
    simp [named chars (d := '\x7d') (by decide), starts]
  | @defaulted name default rest starts chars stop =>
    have taken := takeWhile_ne_append stop rest
    simp only [ne_eq, decide_not] at taken
    rw [reference, bracedReference]
    simp [named chars (d := ':') (by decide), starts, taken]

/-- A reference is read by its rule. -/
theorem reference_eq_ok_iff {ref : Reference} : reference cs = .ok ref ↔ ReadsReference cs ref := by
  refine ⟨fun h => ?_, ReadsReference.read⟩
  unfold reference at h
  split at h
  · exact readsReference_of_braced h
  · next c cs _ =>
    split_ifs at h with starts
    cases h
    obtain ⟨rest, parted, names, stop⟩ := exists_takeWhile isNameChar cs
    generalize cs.takeWhile isNameChar = name at *
    subst parted
    have chars : ∀ d ∈ c :: name, isNameChar d :=
      List.forall_mem_cons.mpr ⟨isNameStart_isNameChar starts, names⟩
    have starts : (c :: name).head?.any isNameStart := starts
    exact .plain starts chars stop
  · cases h

/-- A reference ends within the text. -/
theorem reference_length {ref : Reference} (h : reference cs = .ok ref) : ref.length ≤ cs.length := by
  cases reference_eq_ok_iff.mp h with
  | plain | braced | defaulted => simp <;> omega

/-- A reference is some of the text, and what follows it. -/
theorem exists_of_reference {ref : Reference} (h : reference cs = .ok ref) :
    ∃ taken after, cs = taken ++ after ∧ taken.length = ref.length :=
  ⟨cs.take ref.length, cs.drop ref.length, (List.take_append_drop ..).symm,
    List.length_take_of_le (reference_length h)⟩

/-! ## Strings -/

/-- The rules for the parts of a string that is read at a position, after some text of the current
part. -/
inductive ReadsParts : Position → List Char → List Char → List StringPart → Nat → Prop
  | quote {p : Position} {text : List Char} (rest : List Char) :
    ReadsParts p text ('"' :: rest) (prependText text []) 1
  | escaped {p : Position} {text : List Char} {c d : Char} {rest : List Char}
    {parts : List StringPart} {n : Nat} (means : escape c = some d)
    (more : ReadsParts ((p.step '\\').step c) (text ++ [d]) rest parts n) :
    ReadsParts p text ('\\' :: c :: rest) parts (n + 2)
  | substitution {p : Position} {text inside rest : List Char} {parts : List StringPart} {n : Nat}
    (closed : isClosed inside)
    (more : ReadsParts ((((p.step '$').step '(').after inside).step ')') [] rest parts n) :
    ReadsParts p text ('$' :: '(' :: (inside ++ ')' :: rest)) (prependText text
      (.substitution ⟨(p.step '$').step '(', inside, ')' :: rest⟩
        ⟨p, (((p.step '$').step '(').after inside).step ')'⟩ :: parts)) (n + inside.length + 3)
  | variable {p : Position} {text taken rest : List Char} {name : List Char}
    {default : Option (List Char)} {parts : List StringPart} {n : Nat}
    (refers : reference (taken ++ rest) = .ok ⟨name, default, taken.length⟩)
    (more : ReadsParts ((p.step '$').after taken) [] rest parts n) :
    ReadsParts p text ('$' :: (taken ++ rest)) (prependText text
      (.variable (String.ofList name) (default.map String.ofList) ⟨p, (p.step '$').after taken⟩ ::
        parts)) (n + taken.length + 1)
  | char {p : Position} {text : List Char} {c : Char} {rest : List Char} {parts : List StringPart}
    {n : Nat} (quote : c ≠ '"') (backslash : c ≠ '\\') (sigil : c ≠ '$')
    (more : ReadsParts (p.step c) (text ++ [c]) rest parts n) :
    ReadsParts p text (c :: rest) parts (n + 1)

section

variable {opened : Position} {rest : List Char}

attribute [local simp] stringParts

theorem stringParts_nil : stringParts opened p text [] = .error ⟨.openString, opened⟩ := by
  rw [stringParts]

theorem stringParts_backslash : stringParts opened p text ['\\'] = .error ⟨.openString, opened⟩ := by
  rw [stringParts]

theorem stringParts_quote : stringParts opened p text ('"' :: rest) = .ok (prependText text [], 1) := by
  rw [stringParts]

theorem stringParts_unknown (h : escape c = none) :
    stringParts opened p text ('\\' :: c :: rest) = .error ⟨.unknownEscape c, p⟩ := by
  rw [stringParts, h]

/-- An escape is the character that it means. -/
theorem stringParts_escaped {d : Char} (h : escape c = some d) :
    stringParts opened p text ('\\' :: c :: rest) =
      stringParts opened ((p.step '\\').step c) (text ++ [d]) rest >>= fun r =>
        .ok (r.1, r.2 + 2) := by
  rw [stringParts, h]
  rfl

/-- A character that means nothing else in a string is text. -/
theorem stringParts_char (quote : c ≠ '"') (backslash : c ≠ '\\') (sigil : c ≠ '$') :
    stringParts opened p text (c :: rest) =
      stringParts opened (p.step c) (text ++ [c]) rest >>= fun r => .ok (r.1, r.2 + 1) := by
  rw [stringParts]
  · rfl
  · exact fun e _ => backslash e
  · exact quote
  · exact fun _ _ e _ => backslash e
  · exact fun _ e _ => sigil e
  · exact sigil

theorem stringParts_unclosed {e : LexError}
    (h : closing [.substitution p 1] ((p.step '$').step '(') rest = .error e) :
    stringParts opened p text ('$' :: '(' :: rest) = .error e := by
  rw [stringParts]
  dsimp only
  rw [h]
  rfl

theorem stringParts_fault {fault : LexFault} (plain : ∀ ds, rest ≠ '(' :: ds)
    (h : reference rest = .error fault) :
    stringParts opened p text ('$' :: rest) = .error ⟨fault, p⟩ := by
  rw [stringParts, h]
  exact plain

end

/-- A substitution in a string, and then the rest of the string. -/
theorem stringParts_substitution (opened p : Position) (text rest : List Char)
    (h : isClosed inside) : stringParts opened p text ('$' :: '(' :: (inside ++ ')' :: rest)) =
      stringParts opened ((((p.step '$').step '(').after inside).step ')') [] rest >>= fun r =>
        .ok (prependText text (.substitution ⟨(p.step '$').step '(', inside, ')' :: rest⟩
          ⟨p, (((p.step '$').step '(').after inside).step ')'⟩ :: r.1), r.2 + inside.length + 3) := by
  have left : (inside ++ ')' :: rest).drop (inside.length + 1) = rest := by
    rw [← List.drop_drop, List.drop_left]
    rfl
  rw [stringParts]
  dsimp only
  rw [closing_of_isClosed h, ok_bind, List.take_left, left, List.drop_left]
  rfl

/-- A reference in a string, and then the rest of the string. -/
theorem stringParts_reference (opened p : Position) (text : List Char) {taken rest name : List Char}
    {default : Option (List Char)}
    (h : reference (taken ++ rest) = .ok ⟨name, default, taken.length⟩) :
    stringParts opened p text ('$' :: (taken ++ rest)) =
      stringParts opened ((p.step '$').after taken) [] rest >>= fun r =>
        .ok (prependText text (.variable (String.ofList name) (default.map String.ofList)
          ⟨p, (p.step '$').after taken⟩ :: r.1), r.2 + taken.length + 1) := by
  rw [stringParts, h]
  · dsimp only
    rw [List.take_left, List.drop_left]
    rfl
  · intro rest opening
    rw [opening] at h
    cases h

/-- What holds of a string that ends, or that cannot go on, and of one that goes on if it holds of the
rest, holds of all strings. -/
@[elab_as_elim]
theorem stringParts_induction {motive : Position → List Char → List Char → Prop}
    (ends : ∀ p text, motive p text [])
    (backslash : ∀ p text, motive p text ['\\'])
    (quote : ∀ p text rest, motive p text ('"' :: rest))
    (unknown : ∀ p text c rest, escape c = none → motive p text ('\\' :: c :: rest))
    (escaped : ∀ p text c d rest, escape c = some d →
      motive ((p.step '\\').step c) (text ++ [d]) rest → motive p text ('\\' :: c :: rest))
    (unclosed : ∀ p text rest e, closing [.substitution p 1] ((p.step '$').step '(') rest = .error e →
      motive p text ('$' :: '(' :: rest))
    (substitution : ∀ p text inside rest, isClosed inside →
      motive ((((p.step '$').step '(').after inside).step ')') [] rest →
      motive p text ('$' :: '(' :: (inside ++ ')' :: rest)))
    (fault : ∀ p text rest fault, (∀ ds, rest ≠ '(' :: ds) → reference rest = .error fault →
      motive p text ('$' :: rest))
    (named : ∀ p text taken rest name default,
      reference (taken ++ rest) = .ok ⟨name, default, taken.length⟩ →
      motive ((p.step '$').after taken) [] rest → motive p text ('$' :: (taken ++ rest)))
    (char : ∀ p text c rest, c ≠ '"' → c ≠ '\\' → c ≠ '$' →
      motive (p.step c) (text ++ [c]) rest → motive p text (c :: rest))
    (p : Position) (text cs : List Char) : motive p text cs := by
  fun_induction stringParts .start p text cs with
  | case1 p text => exact ends p text
  | case2 p text => exact backslash p text
  | case3 p text rest => exact quote p text rest
  | case4 p text c rest means => exact unknown p text c rest means
  | case5 p text c rest d means ih => exact escaped p text c d rest means ih
  | case6 p text rest start =>
    rename_i ih
    cases closes : closing [.substitution p 1] start rest with
    | error e => exact unclosed p text rest e closes
    | ok n =>
      obtain ⟨inside, after, rfl, rfl, closed⟩ := exists_of_closing closes
      have more := ih inside.length
      rw [← List.drop_drop, List.drop_left, List.take_left] at more
      exact substitution p text inside after closed more
  | case7 p text rest plain f refers => exact fault p text rest f plain refers
  | case8 p text rest _ ref refers stop =>
    rename_i ih
    obtain ⟨taken, after, rfl, length⟩ := exists_of_reference refers
    obtain ⟨name, default, m⟩ := ref
    obtain rfl : taken.length = m := length
    dsimp only [stop] at ih
    rw [List.drop_left, List.take_left] at ih
    exact named p text taken after name default refers ih
  | case9 p text c rest last quote escaped _ sigil ih =>
    -- a backslash at the end of the text and one before a character have cases of their own
    have backslash : c ≠ '\\' := by
      rintro rfl
      cases rest with
      | nil => exact last rfl rfl
      | cons d rest => exact escaped d rest rfl rfl
    exact char p text c rest quote backslash sigil ih

theorem ReadsParts.read (h : ReadsParts p text cs parts n) (opened : Position) :
    stringParts opened p text cs = .ok (parts, n) := by
  induction h with
  | quote rest => rw [stringParts_quote]
  | escaped means more ih => rw [stringParts_escaped means, ih, ok_bind]
  | substitution closed more ih => rw [stringParts_substitution _ _ _ _ closed, ih, ok_bind]
  | «variable» refers more ih => rw [stringParts_reference _ _ _ refers, ih, ok_bind]
  | char quote backslash sigil more ih =>
    rw [stringParts_char quote backslash sigil, ih, ok_bind]

/-- The parts of a string are read by their rules, wherever the string starts. -/
theorem stringParts_eq_ok_iff {opened : Position} :
    stringParts opened p text cs = .ok (parts, n) ↔ ReadsParts p text cs parts n := by
  refine ⟨fun h => ?_, fun h => h.read opened⟩
  induction p, text, cs using stringParts_induction generalizing parts n with
  | ends => rw [stringParts_nil] at h; cases h
  | backslash => rw [stringParts_backslash] at h; cases h
  | unknown p text c rest means => rw [stringParts_unknown means] at h; cases h
  | unclosed p text rest e closes => rw [stringParts_unclosed closes] at h; cases h
  | fault p text rest f plain refers => rw [stringParts_fault plain refers] at h; cases h
  | quote p text rest =>
    rw [stringParts_quote] at h
    cases h
    exact .quote rest
  | escaped p text c d rest means ih =>
    rw [stringParts_escaped means] at h
    obtain ⟨⟨parts, k⟩, hs, e⟩ := bind_eq_ok h
    cases e
    exact .escaped means (ih hs)
  | substitution p text inside rest closed ih =>
    rw [stringParts_substitution _ _ _ _ closed] at h
    obtain ⟨⟨parts, k⟩, hs, e⟩ := bind_eq_ok h
    cases e
    exact .substitution closed (ih hs)
  | named p text taken rest name default refers ih =>
    rw [stringParts_reference _ _ _ refers] at h
    obtain ⟨⟨parts, k⟩, hs, e⟩ := bind_eq_ok h
    cases e
    exact .variable refers (ih hs)
  | char p text c rest quote backslash sigil ih =>
    rw [stringParts_char quote backslash sigil] at h
    obtain ⟨⟨parts, k⟩, hs, e⟩ := bind_eq_ok h
    cases e
    exact .char quote backslash sigil (ih hs)

/-- A raw string goes on to the next quote. -/
theorem rawParts_eq_ok_iff {opened : Position} : rawParts opened cs = .ok (parts, n) ↔
    ∃ text rest, cs = text ++ '\'' :: rest ∧ '\'' ∉ text ∧ parts = prependText text [] ∧
      n = text.length + 1 := by
  unfold rawParts
  dsimp only
  constructor
  · intro h
    split_ifs at h with ends
    cases h
    obtain ⟨text, rest, parted, plain, taken⟩ := exists_append_of_length_ne ends
    exact ⟨text, rest, parted, plain, by rw [taken], by rw [taken]⟩
  · rintro ⟨text, rest, rfl, plain, rfl, rfl⟩
    rw [takeWhile_ne_append plain, if_neg (by simp)]

/-- A raw string that has no quote is open. -/
theorem rawParts_eq_error_iff {opened : Position} {e : LexError} :
    rawParts opened cs = .error e ↔ '\'' ∉ cs ∧ e = ⟨.openString, opened⟩ := by
  unfold rawParts
  dsimp only
  rw [← length_takeWhile_ne_iff]
  split_ifs with ends
  · rw [Except.error.injEq]
    exact ⟨fun same => ⟨ends, same.symm⟩, fun h => h.2.symm⟩
  · constructor
    · rintro ⟨⟩
    · exact fun h => absurd h.1 ends

/-! ## Tokens -/

/-- The rules for the token that starts with a character at a position. -/
inductive ReadsToken (p : Position) : Char → List Char → List Char → Token.Content → Nat → Prop
  | opening (rest beyond : List Char) : ReadsToken p '$' ('(' :: rest) beyond .delimiter 1
  | variable {inside beyond name : List Char} {n : Nat}
    (refers : reference (inside ++ beyond) = .ok ⟨name, none, n⟩) :
    ReadsToken p '$' inside beyond (.variable (String.ofList name)) n
  | defaulted {inside beyond name default : List Char} {n : Nat}
    (refers : reference (inside ++ beyond) = .ok ⟨name, some default, n⟩) :
    ReadsToken p '$' inside beyond (.defaulted (String.ofList name) (String.ofList default)) n
  | string {inside beyond : List Char} {parts : List StringPart} {n : Nat}
    (cut : ReadsParts (p.step '"') [] (inside ++ beyond) parts n) :
    ReadsToken p '"' inside beyond (.string parts) n
  | raw {inside beyond text rest : List Char} (parted : inside ++ beyond = text ++ '\'' :: rest)
    (plain : '\'' ∉ text) :
    ReadsToken p '\'' inside beyond (.string (prependText text [])) (text.length + 1)
  | integer {c : Char} {inside : List Char} (beyond : List Char) {k : Nat} (digit : c.isDigit)
    (value : (numberText (c :: inside)).content = .ok (.integer k)) :
    ReadsToken p c inside beyond (.integer k) ((numberText (c :: inside)).length - 1)
  | float {c : Char} {inside : List Char} (beyond : List Char) {x : Float} (digit : c.isDigit)
    (value : (numberText (c :: inside)).content = .ok (.float x)) :
    ReadsToken p c inside beyond (.float x) ((numberText (c :: inside)).length - 1)
  | word {c : Char} {inside : List Char} (beyond : List Char) (starts : startsWord (c :: inside)) :
    ReadsToken p c inside beyond .word (inside.takeWhile isWordChar).length
  | operator {c : Char} {inside : List Char} (beyond : List Char) {op : String}
    (other : startsWord (c :: inside) = false)
    (found : (operators.find? fun op => op.toList.isPrefixOf (c :: inside)) = some op) :
    ReadsToken p c inside beyond .operator (op.length - 1)
  | mark {c : Char} (inside beyond : List Char) (known : c ∈ delimiters) :
    ReadsToken p c inside beyond .delimiter 0

/-- A number is an integer or a float. -/
theorem numberContent_cases {t : NumberText} (h : t.content = .ok said) :
    (∃ k, said = .integer k) ∨ ∃ x, said = .float x := by
  unfold NumberText.content at h
  split at h
  · split at h <;> cases h
    exact .inl ⟨_, rfl⟩
  · cases h
    exact .inr ⟨_, rfl⟩

/-- A word starts with a letter or the like, or with a slash or a dash that has one after it. -/
theorem startsWord_cons (c : Char) (cs : List Char) :
    startsWord (c :: cs) =
      (c.isAlpha || c ∈ ['_', '.', '~'] ||
        (c = '/' && cs.head?.any fun d => d.isAlpha || d ∈ ['_', '.', '~', '/']) ||
        (c = '-' && cs.head?.any fun d => d.isAlpha || d = '-')) := by
  cases cs with
  | nil => simp [startsWord]
  | cons d ds =>
    by_cases h : c = '/'
    · subst h
      simp [startsWord]
    · by_cases k : c = '-'
      · subst k
        simp [startsWord]
      · simp [startsWord, h, k]

/-- The letters, by their codes. -/
theorem isAlpha_iff : c.isAlpha ↔
    'A'.val ≤ c.val ∧ c.val ≤ 'Z'.val ∨ 'a'.val ≤ c.val ∧ c.val ≤ 'z'.val := by
  have cases : c.isAlpha = (decide (c.val ≥ 'A'.val ∧ c.val ≤ 'Z'.val) ||
    (decide (c.val ≥ 'a'.val) && decide (c.val ≤ 'z'.val))) := rfl
  simp only [cases, Bool.or_eq_true, Bool.and_eq_true, decide_eq_true_eq, ge_iff_le]

theorem isAlpha_of_isDigit (h : c.isDigit) : c.isAlpha = false := by
  simp only [Char.isDigit, Bool.and_eq_true, decide_eq_true_eq, ge_iff_le,
    UInt32.le_iff_toNat_le] at h
  rw [Bool.eq_false_iff, ne_eq, isAlpha_iff]
  simp only [UInt32.le_iff_toNat_le]
  have : '9'.val.toNat = 57 := rfl
  have : 'A'.val.toNat = 65 := rfl
  have : 'a'.val.toNat = 97 := rfl
  omega

/-- Nothing that is looked for before words starts with this character. -/
structure StartsLate (c : Char) : Prop where
  sigil : c ≠ '$'
  quote : c ≠ '"'
  single : c ≠ '\''
  digit : c.isDigit = false

theorem startsLate_of_mem {cs : List Char} (h : c ∈ cs)
    (all : cs.all fun c => c ≠ '$' && c ≠ '"' && c ≠ '\'' && !c.isDigit) : StartsLate c := by
  have here := List.all_eq_true.mp all c h
  simp only [Bool.and_eq_true, decide_eq_true_eq, Bool.not_eq_true'] at here
  exact ⟨here.1.1.1, here.1.1.2, here.1.2, here.2⟩

/-- What a word starts with starts no other token that is looked for before. -/
theorem startsLate_of_startsWord (h : startsWord (c :: cs)) : StartsLate c := by
  rw [startsWord_cons] at h
  simp only [Bool.or_eq_true, Bool.and_eq_true, decide_eq_true_eq] at h
  rcases h with ((alpha | other) | ⟨rfl, -⟩) | ⟨rfl, -⟩
  · refine ⟨?_, ?_, ?_, ?_⟩
    · rintro rfl; revert alpha; decide
    · rintro rfl; revert alpha; decide
    · rintro rfl; revert alpha; decide
    · exact Bool.eq_false_iff.mpr fun digit => by
        rw [isAlpha_of_isDigit digit] at alpha
        cases alpha
  · exact startsLate_of_mem other (by decide)
  · exact startsLate_of_mem (List.mem_singleton_self _) (by decide)
  · exact startsLate_of_mem (List.mem_singleton_self _) (by decide)

theorem startsLate_of_operator {op : String}
    (h : (operators.find? fun op => op.toList.isPrefixOf (c :: cs)) = some op) : StartsLate c := by
  have known : operators.all fun op => op.toList.all fun c =>
      c ≠ '$' && c ≠ '"' && c ≠ '\'' && !c.isDigit := by decide
  have here := List.all_eq_true.mp known op (List.mem_of_find?_eq_some h)
  have some : operators.all fun op => !op.toList.isEmpty := by decide
  have nonempty := List.all_eq_true.mp some op (List.mem_of_find?_eq_some h)
  have start := List.find?_some h
  rw [List.isPrefixOf_iff_prefix] at start
  cases hop : op.toList with
  | nil => rw [hop] at nonempty; cases nonempty
  | cons d ds =>
    rw [hop] at start here
    obtain ⟨rfl, -⟩ := List.cons_prefix_cons.mp start
    exact startsLate_of_mem List.mem_cons_self here

/-- Neither a word nor an operator starts with a mark of one character. -/
theorem starts_of_mem_delimiters (h : c ∈ delimiters) (inside : List Char) :
    StartsLate c ∧ startsWord (c :: inside) = false ∧
      (operators.find? fun op => op.toList.isPrefixOf (c :: inside)) = none := by
  refine ⟨startsLate_of_mem h (by decide), ?_⟩
  simp only [delimiters, List.mem_cons, List.not_mem_nil, or_false] at h
  rw [startsWord_cons]
  rcases h with rfl | rfl | rfl | rfl | rfl | rfl <;>
    exact ⟨rfl, by simp [operators, List.isPrefixOf]⟩

theorem ReadsToken.read (h : ReadsToken p c inside beyond said n) :
    content p c inside beyond = .ok (said, n) := by
  have referred {ref : Reference} (h : reference (inside ++ beyond) = .ok ref) (rest : List Char) :
      inside ≠ '(' :: rest := by
    rintro rfl
    cases h
  cases h with
  | opening rest beyond => rfl
  | «variable» refers | defaulted refers =>
    rw [content]
    · simp only [if_true, refers]
      rfl
    · exact referred refers
  | string cut =>
    have read := cut.read p
    simp [content, read]
  | @raw _ _ text rest parted plain =>
    have read : rawParts p _ = _ := rawParts_eq_ok_iff.mpr ⟨text, rest, parted, plain, rfl, rfl⟩
    simp [content, read]
  | integer beyond digit value | float beyond digit value =>
    have sigil : c ≠ '$' := by rintro rfl; revert digit; decide
    have quote : c ≠ '"' := by rintro rfl; revert digit; decide
    have single : c ≠ '\'' := by rintro rfl; revert digit; decide
    simp [content, sigil, quote, single, digit, value]
    rfl
  | word beyond starts =>
    obtain ⟨sigil, quote, single, digit⟩ := startsLate_of_startsWord starts
    simp [content, sigil, quote, single, digit, starts]
  | operator beyond other found =>
    obtain ⟨sigil, quote, single, digit⟩ := startsLate_of_operator found
    simp [content, sigil, quote, single, digit, other, found]
  | mark inside beyond known =>
    obtain ⟨⟨sigil, quote, single, digit⟩, other, none⟩ := starts_of_mem_delimiters known inside
    simp [content, sigil, quote, single, digit, other, none, known]

/-- A token is read by its rule. -/
theorem content_eq_ok_iff :
    content p c inside beyond = .ok (said, n) ↔ ReadsToken p c inside beyond said n := by
  refine ⟨fun h => ?_, ReadsToken.read⟩
  unfold content at h
  dsimp only at h
  split_ifs at h with sigil quote single digit starts known
  · subst sigil
    split at h
    · cases h
      exact .opening ..
    · obtain ⟨⟨name, default, k⟩, refers, h⟩ := bind_eq_ok h
      rw [mapError_eq_ok] at refers
      cases default with
      | none =>
        cases h
        exact .variable refers
      | some default =>
        cases h
        exact .defaulted refers
  · subst quote
    obtain ⟨⟨parts, k⟩, cut, e⟩ := bind_eq_ok h
    cases e
    exact .string (stringParts_eq_ok_iff.mp cut)
  · subst single
    obtain ⟨⟨parts, k⟩, cut, e⟩ := bind_eq_ok h
    cases e
    obtain ⟨text, rest, parted, plain, rfl, rfl⟩ := rawParts_eq_ok_iff.mp cut
    exact .raw parted plain
  · obtain ⟨said, value, e⟩ := bind_eq_ok h
    cases e
    rw [mapError_eq_ok] at value
    obtain ⟨k, rfl⟩ | ⟨x, rfl⟩ := numberContent_cases value
    · exact .integer beyond digit value
    · exact .float beyond digit value
  · cases h
    exact .word beyond starts
  · cases found : operators.find? fun op => op.toList.isPrefixOf (c :: inside) with
    | some op =>
      rw [found] at h
      cases h
      exact .operator beyond (Bool.eq_false_iff.mpr starts) found
    | none =>
      rw [found] at h
      cases h
      exact .mark inside beyond known
  · cases found : operators.find? fun op => op.toList.isPrefixOf (c :: inside) with
    | some op =>
      rw [found] at h
      cases h
      exact .operator beyond (Bool.eq_false_iff.mpr starts) found
    | none =>
      rw [found] at h
      cases h

end Lexer

end Sigil
