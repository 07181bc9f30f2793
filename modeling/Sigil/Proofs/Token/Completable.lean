import Sigil.Proofs.Token.Scanned

/-!
# Tokens that can still be completed

A text may end within a token, and the next line then goes on with it. What
becomes of a reader that stopped in this way is one of four things
(`Lexer.Fate`): a substitution, or a string that a line break may stand in, can be
completed; a string that ends with a backslash cannot, since the line break is
no escape; a reference can exactly if it has a name and the mark of a
default, for a line break cannot stand before these. From the readers this is
carried to the tokens of a text (`tokenize_completable`).
-/

namespace Sigil

/-- A text stays where it is when a line is added to it. -/
def Placement.newLine (t : List Char) : Placement where
  offset := 0
  lines := 0
  more := '\n' :: t
  breaks := by
    rintro _ ⟨⟩
    rfl

namespace Lexer

/-! ## Enclosures -/

/-- There is a text that closes the enclosures. -/
def Closable (enclosures : List Enclosure) : Prop :=
  ∀ p, ∃ t n, t.length = n + 1 ∧ ∀ more, closing enclosures p (t ++ more) = .ok n

/-- A character that leads to enclosures that can be closed, or out of them. -/
theorem Closable.step {enclosures outer : List Enclosure} (c : Char)
    (next : ∀ p following, Enclosure.next p c following enclosures = outer)
    (h : outer = [] ∨ Closable outer) : Closable enclosures := by
  intro p
  cases outer with
  | nil =>
    refine ⟨[c], 0, rfl, fun more => ?_⟩
    rw [List.cons_append, closing, next]
  | cons innermost outer =>
    obtain ⟨t, n, length, closes⟩ := h.resolve_left (List.cons_ne_nil _ _) (p.step c)
    refine ⟨c :: t, n + 1, congrArg (· + 1) length, fun more => ?_⟩
    rw [List.cons_append, closing_cons (next p _), closes]
    rfl

theorem closable_substitution {outer : List Enclosure} (opened : Position) (depth : Nat)
    (h : outer = [] ∨ Closable outer) : Closable (.substitution opened depth :: outer) := by
  induction depth using Nat.strongRecOn with
  | ind depth ih =>
    by_cases last : depth ≤ 1
    · exact .step ')' (fun p following => by rw [Enclosure.next, if_pos rfl, if_pos last]) h
    · refine .step ')' (fun p following => ?_) (.inr (ih (depth - 1) (by omega)))
      rw [Enclosure.next, if_pos rfl, if_neg last]

theorem closable_cons (innermost : Enclosure) (outer : List Enclosure) :
    Closable (innermost :: outer) := by
  have one (innermost : Enclosure) (outer : List Enclosure) (h : outer = [] ∨ Closable outer) :
      Closable (innermost :: outer) := by
    have string (opened : Position) : Closable (.string opened :: outer) :=
      .step '"' (fun _ _ => rfl) h
    cases innermost with
    | substitution opened depth => exact closable_substitution opened depth h
    | raw opened depth =>
      exact .step '\'' (fun _ _ => rfl) (.inr (closable_substitution opened depth h))
    | string opened => exact string opened
    | escape opened => exact .step 'x' (fun _ _ => rfl) (.inr (string opened))
  induction outer generalizing innermost with
  | nil => exact one innermost [] (.inl rfl)
  | cons e outer ih => exact one innermost _ (.inr (ih e))

/-- A line break leaves an enclosure open, but for a backslash that it may stand after. -/
theorem Enclosure.next_newLine (innermost : Enclosure) (outer : List Enclosure) :
    ∃ innermost', innermost'.unclosed = innermost.unclosed ∧
      ∀ p following, next p '\n' following (innermost :: outer) = innermost' :: outer := by
  cases innermost with
  | substitution opened depth => exact ⟨_, rfl, fun _ _ => rfl⟩
  | raw opened depth => exact ⟨_, rfl, fun _ _ => rfl⟩
  | string opened => exact ⟨_, rfl, fun _ _ => rfl⟩
  | escape opened => exact ⟨.string opened, rfl, fun _ _ => rfl⟩

/-- Enclosures that a text leaves open are as open after a line break, and can be closed then. -/
theorem closing_open {enclosures : List Enclosure} {p : Position} {cs : List Char} {e : LexError}
    (h : closing enclosures p cs = .error e) : e.fault ≠ .openReference ∧
      closing enclosures p (cs ++ ['\n']) = .error e ∧
      ∃ t, ∀ more, closing enclosures p (cs ++ '\n' :: (t ++ more)) = .ok (cs.length + t.length) := by
  induction cs generalizing enclosures p with
  | nil =>
    cases enclosures with
    | nil => cases h
    | cons innermost outer =>
      cases h
      obtain ⟨innermost', same, next⟩ := innermost.next_newLine outer
      obtain ⟨t, n, length, closes⟩ := closable_cons innermost' outer (p.step '\n')
      refine ⟨by cases innermost <;> nofun, ?_, t, fun more => ?_⟩
      · rw [List.nil_append, closing_cons (next p _), closing, same]
        rfl
      · rw [List.nil_append, closing_cons (next p _), closes, length, List.length_nil, Nat.zero_add]
        rfl
  | cons c cs ih =>
    have following (t : List Char) : Enclosure.next p c (cs ++ '\n' :: t).head? enclosures =
        Enclosure.next p c cs.head? enclosures :=
      Enclosure.next_more (m := .newLine t) p c cs enclosures
    cases next : Enclosure.next p c cs.head? enclosures with
    | nil =>
      rw [closing, next] at h
      cases h
    | cons innermost outer =>
      rw [closing_cons next] at h
      cases inner : closing (innermost :: outer) (p.step c) cs with
      | ok n => rw [inner] at h; cases h
      | error e' =>
        rw [inner] at h
        cases h
        obtain ⟨construct, still, t, closes⟩ := ih inner
        refine ⟨construct, ?_, t, fun more => ?_⟩
        · rw [List.cons_append, closing_cons ((following []).trans next), still]
          rfl
        · rw [List.cons_append, closing_cons ((following _).trans next), closes, List.length_cons]
          exact congrArg Except.ok (Nat.add_right_comm _ _ _)

/-! ## References -/

/-- The text begins with a reference in braces that has a name and the mark of a default. -/
def NamesDefault (cs : List Char) : Prop :=
  ∃ name default, name.head?.any isNameStart ∧ name.all isNameChar ∧
    cs = '$' :: '\x7b' :: (name ++ ':' :: '-' :: default)

theorem namesDefault_braced {cs : List Char} : NamesDefault ('$' :: '\x7b' :: cs) ↔
    (cs.takeWhile isNameChar).head?.any isNameStart ∧
      ∃ default, cs.drop (cs.takeWhile isNameChar).length = ':' :: '-' :: default := by
  constructor
  · rintro ⟨name, default, starts, all, h⟩
    obtain rfl : cs = name ++ ':' :: '-' :: default := by simpa using h
    have name : (name ++ ':' :: '-' :: default).takeWhile isNameChar = name :=
      takeWhile_append_of_stop (List.all_eq_true.mp all) (by rintro _ ⟨⟩; decide)
    rw [name, List.drop_left]
    exact ⟨starts, default, rfl⟩
  · rintro ⟨starts, default, h⟩
    obtain ⟨rest, split⟩ : cs.takeWhile isNameChar <+: cs := List.takeWhile_prefix _
    refine ⟨cs.takeWhile isNameChar, default, starts, List.all_takeWhile, ?_⟩
    have after : cs.drop (cs.takeWhile isNameChar).length = rest := by
      conv_lhs => rw [← split, List.drop_left' (by rw [split])]
    rw [← h, after, split]

/-- A text that ends within a reference in braces ends after the name, or within the mark of a default,
or within the default. -/
theorem exists_of_openReference {cs : List Char} {fault : LexFault}
    (h : bracedReference cs = .error fault) (incomplete : fault.isIncomplete) :
    fault = .openReference ∧ ∃ name rest, cs = name ++ rest ∧ (∀ c ∈ name, isNameChar c) ∧
      (rest = [] ∨ rest = [':'] ∨ ∃ default, rest = ':' :: '-' :: default ∧ '\x7d' ∉ default) := by
  unfold bracedReference at h
  dsimp only at h
  obtain ⟨rest, parted, names, -⟩ := exists_takeWhile isNameChar cs
  generalize cs.takeWhile isNameChar = name at *
  subst parted
  rw [List.drop_left] at h
  split at h
  · cases h
    exact ⟨rfl, name, _, rfl, names, .inl rfl⟩
  · cases h
    exact ⟨rfl, name, _, rfl, names, .inr (.inl rfl)⟩
  · split at h <;> cases h
    cases incomplete
  · split_ifs at h with ends
    · cases h
      exact ⟨rfl, name, _, rfl, names, .inr (.inr ⟨_, rfl, length_takeWhile_ne_iff.mp ends⟩)⟩
    · cases h
      cases incomplete
  · cases h
    cases incomplete

/-- A reference in braces that a text ends within can be completed after a line break exactly if it
has come to its default. -/
theorem bracedReference_open {cs : List Char} {fault : LexFault}
    (h : bracedReference cs = .error fault) (incomplete : fault.isIncomplete) :
    fault = .openReference ∧
      ((NamesDefault ('$' :: '\x7b' :: cs) ∧
          ∃ t, ∀ more, ∃ ref, bracedReference (cs ++ '\n' :: (t ++ more)) = .ok ref ∧
            ref.length = cs.length + 1 + t.length + 1) ∨
        (¬ NamesDefault ('$' :: '\x7b' :: cs) ∧
          ∀ t, ∃ fault, bracedReference (cs ++ '\n' :: t) = .error fault)) := by
  obtain ⟨rfl, name, rest, rfl, names, ends⟩ := exists_of_openReference h incomplete
  have cut (t : List Char) (stop : ∀ c ∈ (rest ++ t).head?, isNameChar c = false) :
      (name ++ (rest ++ t)).takeWhile isNameChar = name := takeWhile_append_of_stop names stop
  have whole := cut [] (by rcases ends with rfl | rfl | ⟨_, rfl, -⟩ <;> rintro _ ⟨⟩ <;> decide)
  have longer (t : List Char) := cut ('\n' :: t)
    (by rcases ends with rfl | rfl | ⟨_, rfl, -⟩ <;> rintro _ ⟨⟩ <;> decide)
  rw [List.append_nil] at whole
  refine ⟨rfl, ?_⟩
  simp only [namesDefault_braced, whole, List.drop_left, List.append_assoc]
  rcases ends with rfl | rfl | ⟨default, rfl, plain⟩
  · refine .inr ⟨?_, fun t => ⟨.malformedReference, ?_⟩⟩
    · rintro ⟨-, _, ⟨⟩⟩
    · rw [bracedReference, longer, List.drop_left]
      rfl
  · refine .inr ⟨?_, fun t => ⟨.malformedReference, ?_⟩⟩
    · rintro ⟨-, _, ⟨⟩⟩
    · rw [bracedReference, longer, List.drop_left]
      rfl
  · by_cases starts : name.head?.any isNameStart
    · refine .inl ⟨⟨starts, default, rfl⟩, ['\x7d'], fun more => ?_⟩
      have plain : '\x7d' ∉ default ++ ['\n'] := by simp [plain]
      have read := (ReadsReference.defaulted more starts names plain).read
      rw [reference] at read
      refine ⟨_, by simpa using read, ?_⟩
      simp only [List.length_append, List.length_cons, List.length_nil]
      omega
    · refine .inr ⟨fun names => starts names.1, fun t => ?_⟩
      rw [bracedReference, longer, List.drop_left]
      simp only [List.cons_append, starts]
      split
      · exact ⟨_, rfl⟩
      · exact ⟨_, rfl⟩

/-- A reference that a text ends within can be completed after a line break exactly if it has come
to its default. -/
theorem reference_open {cs : List Char} {fault : LexFault} (h : reference cs = .error fault)
    (incomplete : fault.isIncomplete) : fault = .openReference ∧
      ((NamesDefault ('$' :: cs) ∧
          ∃ t, ∀ more, ∃ ref, reference (cs ++ '\n' :: (t ++ more)) = .ok ref ∧
            ref.length = cs.length + t.length + 1) ∨
        (¬ NamesDefault ('$' :: cs) ∧ ∀ t, ∃ fault, reference (cs ++ '\n' :: t) = .error fault)) := by
  unfold reference at h
  split at h
  · exact bracedReference_open h incomplete
  · split at h <;> cases h
    cases incomplete
  · cases h
    cases incomplete

/-! ## Strings -/

section

variable {α β : Type}

/-- What becomes of a reader that stopped at the end of its text, which starts at `start`, when the
text goes on in a new line. The reader gives what it reads with the number of its characters. -/
inductive Fate (r : List Char → Except LexError (α × Nat)) (cs : List Char) (start : Nat)
    (e : LexError) : Prop
  /-- It is still open after a line break and can be completed. -/
  | opens (construct : e.fault ≠ .openReference) (still : r (cs ++ ['\n']) = .error e)
    {t : List Char} {a : α} {n : Nat} (done : r (cs ++ '\n' :: t) = .ok (a, n))
    (longer : cs.length < n)
  /-- The line break is a fault. -/
  | broken (string : e.fault = .openString) {e' : LexError} (other : e' ≠ e)
    (fails : ∀ t, r (cs ++ '\n' :: t) = .error e')
  /-- It is within the default of a reference, and can be completed. -/
  | named (reference : e.fault = .openReference) {k : Nat} (place : e.position.offset = start + k)
    (names : NamesDefault (cs.drop k)) {t : List Char} {a : α} {n : Nat}
    (done : r (cs ++ '\n' :: t) = .ok (a, n)) (longer : cs.length < n)
  /-- It is before the default of a reference, and every text is a fault. -/
  | nameless (reference : e.fault = .openReference) {k : Nat}
    (place : e.position.offset = start + k) (names : ¬ NamesDefault (cs.drop k))
    (fails : ∀ t, ∃ e', r (cs ++ '\n' :: t) = .error e')

/-- A reader that reads some characters first has the fate of the one that reads the rest. -/
theorem Fate.after {r : List Char → Except LexError (α × Nat)}
    {r' : List Char → Except LexError (β × Nat)} {ds : List Char} {start start' : Nat}
    {e : LexError} (h : Fate r ds start' e) (taken : List Char)
    (later : start' = start + taken.length) (first : ∀ t, ∃ g : α × Nat → β,
      r' (taken ++ ds ++ '\n' :: t) =
        r (ds ++ '\n' :: t) >>= fun x => .ok (g x, x.2 + taken.length)) :
    Fate r' (taken ++ ds) start e := by
  have done {t : List Char} {a : α} {n : Nat} (done : r (ds ++ '\n' :: t) = .ok (a, n)) :
      ∃ b, r' (taken ++ ds ++ '\n' :: t) = .ok (b, n + taken.length) := by
    obtain ⟨g, hg⟩ := first t
    exact ⟨g (a, n), by rw [hg, done]; rfl⟩
  have fails {t : List Char} {e' : LexError} (fails : r (ds ++ '\n' :: t) = .error e') :
      r' (taken ++ ds ++ '\n' :: t) = .error e' := by
    obtain ⟨g, hg⟩ := first t
    rw [hg, fails]
    rfl
  have place {k : Nat} (place : e.position.offset = start' + k) :
      e.position.offset = start + (taken.length + k) := by omega
  have names {k : Nat} : NamesDefault ((taken ++ ds).drop (taken.length + k)) ↔
      NamesDefault (ds.drop k) := by
    rw [← List.drop_drop, List.drop_left]
  have longer {n : Nat} (longer : ds.length < n) : (taken ++ ds).length < n + taken.length := by
    rw [List.length_append]
    omega
  cases h with
  | opens construct still completes long =>
    obtain ⟨b, completes⟩ := done completes
    exact .opens construct (fails still) completes (longer long)
  | broken string other fail => exact .broken string other fun t => fails (fail t)
  | named reference at_ named completes long =>
    obtain ⟨b, completes⟩ := done completes
    exact .named reference (place at_) (names.mpr named) completes (longer long)
  | nameless reference at_ nameless fail =>
    exact .nameless reference (place at_) (fun named => nameless (names.mp named)) fun t =>
      (fail t).imp fun _ => fails

/-- A step that may fail before one that does not. -/
theorem error_of_bind {x : Except LexError α} {f : α → β} {e : LexError}
    (h : (x >>= fun a => Except.ok (f a)) = .error e) : x = .error e := by
  cases x with
  | ok a => cases h
  | error e' => cases h; rfl

/-- A reader has the fate of the reference that it reads after a sigil. What it reads then may have to
end with some text. -/
theorem Fate.of_reference {r : List Char → Except LexError (α × Nat)} {p : Position} {cs : List Char}
    {fault : LexFault} (h : reference cs = .error fault) (incomplete : fault.isIncomplete)
    (plain : ∀ ds, cs ≠ '(' :: ds) (ending : List Char)
    (done : ∀ taken name default, reference (taken ++ ending) = .ok ⟨name, default, taken.length⟩ →
      ∃ a n, r ('$' :: (taken ++ ending)) = .ok (a, n) ∧ taken.length < n)
    (fails : ∀ rest fault, (∀ ds, rest ≠ '(' :: ds) → reference rest = .error fault →
      r ('$' :: rest) = .error ⟨fault, p⟩) :
    Fate r ('$' :: cs) p.offset ⟨fault, p⟩ := by
  obtain ⟨rfl, ⟨names, t, completes⟩ | ⟨names, stays⟩⟩ := reference_open h incomplete
  · obtain ⟨⟨name, default, k⟩, refers, length⟩ := completes ending
    obtain rfl : k = (cs ++ '\n' :: t).length := by
      rw [List.length_append, List.length_cons]
      exact length
    have parted : cs ++ '\n' :: (t ++ ending) = cs ++ '\n' :: t ++ ending := by simp
    rw [parted] at refers
    obtain ⟨a, n, read, long⟩ := done _ _ _ refers
    rw [← parted] at read
    refine .named rfl (k := 0) rfl names (t := t ++ ending) read ?_
    simp only [List.length_cons, List.length_append] at long ⊢
    omega
  · refine .nameless rfl (k := 0) rfl names fun t => ?_
    obtain ⟨fault, stays⟩ := stays t
    refine ⟨_, fails _ fault (fun ds opening => ?_) stays⟩
    cases cs with
    | nil => cases opening
    | cons d cs =>
      cases opening
      exact plain _ rfl

/-- A substitution that a string ends within can be completed, and the string after it. -/
theorem substitution_open {opened p : Position} {text rest : List Char} {e : LexError}
    (h : closing [.substitution p 1] ((p.step '$').step '(') rest = .error e) :
    Fate (stringParts opened p text) ('$' :: '(' :: rest) p.offset e := by
  obtain ⟨construct, still, t, closes⟩ := closing_open h
  obtain ⟨inside, after, parted, length, closed⟩ := exists_of_closing (closes ['"'])
  have parted : rest ++ '\n' :: t ++ ['"'] = inside ++ [')'] ++ after := by simpa using parted
  obtain rfl : ['"'] = after := List.append_inj_right parted (by simp; omega)
  have rule : ReadsParts p text _ _ _ := .substitution closed (.quote [])
  rw [List.append_assoc, List.append_assoc, List.singleton_append] at parted
  rw [← parted] at rule
  refine .opens construct (stringParts_unclosed still) (t := t ++ ['"']) (rule.read opened) ?_
  simp only [List.length_cons]
  omega

theorem stringParts_open {opened p : Position} {text cs : List Char} {e : LexError}
    (h : stringParts opened p text cs = .error e) (incomplete : e.fault.isIncomplete) :
    Fate (stringParts opened p text) cs p.offset e := by
  have newLine (p : Position) (text t : List Char) : stringParts opened p text ('\n' :: t) =
      stringParts opened (p.step '\n') (text ++ ['\n']) t >>= fun x => .ok (x.1, x.2 + 1) :=
    stringParts_char (by decide) (by decide) (by decide)
  induction p, text, cs using stringParts_induction with
  | ends p text =>
    rw [stringParts_nil] at h
    cases h
    refine .opens (fun same => by cases same) ?_ (t := ['"'])
      (a := prependText (text ++ ['\n']) []) (n := 2) ?_ (Nat.succ_pos 1)
    · rw [List.nil_append, newLine, stringParts_nil]
      rfl
    · rw [List.nil_append, newLine, stringParts_quote]
      rfl
  | backslash p text =>
    rw [stringParts_backslash] at h
    cases h
    have other : (⟨.unknownEscape '\n', p⟩ : LexError) ≠ ⟨.openString, opened⟩ :=
      fun same => by cases same
    exact .broken rfl other fun t => stringParts_unknown rfl
  | quote p text rest => rw [stringParts_quote] at h; cases h
  | unknown p text c rest means =>
    rw [stringParts_unknown means] at h
    cases h
    cases incomplete
  | escaped p text c d rest means ih =>
    rw [stringParts_escaped means] at h
    exact (ih (error_of_bind h)).after ['\\', c] (by simp [Position.offset_step]) fun t =>
      ⟨_, stringParts_escaped means⟩
  | unclosed p text rest e' closes =>
    rw [stringParts_unclosed closes] at h
    cases h
    exact substitution_open closes
  | substitution p text inside rest closed ih =>
    rw [stringParts_substitution _ _ _ _ closed] at h
    have length : ('$' :: '(' :: (inside ++ [')'])).length = inside.length + 3 := by simp
    have parted (more : List Char) : '$' :: '(' :: (inside ++ ')' :: more) =
        '$' :: '(' :: (inside ++ [')']) ++ more := by simp
    rw [parted]
    refine (ih (error_of_bind h)).after _ ?_ fun t => ?_
    · simp only [Position.offset_step, Position.offset_after, length]
      omega
    · rw [List.append_assoc, ← parted, length]
      exact ⟨_, stringParts_substitution opened p text (rest ++ '\n' :: t) closed⟩
  | fault p text rest fault plain refers =>
    rw [stringParts_fault plain refers] at h
    cases h
    refine .of_reference refers incomplete plain ['"'] (fun taken name default refers => ?_)
      fun rest fault => stringParts_fault
    exact ⟨_, _, (ReadsParts.variable refers (.quote [])).read opened, by omega⟩
  | named p text taken rest name default refers ih =>
    rw [stringParts_reference _ _ _ refers] at h
    refine (ih (error_of_bind h)).after ('$' :: taken) ?_ fun t => ?_
    · simp only [Position.offset_step, Position.offset_after, List.length_cons]
      omega
    · have refers := (reference_more (m := .newLine t) refers).1
      rw [List.append_assoc] at refers
      rw [List.append_assoc]
      exact ⟨_, stringParts_reference opened p text refers⟩
  | char p text c rest quote backslash sigil ih =>
    rw [stringParts_char quote backslash sigil] at h
    exact (ih (error_of_bind h)).after [c] (Position.offset_step ..) fun t =>
      ⟨_, stringParts_char quote backslash sigil⟩

theorem rawParts_open {opened : Position} {cs : List Char} {start : Nat} {e : LexError}
    (h : rawParts opened cs = .error e) : Fate (rawParts opened) cs start e := by
  obtain ⟨plain, rfl⟩ := rawParts_eq_error_iff.mp h
  have still : '\'' ∉ cs ++ ['\n'] := by simp [plain]
  have parted : cs ++ ['\n', '\''] = cs ++ ['\n'] ++ ['\''] := by simp
  refine .opens (fun same => by cases same) (rawParts_eq_error_iff.mpr ⟨still, rfl⟩) (t := ['\''])
    (rawParts_eq_ok_iff.mpr ⟨_, _, parted, still, rfl, rfl⟩) ?_
  rw [List.length_append]
  omega

/-! ## Tokens -/

/-- Reads the token of a text that starts with `c`, with the number of all its characters. -/
def tokenFrom (p : Position) (c : Char) (cs : List Char) : Except LexError (Token.Content × Nat) :=
  content p c (cs.drop 1) [] >>= fun x => .ok (x.1, x.2 + 1)

theorem tokenFrom_string (p : Position) (cs : List Char) : tokenFrom p '"' ('"' :: cs) =
    stringParts p (p.step '"') [] cs >>= fun x => .ok (.string x.1, x.2 + 1) := by
  have content : content p '"' cs [] =
      stringParts p (p.step '"') [] (cs ++ []) >>= fun x => .ok (.string x.1, x.2) := rfl
  rw [tokenFrom, List.drop_one, List.tail_cons, content, List.append_nil]
  cases stringParts p (p.step '"') [] cs <;> rfl

theorem tokenFrom_raw (p : Position) (cs : List Char) : tokenFrom p '\'' ('\'' :: cs) =
    rawParts p cs >>= fun x => .ok (.string x.1, x.2 + 1) := by
  have content : content p '\'' cs [] =
      rawParts p (cs ++ []) >>= fun x => .ok (.string x.1, x.2) := rfl
  rw [tokenFrom, List.drop_one, List.tail_cons, content, List.append_nil]
  cases rawParts p cs <;> rfl

theorem tokenFrom_fault {p : Position} {cs : List Char} {fault : LexFault}
    (plain : ∀ ds, cs ≠ '(' :: ds) (h : reference cs = .error fault) :
    tokenFrom p '$' ('$' :: cs) = .error ⟨fault, p⟩ := by
  rw [tokenFrom, List.drop_one, List.tail_cons, content, if_pos rfl]
  · dsimp only
    rw [List.append_nil, h]
    rfl
  · exact plain

theorem ReadsToken.from {p : Position} {c : Char} {cs : List Char} {said : Token.Content} {n : Nat}
    (h : ReadsToken p c cs [] said n) : tokenFrom p c (c :: cs) = .ok (said, n + 1) := by
  rw [tokenFrom, List.drop_one, List.tail_cons, h.read]
  rfl

theorem tokenFrom_reference {cs name : List Char} {default : Option (List Char)} {n : Nat}
    (h : reference (cs ++ []) = .ok ⟨name, default, n⟩) (p : Position) :
    ∃ said, tokenFrom p '$' ('$' :: cs) = .ok (said, n + 1) := by
  cases default with
  | none => exact ⟨_, (ReadsToken.variable h).from⟩
  | some default => exact ⟨_, (ReadsToken.defaulted h).from⟩

/-- A number is never incomplete. -/
theorem NumberText.not_isIncomplete {t : NumberText} {fault : LexFault} (h : t.content = .error fault) :
    fault.isIncomplete = false := by
  unfold NumberText.content at h
  split at h
  · split at h <;> cases h
    rfl
  · cases h

theorem tokenFrom_open {p : Position} {c : Char} {cs : List Char} {e : LexError}
    (h : content p c cs [] = .error e) (incomplete : e.fault.isIncomplete) :
    Fate (tokenFrom p c) (c :: cs) p.offset e := by
  unfold content at h
  dsimp only at h
  split at h
  · next sigil =>
    subst sigil
    split at h
    · cases h
    · next opening =>
      rw [List.append_nil] at h
      cases href : reference cs with
      | ok ref =>
        rw [href] at h
        cases hd : ref.default <;> simp [Except.mapError, hd] at h <;> cases h
      | error fault =>
        rw [href] at h
        cases h
        refine .of_reference href incomplete opening [] (fun taken name default refers => ?_)
          fun rest fault => tokenFrom_fault
        obtain ⟨said, read⟩ := tokenFrom_reference refers p
        exact ⟨said, _, by rw [List.append_nil, read], Nat.lt_succ_self _⟩
  split at h
  · next quote =>
    subst quote
    rw [List.append_nil] at h
    exact (stringParts_open (error_of_bind h) incomplete).after ['"'] (Position.offset_step ..)
      fun t => ⟨_, tokenFrom_string p _⟩
  split at h
  · next quote =>
    subst quote
    rw [List.append_nil] at h
    exact (rawParts_open (error_of_bind h)).after ['\''] rfl fun t => ⟨_, tokenFrom_raw p _⟩
  split at h
  · cases hn : (numberText (c :: cs)).content with
    | ok said => rw [hn] at h; cases h
    | error fault =>
      rw [hn] at h
      cases h
      rw [NumberText.not_isIncomplete hn] at incomplete
      cases incomplete
  split at h
  · cases h
  · split at h
    · cases h
    · split at h <;> cases h
      cases incomplete

end

end Lexer

/-! ## The tokens of a text -/

namespace View

/-- What is left of a view that is no part of a longer text is the view from a later character
on. -/
theorem Reads.eq_advance {v u : View} {ts : List Token} (h : Reads v ts u) (whole : v.beyond = []) :
    ∃ n ≤ v.inside.length, u = v.advance n := by
  induction h with
  | refl v => exact ⟨0, Nat.zero_le _, by simp [advance]⟩
  | @token v w u c cs said n ts hw hi hc _ ih =>
    have gap := Lexer.gapLength_le false v.inside
    have whole' : w.beyond = [] := by rw [← hw, beyond_advance gap, whole]
    have token : n + 1 ≤ w.inside.length := by
      have := Lexer.content_length hc
      rw [whole', List.length_nil] at this
      rw [hi, List.length_cons]
      omega
    have left : w.inside.length = v.inside.length - Lexer.gapLength false v.inside := by
      rw [← hw, inside_advance, List.length_drop]
    obtain ⟨m, hm, rfl⟩ := ih (by rw [beyond_advance token, whole'])
    rw [inside_advance, List.length_drop] at hm
    refine ⟨Lexer.gapLength false v.inside + (n + 1) + m, by omega, ?_⟩
    rw [advance_advance w token, ← hw, advance_advance v gap, Nat.add_assoc,
      Nat.add_assoc, Nat.add_assoc]

/-- The fault of a view that has no tokens before it. -/
theorem content_of_tokens {v : View} {e : LexError} (h : v.tokens = ⟨[], some e⟩) :
    ∃ w c cs, v.advance (Lexer.gapLength false v.inside) = w ∧ w.inside = c :: cs ∧
      Lexer.content w.position c cs w.beyond = .error e := by
  rw [tokens] at h
  dsimp only at h
  split at h
  · cases h
  · next c cs hi =>
    split at h
    · next hc =>
      cases h
      exact ⟨_, c, cs, rfl, hi, hc⟩
    · cases h

/-- The first token of a view, when the text that the view ends with goes on in a new line. -/
theorem tokens_newLine {t : List Char} {v v' w : View} {c : Char} {cs : List Char}
    (h : Continues (.newLine t) true v v') (hw : v.advance (Lexer.gapLength false v.inside) = w)
    (hi : w.inside = c :: cs) :
    match Lexer.tokenFrom w.position c (c :: cs ++ '\n' :: t) with
    | .ok (_, n) => ∃ u us err, v'.tokens = ⟨u :: us, err⟩ ∧
        u.span.start.offset = w.position.offset ∧ u.span.stop.offset = w.position.offset + n
    | .error e => v'.tokens = ⟨[], some e⟩ := by
  have gap := Lexer.gapLength_le false v.inside
  have hg := gap_continues h (by rw [hw, hi]; exact List.cons_ne_nil c cs)
  have gapped := h.advance (n := Lexer.gapLength false v.inside) (by rw [length]; omega)
  rw [hw, ← hg] at gapped
  generalize hw' : v'.advance (Lexer.gapLength false v'.inside) = w' at gapped
  have inside : w'.inside = c :: (cs ++ '\n' :: t) ∧ w'.beyond = [] ∧
      w'.position = w.position := by
    cases gapped with
    | through p ds =>
      obtain rfl : ds = c :: cs := hi
      exact ⟨rfl, rfl, rfl⟩
  obtain ⟨inside, beyond, position⟩ := inside
  rw [Lexer.tokenFrom, List.cons_append, List.drop_one, List.tail_cons]
  cases hc : Lexer.content w.position c (cs ++ '\n' :: t) [] with
  | error e => exact tokens_error hw' inside (by rw [position, beyond, hc])
  | ok r =>
    obtain ⟨said, n⟩ := r
    have token : n + 1 ≤ w'.inside.length := by
      have := Lexer.content_length hc
      rw [List.length_nil] at this
      rw [inside, List.length_cons]
      omega
    refine ⟨_, _, _, tokens_cons hw' inside (by rw [position, beyond, hc]), ?_, ?_⟩
    · exact congrArg Position.offset position
    · exact (offset_advance token).trans (by rw [position])

end View

/-- What a text that a fault is found in is read as when it goes on in a new line: the reader of the
token that the fault was found in goes on. -/
theorem tokenize_newLine {s : List Char} {e : LexError} (h : (tokenize s).error = some e) :
    ∃ p c cs, s.drop p.offset = c :: cs ∧ Lexer.content p c cs [] = .error e ∧
      ∀ t, match Lexer.tokenFrom p c (c :: cs ++ '\n' :: t) with
        | .ok (_, n) => ∃ u, (tokenize (s ++ '\n' :: t)).tokens[(tokenize s).tokens.length]? = some u ∧
            u.span.start.offset = p.offset ∧ u.span.stop.offset = p.offset + n
        | .error e' => (tokenize (s ++ '\n' :: t)).error = some e' ∧
            (tokenize (s ++ '\n' :: t)).tokens.length = (tokenize s).tokens.length := by
  obtain ⟨ts, v, reads, ⟨e', he, hv⟩ | ⟨p, hp, -⟩⟩ := (View.whole s).tokens_reads
  · change tokenize s = _ at he
    rw [he] at h
    cases h
    obtain ⟨n, hn, rfl⟩ := reads.eq_advance rfl
    obtain ⟨w, c, cs, hw, hi, hc⟩ := View.content_of_tokens hv
    have gap := Lexer.gapLength_le false ((View.whole s).advance n).inside
    rw [View.inside_advance, List.length_drop] at gap
    have inside : n + Lexer.gapLength false ((View.whole s).advance n).inside ≤
        (View.whole s).inside.length := by
      rw [View.inside_advance]
      omega
    have at_ : w = (View.whole s).advance
        (n + Lexer.gapLength false ((View.whole s).advance n).inside) := by
      rw [← View.advance_advance _ hn, hw]
    have place : w.position.offset =
        n + Lexer.gapLength false ((View.whole s).advance n).inside := by
      rw [at_, View.offset_advance inside]
      exact Nat.zero_add _
    have beyond : w.beyond = [] := by
      rw [at_, View.beyond_advance inside]
      rfl
    refine ⟨w.position, c, cs, by rw [place, ← hi, at_]; rfl, beyond ▸ hc, fun t => ?_⟩
    obtain ⟨v', continues, tokens, -, -⟩ :=
      reads.continues (m := .newLine t) (.through Position.start s)
    change tokenize (s ++ '\n' :: t) = _ at tokens
    have first := View.tokens_newLine continues hw hi
    rw [tokens, he]
    cases read : Lexer.tokenFrom w.position c (c :: cs ++ '\n' :: t) with
    | error e' =>
      rw [read] at first
      dsimp only at first ⊢
      rw [first]
      exact ⟨rfl, by simp [Lexed.prepend]⟩
    | ok r =>
      rw [read] at first
      obtain ⟨u, us, err, first, start, stop⟩ := first
      refine ⟨u, ?_, start, stop⟩
      rw [first]
      simp [Lexed.prepend]
  · change tokenize s = _ at hp
    rw [hp] at h
    cases h

/-- The token that a text ends within can be completed in a new line: then there is such a token
behind those before it. -/
def CanComplete (s : List Char) : Prop :=
  ∃ t u, (tokenize (s ++ '\n' :: t)).tokens[(tokenize s).tokens.length]? = some u ∧
    u.span.start.offset < s.length ∧ s.length < u.span.stop.offset

/-- A text that ends within a token can be completed in a new line if it ends within a substitution,
or within a string that the line break leaves open, or within the default of a reference. In all
other cases nothing completes it. -/
theorem tokenize_completable {s : List Char} {e : LexError} (h : (tokenize s).error = some e)
    (incomplete : e.fault.isIncomplete) : CanComplete s ↔
      match e.fault with
      | .openReference => Lexer.NamesDefault (s.drop e.position.offset)
      | .openString => (tokenize (s ++ ['\n'])).error = some e
      | _ => True := by
  obtain ⟨p, c, cs, rest, stops, goesOn⟩ := tokenize_newLine h
  have length : s.length = p.offset + cs.length + 1 := by
    have := congrArg List.length rest
    rw [List.length_drop, List.length_cons] at this
    omega
  have completes {t : List Char} {a : Token.Content} {n : Nat}
      (done : Lexer.tokenFrom p c (c :: cs ++ '\n' :: t) = .ok (a, n))
      (longer : (c :: cs).length < n) : CanComplete s := by
    have next := goesOn t
    rw [done] at next
    obtain ⟨u, hu, start, stop⟩ := next
    rw [List.length_cons] at longer
    exact ⟨t, u, hu, by omega, by omega⟩
  have fails (h : ∀ t, ∃ e', Lexer.tokenFrom p c (c :: cs ++ '\n' :: t) = .error e') :
      ¬ CanComplete s := by
    rintro ⟨t, u, hu, -, -⟩
    have next := goesOn t
    obtain ⟨e', he'⟩ := h t
    rw [he'] at next
    rw [List.getElem?_eq_none next.2.le] at hu
    cases hu
  have place {k : Nat} (at_ : e.position.offset = p.offset + k) :
      s.drop e.position.offset = (c :: cs).drop k := by
    rw [at_, ← List.drop_drop, rest]
  cases Lexer.tokenFrom_open stops incomplete with
  | opens construct still done longer =>
    refine iff_of_true (completes done longer) ?_
    have next := goesOn []
    rw [still] at next
    cases hf : e.fault with
    | openString => exact next.1
    | openReference => exact absurd hf construct
    | _ => trivial
  | broken string other fail =>
    refine iff_of_false (fails fun t => ⟨_, fail t⟩) ?_
    rw [string]
    have next := goesOn []
    rw [fail] at next
    rw [next.1]
    exact fun same => other (Option.some.inj same)
  | named reference at_ names done longer =>
    rw [reference]
    exact iff_of_true (completes done longer) (by rwa [place at_])
  | nameless reference at_ names fail =>
    rw [reference]
    exact iff_of_false (fails fail) (by rwa [place at_])

/-- A string can be completed, a default can, and the braces around what is no name cannot. -/
theorem tokenize_completable_samples : CanComplete "say \"a".toList ∧
    CanComplete "say $\x7bx:-a".toList ∧ ¬ CanComplete "say $\x7b1".toList := by
  refine ⟨?_, ?_, ?_⟩
  · exact (tokenize_completable (e := ⟨.openString, ⟨4, 1, 5⟩⟩) (by decide +kernel) rfl).mpr
      (by decide +kernel)
  · exact (tokenize_completable (e := ⟨.openReference, ⟨4, 1, 5⟩⟩) (by decide +kernel) rfl).mpr
      ⟨['x'], ['a'], by decide, by decide, rfl⟩
  · refine (tokenize_completable (e := ⟨.openReference, ⟨4, 1, 5⟩⟩) (by decide +kernel) rfl).not.mpr
      fun names => ?_
    exact absurd (Lexer.namesDefault_braced.mp names).1 (by decide)

end Sigil
