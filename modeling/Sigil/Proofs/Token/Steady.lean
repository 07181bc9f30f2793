import Sigil.Proofs.Token.Mark

/-!
# Texts that the raw scan passes over

What the raw scan makes of a text, without places (`Lexer.scan`). A text is
steady (`Lexer.Steady`) if the scan is enclosed after it as it was before; this
is so wherever it is so right in a substitution (`Lexer.scan_under`), and is
kept by putting texts one after the other, in parentheses, in quotes and in
substitutions. A steady text is closed (`Lexer.isClosed_of_steady`).
-/

namespace Sigil.Lexer

/-- What encloses the character after a text, given what enclosed the text and what follows it. -/
def scan (following : Option Char) : List Enclosure → List Char → List Enclosure
  | es, [] => es
  | es, c :: cs => scan following (Enclosure.next .start c (cs.head?.or following) es) cs

theorem scan_append (following : Option Char) (es : List Enclosure) (cs ds : List Char) :
    scan following es (cs ++ ds) = scan following (scan (ds.head?.or following) es cs) ds := by
  induction cs generalizing es with
  | nil => rfl
  | cons c cs ih =>
    have head : (cs ++ ds).head?.or following = cs.head?.or (ds.head?.or following) := by
      rw [List.head?_append, Option.or_assoc]
    rw [List.cons_append, scan, scan, head, ih]

/-- What is not enclosed any more never is again. -/
theorem scan_nil (following : Option Char) (cs : List Char) : scan following [] cs = [] := by
  induction cs with
  | nil => rfl
  | cons c cs ih => exact ih

namespace Enclosure

/-- An enclosure with more parentheses around it. -/
def deepen (k : Nat) : Enclosure → Enclosure
  | substitution opened depth => substitution opened (depth + k)
  | raw opened depth => raw opened (depth + k)
  | e => e

/-- Enclosures with more parentheses around the outermost one, and others around that. -/
def under (k : Nat) (outer : List Enclosure) : List Enclosure → List Enclosure
  | [] => []
  | [e] => e.deepen k :: outer
  | e :: f :: es => e :: under k outer (f :: es)

/-- A character that does not end the outermost enclosure means the same within others. -/
theorem next_under {k : Nat} {outer es : List Enclosure} {p : Position} {c : Char}
    {following : Option Char} (h : next p c following es ≠ []) :
    next p c following (under k outer es) = under k outer (next p c following es) := by
  match es with
  | [] => exact absurd rfl h
  | e :: f :: es =>
    cases e <;> simp only [next, under] <;> split_ifs <;> rfl
  | [e] =>
    cases e with
    | substitution opened depth =>
      simp only [next, under, deepen] at h ⊢
      split_ifs at h ⊢ <;> simp_all [under, deepen] <;> omega
    | raw opened depth =>
      simp only [next, under, deepen] at h ⊢
      split_ifs <;> rfl
    | string opened =>
      simp only [next, under, deepen] at h ⊢
      split_ifs at h ⊢ <;> simp_all [under, deepen]
    | escape opened => rfl

end Enclosure

/-- A text that does not end the outermost enclosure means the same within others. -/
theorem scan_under {k : Nat} {outer es : List Enclosure} {cs : List Char}
    {following : Option Char} (h : scan following es cs ≠ []) :
    scan following (Enclosure.under k outer es) cs =
      Enclosure.under k outer (scan following es cs) := by
  induction cs generalizing es with
  | nil => rfl
  | cons c cs ih =>
    rw [scan] at h
    have next : Enclosure.next .start c (cs.head?.or following) es ≠ [] := by
      intro none
      rw [none] at h
      exact h (scan_nil following cs)
    rw [scan, Enclosure.next_under next, ih h, scan]

/-! ## Steady texts -/

/-- What encloses a character right in a substitution. -/
def inCode : List Enclosure :=
  [.substitution .start 1]

/-- What encloses a character in a string right in a substitution. -/
def inString : List Enclosure :=
  .string .start :: inCode

/-- Whether a character means nothing to the raw scan in code. -/
def isPlainInCode (c : Char) : Bool :=
  c ∉ ['(', ')', '"', '\'']

/-- Whether a character means nothing to the raw scan in a string. -/
def isPlainInString (c : Char) : Bool :=
  c ∉ ['"', '\\', '$']

/-- The raw scan is enclosed after the text as it was before. -/
def Steady (es : List Enclosure) (cs : List Char) : Prop :=
  ∀ following, scan following es cs = es

namespace Steady

variable {es : List Enclosure} {cs ds : List Char}

theorem nil (es : List Enclosure) : Steady es [] := fun _ => rfl

theorem append (h : Steady es cs) (k : Steady es ds) : Steady es (cs ++ ds) := by
  intro following
  rw [scan_append, h, k]

theorem cons {c : Char} (h : ∀ following, Enclosure.next .start c following es = es)
    (k : Steady es cs) : Steady es (c :: cs) := by
  intro following
  rw [scan, h, k]

theorem flatMap {α : Type} {f : α → List Char} {as : List α} (h : ∀ a ∈ as, Steady es (f a)) :
    Steady es (as.flatMap f) := by
  induction as with
  | nil => exact nil es
  | cons a as ih =>
    obtain ⟨ha, has⟩ := List.forall_mem_cons.mp h
    exact ha.append (ih has)

/-- Within more parentheses and other enclosures. -/
theorem under (h : Steady es cs) (hes : es ≠ []) (k : Nat) (outer : List Enclosure) :
    Steady (Enclosure.under k outer es) cs := by
  intro following
  have kept := h following
  rw [scan_under (by rw [kept]; exact hes), kept]

/-- Characters that mean nothing to the scan in code. -/
theorem of_code (h : cs.all isPlainInCode) : Steady inCode cs := by
  induction cs with
  | nil => exact nil _
  | cons c cs ih =>
    simp only [List.all_cons, Bool.and_eq_true] at h
    refine cons (fun following => ?_) (ih h.2)
    have plain := h.1
    simp only [isPlainInCode, decide_eq_true_eq, List.mem_cons, List.not_mem_nil, or_false,
      not_or] at plain
    simp only [inCode, Enclosure.next, plain.1, plain.2.1, plain.2.2.1, plain.2.2.2, if_false]

/-- Characters that mean nothing to the scan in a string. -/
theorem of_string (h : cs.all isPlainInString) : Steady inString cs := by
  induction cs with
  | nil => exact nil _
  | cons c cs ih =>
    simp only [List.all_cons, Bool.and_eq_true] at h
    refine cons (fun following => ?_) (ih h.2)
    have plain := h.1
    simp only [isPlainInString, decide_eq_true_eq, List.mem_cons, List.not_mem_nil, or_false,
      not_or] at plain
    simp only [inString, Enclosure.next, plain.1, plain.2.1, plain.2.2, false_and, if_false]

theorem parens (h : Steady inCode cs) : Steady inCode ('(' :: (cs ++ [')'])) := by
  intro following
  have inside : Steady [.substitution .start 2] cs := h.under (by decide) 1 []
  change scan following [.substitution .start 2] (cs ++ [')']) = inCode
  rw [scan_append, inside]
  rfl

theorem quotes (h : Steady inString cs) : Steady inCode ('"' :: (cs ++ ['"'])) := by
  intro following
  change scan following inString (cs ++ ['"']) = inCode
  rw [scan_append, h]
  rfl

theorem substitution (h : Steady inCode cs) :
    Steady inString ('$' :: '(' :: (cs ++ [')'])) := by
  intro following
  have inside : Steady (.substitution .start 1 :: inString) cs := h.under (by decide) 0 inString
  change scan following (.substitution .start 1 :: inString) (cs ++ [')']) = inString
  rw [scan_append, inside]
  rfl

end Steady

theorem Enclosure.next_unplaced (p : Position) (c : Char) (following : Option Char)
    (es : List Enclosure) :
    (next p c following es).map unplaced = next .start c following (es.map unplaced) := by
  cases es with
  | nil => rfl
  | cons e es =>
    cases e <;> simp only [next, List.map_cons, unplaced] <;> split_ifs <;> rfl

/-- The scan in a substitution ends right after a text that leaves it there. -/
theorem closing_of_scan {p : Position} {es : List Enclosure} {cs : List Char}
    (h : scan (some ')') (es.map Enclosure.unplaced) cs = inCode) :
    closing es p (cs ++ [')']) = .ok cs.length := by
  induction cs generalizing p es with
  | nil =>
    have ended : Enclosure.next p ')' none es = [] := by
      have same := Enclosure.next_unplaced p ')' none es
      rw [show es.map Enclosure.unplaced = inCode from h] at same
      exact List.map_eq_nil_iff.mp same
    rw [List.nil_append, closing, List.head?_nil, ended]
    rfl
  | cons c cs ih =>
    have following : (cs ++ [')']).head? = cs.head?.or (some ')') := by
      rw [List.head?_append, List.head?_singleton]
    rw [scan, ← Enclosure.next_unplaced p] at h
    rw [List.cons_append, closing, following]
    split
    · next ended =>
      rw [ended] at h
      cases (scan_nil _ cs).symm.trans h
    · rw [ih h]
      rfl

/-- A text that the scan leaves as it comes to it is closed. -/
theorem isClosed_of_scan {cs : List Char} (h : scan (some ')') inCode cs = inCode) :
    isClosed cs := by
  have closed : closing [.substitution .start 1] .start (cs ++ [')']) = .ok cs.length :=
    closing_of_scan h
  rw [isClosed, closed]
  exact decide_eq_true rfl

/-- A steady text is closed. -/
theorem isClosed_of_steady {cs : List Char} (h : Steady inCode cs) : isClosed cs :=
  isClosed_of_scan (h _)

/-! ## Characters of words -/

theorem isPlain_of_isWordChar {c : Char} (h : isWordChar c) :
    isPlainInCode c ∧ isPlainInString c := by
  have ne {d : Char} (hd : isWordChar d = false) : c ≠ d := by
    rintro rfl
    exact absurd (hd.symm.trans h) nofun
  simp [isPlainInCode, isPlainInString, ne (d := '(') rfl, ne (d := ')') rfl, ne (d := '"') rfl,
    ne (d := '\'') rfl, ne (d := '\\') rfl, ne (d := '$') rfl]

theorem steady_wordChars {cs : List Char} (h : ∀ c ∈ cs, isWordChar c) :
    Steady inCode cs ∧ Steady inString cs :=
  ⟨.of_code (List.all_eq_true.mpr fun c hc => (isPlain_of_isWordChar (h c hc)).1),
    .of_string (List.all_eq_true.mpr fun c hc => (isPlain_of_isWordChar (h c hc)).2)⟩

theorem isWordChar_of_isName {name : String} (h : Parser.isName name) :
    ∀ c ∈ name.toList, isWordChar c := by
  simp only [Parser.isName, Bool.and_eq_true] at h
  exact fun c hc => isWordChar_of_isNameChar (List.all_eq_true.mp h.2 c hc)

theorem isWordChar_of_isWord {s : String} (h : isWord s) : ∀ c ∈ s.toList, isWordChar c := by
  simp only [isWord, Bool.and_eq_true] at h
  obtain ⟨starts, rest⟩ := h
  cases hs : s.toList with
  | nil => exact List.forall_mem_nil _
  | cons c cs =>
    rw [hs] at starts rest
    refine List.forall_mem_cons.mpr ⟨?_, List.all_eq_true.mp rest⟩
    unfold startsWord at starts
    split at starts
    · next heq => cases heq; decide
    · next heq => cases heq; decide
    · next heq =>
      cases heq
      simp only [Bool.or_eq_true, decide_eq_true_eq, List.mem_cons, List.not_mem_nil,
        or_false] at starts
      rcases starts with h | rfl | rfl | rfl
      · simp [isWordChar, Char.isAlphanum, h]
      all_goals decide
    · cases starts

theorem isWordChar_of_isNumber {cs : List Char} {said : Token.Content} (h : IsNumber cs said) :
    ∀ c ∈ cs, isWordChar c := by
  obtain ⟨t, formed, rfl, -⟩ := h
  intro c hc
  simp only [NumberText.source, NumberText.pointSource, NumberText.exponentSource,
    List.mem_append] at hc
  rcases hc with hc | hc | hc
  · exact isWordChar_of_isDigit (formed.whole c hc)
  · split at hc
    · cases hc
    · rcases List.mem_cons.mp hc with rfl | hc
      · decide
      · exact isWordChar_of_isDigit (formed.fraction c hc)
  · split at hc
    · cases hc
    · next sign ds he =>
      obtain ⟨hsign, -, digits⟩ := formed.exponent _ he
      rcases List.mem_cons.mp hc with rfl | hc
      · decide
      rcases List.mem_append.mp hc with hc | hc
      · simp only [List.mem_cons, List.not_mem_nil, or_false] at hsign
        rcases hsign with rfl | rfl | rfl
        · cases hc
        · cases List.mem_singleton.mp hc
          decide
        · cases List.mem_singleton.mp hc
          decide
      · exact isWordChar_of_isDigit (digits c hc)

end Sigil.Lexer
