import Sigil.Service

/-!
# How a connection is cut into chunks does not matter

What became of a connection is what became of its lines, one after the other
(`serve_eq`), and bytes are cut into lines in the same way wherever they are
cut into chunks before (`cutLines_append`). So two ways of cutting the same
bytes make no difference (`serve_chunks`), and every line that is complete and
not blank is handled once, in order, up to the first that breaks the
connection off (`Answers`).
-/

namespace Sigil.Service

/-! ## Lines -/

/-- A line is over at the byte that ends lines. -/
theorem cutLines_end (bs : List UInt8) :
    cutLines (0x0A :: bs) = ([] :: (cutLines bs).1, (cutLines bs).2) := by
  simp only [cutLines, if_pos]

/-- A byte before the end of a line belongs to the first line, or to what is left. -/
theorem cutLines_cons {b : UInt8} (hb : b ≠ 0x0A) (bs : List UInt8) :
    cutLines (b :: bs) = match (cutLines bs).1 with
      | [] => ([], b :: (cutLines bs).2)
      | line :: lines => ((b :: line) :: lines, (cutLines bs).2) := by
  rw [cutLines]
  exact if_neg hb

/-- The lines and what comes after them make up the bytes. -/
theorem cutLines_joined (bs : List UInt8) :
    (cutLines bs).1.flatMap (· ++ [0x0A]) ++ (cutLines bs).2 = bs := by
  induction bs with
  | nil => rfl
  | cons b bs ih =>
    by_cases hb : b = 0x0A
    · subst hb
      rw [cutLines_end, List.flatMap_cons]
      exact congrArg (0x0A :: ·) ih
    · rw [cutLines_cons hb]
      cases h : (cutLines bs).1 with
      | nil =>
        rw [h] at ih
        exact congrArg (b :: ·) ih
      | cons line lines =>
        rw [h] at ih
        exact congrArg (b :: ·) ih

/-- No end of a line is within a line, or after the last one. -/
theorem not_mem_cutLines (bs : List UInt8) :
    (∀ line ∈ (cutLines bs).1, 0x0A ∉ line) ∧ 0x0A ∉ (cutLines bs).2 := by
  induction bs with
  | nil => exact ⟨fun _ h => absurd h List.not_mem_nil, List.not_mem_nil⟩
  | cons b bs ih =>
    by_cases hb : b = 0x0A
    · subst hb
      rw [cutLines_end]
      exact ⟨List.forall_mem_cons.mpr ⟨List.not_mem_nil, ih.1⟩, ih.2⟩
    · have other : (0x0A : UInt8) ≠ b := fun h => hb h.symm
      rw [cutLines_cons hb]
      cases h : (cutLines bs).1 with
      | nil =>
        refine ⟨fun _ h => absurd h List.not_mem_nil, ?_⟩
        exact List.not_mem_cons_of_ne_of_not_mem other ih.2
      | cons line lines =>
        rw [h, List.forall_mem_cons] at ih
        refine ⟨List.forall_mem_cons.mpr ⟨?_, ih.1.2⟩, ih.2⟩
        exact List.not_mem_cons_of_ne_of_not_mem other ih.1.1

/-- Bytes without an end of a line are no line. -/
theorem cutLines_of_not_mem {bs : List UInt8} (h : 0x0A ∉ bs) : cutLines bs = ([], bs) := by
  induction bs with
  | nil => rfl
  | cons b bs ih =>
    rw [List.mem_cons, not_or] at h
    rw [cutLines_cons (fun e => h.1 e.symm), ih h.2]

/-- Where bytes are cut in two, the second part goes on with what the first one has left. -/
theorem cutLines_append (as bs : List UInt8) :
    cutLines (as ++ bs) = ((cutLines as).1 ++ (cutLines ((cutLines as).2 ++ bs)).1,
      (cutLines ((cutLines as).2 ++ bs)).2) := by
  induction as with
  | nil => rfl
  | cons a as ih =>
    rw [List.cons_append]
    by_cases ha : a = 0x0A
    · subst ha
      rw [cutLines_end, cutLines_end, ih]
      rfl
    · rw [cutLines_cons ha, cutLines_cons ha, ih]
      cases h : (cutLines as).1 with
      | nil =>
        rw [List.nil_append, List.cons_append, cutLines_cons ha]
        rfl
      | cons line lines => rfl

/-! ## Connections -/

namespace Served

theorem andThen_assoc (r : Served) (f g : Session → Served) :
    (r.andThen f).andThen g = r.andThen fun s => (f s).andThen g := by
  unfold andThen
  cases hr : r.broken with
  | some b => simp only [hr]
  | none =>
    cases hf : (f r.session).broken with
    | some b => simp only [hf]
    | none => simp only [hf, List.append_assoc]

end Served

variable (host : Option Host)

/-- More lines are handled after the first ones. -/
theorem handleLines_append (s : Session) (ls ms : List (List UInt8)) :
    handleLines host s (ls ++ ms) = (handleLines host s ls).andThen (handleLines host · ms) := by
  induction ls generalizing s with
  | nil => rfl
  | cons line ls ih =>
    rw [List.cons_append, handleLines, handleLines]
    split
    · exact ih s
    · split
      · rfl
      · next reply t _ =>
        rw [Served.andThen_assoc]
        exact congrArg _ (funext ih)

/-- The connection from where the bytes of a line that is not complete are kept. -/
theorem serve_eq (s : Session) {kept : List UInt8} (hk : 0x0A ∉ kept)
    {chunks : List (List UInt8)} (h : ∀ c ∈ chunks, c ≠ []) :
    serve host s kept chunks = handleLines host s (cutLines (kept ++ chunks.flatten)).1 := by
  induction chunks generalizing s kept with
  | nil =>
    rw [List.flatten_nil, List.append_nil, cutLines_of_not_mem hk]
    rfl
  | cons chunk chunks ih =>
    rw [List.forall_mem_cons] at h
    have later (t : Session) := ih t (not_mem_cutLines (kept ++ chunk)).2 h.2
    rw [List.flatten_cons, ← List.append_assoc, cutLines_append, handleLines_append]
    cases chunk with
    | nil => exact absurd rfl h.1
    | cons b bs => exact congrArg (Served.andThen _) (funext later)

/-! ## What is handled -/

/-- The lines that are not blank, without the blanks at their ends. -/
def requests (lines : List (List UInt8)) : List (List UInt8) :=
  (lines.map trimBytes).filter (!·.isEmpty)

/-- What becomes of requests that are handled in a session, each once and in order, up to the first
that breaks the connection off. -/
inductive Answers : Session → List (List UInt8) → Served → Prop
  | done (s : Session) : Answers s [] ⟨[], s, none⟩
  | reply {s t : Session} {line : List UInt8} {lines : List (List UInt8)} {reply : Json}
    {r : Served} : handleLine host s line = .ok (reply, t) → Answers t lines r →
      Answers s (line :: lines) ⟨reply :: r.replies, r.session, r.broken⟩
  | breaks {s : Session} {line : List UInt8} (lines : List (List UInt8)) {b : Breakdown} :
    handleLine host s line = .error b → Answers s (line :: lines) ⟨[], s, some b⟩

theorem handleLines_answers (s : Session) (lines : List (List UInt8)) :
    Answers host s (requests lines) (handleLines host s lines) := by
  induction lines generalizing s with
  | nil => exact .done s
  | cons line lines ih =>
    rw [handleLines, requests, List.map_cons]
    split
    · next blank =>
      rw [List.filter_cons_of_neg (by simp [blank])]
      exact ih s
    · next filled =>
      rw [List.filter_cons_of_pos (by simp [filled])]
      split
      · next failed => exact .breaks _ failed
      · next answered => exact .reply answered (ih _)

/-- However the bytes of a connection are cut into chunks, the same comes of them: the complete
lines among them that are not blank are handled, and what comes after the last of them is not. -/
theorem serve_chunks (s : Session) {chunks others : List (List UInt8)}
    (h : ∀ c ∈ chunks, c ≠ []) (k : ∀ c ∈ others, c ≠ [])
    (same : chunks.flatten = others.flatten) :
    serve host s [] chunks = serve host s [] others ∧
      ∃ lines rest, chunks.flatten = lines.flatMap (· ++ [0x0A]) ++ rest ∧
        (∀ line ∈ lines, 0x0A ∉ line) ∧ 0x0A ∉ rest ∧
        Answers host s (requests lines) (serve host s [] chunks) := by
  have nothing : (0x0A : UInt8) ∉ [] := List.not_mem_nil
  have apart := not_mem_cutLines chunks.flatten
  rw [serve_eq host s nothing h, serve_eq host s nothing k, List.nil_append, List.nil_append,
    ← same]
  exact ⟨rfl, _, _, (cutLines_joined _).symm, apart.1, apart.2, handleLines_answers host s _⟩

/-- A line of a byte that is no text, a blank line and a line without an end. -/
theorem serve_chunks_threeLines :
    serve none .initial [] [[0xFF, 0x0A, 0x20], [0x0A, 0xFF]] =
        serve none .initial [] [[0xFF], [0x0A, 0x20, 0x0A, 0xFF]] ∧
      (serve none .initial [] [[0xFF, 0x0A, 0x20], [0x0A, 0xFF]]).replies.length = 1 := by
  refine ⟨?_, by decide⟩
  exact (serve_chunks none .initial (by decide) (by decide) rfl).1

end Sigil.Service
