import Sigil.Proofs.Node.Chunks
import Sigil.Proofs.Token.Lexed

/-!
# Written trees are legible

The tokens of a tree that is spelled are cut where they were put together
(`Node.fine_chunks`): each of them is proper, and most end before whatever may
come after an expression (`Mark.endsBefore_soft`). What is written without a
space after an operator starts with a character that the operator does not go
on with.
-/

namespace Sigil

/-- Whether an expression may end before a character, or where there is none. -/
def isSoft (next : Option Char) : Bool :=
  next.all (· ∈ [' ', ';', ')', ',', '('])

theorem Mark.endsBefore_soft {m : Mark} {next : Option Char} (h : isSoft next) :
    m.endsBefore next := by
  cases next with
  | none => cases m <;> rfl
  | some c =>
    simp only [isSoft, Option.all_some, List.mem_cons, List.not_mem_nil, or_false,
      decide_eq_true_eq] at h
    rcases h with rfl | rfl | rfl | rfl | rfl <;> cases m <;> first | rfl | simp [endsBefore]

section

variable {next : Option Char} {spaced : Bool} {ps : List Chunk}

theorem legible_delimiter {s : String} (hs : s ∈ Mark.delimiters) (h : Legible next ps) :
    Legible next (⟨spaced, .delimiter s⟩ :: ps) :=
  ⟨hs, rfl, h⟩

theorem legible_soft {m : Mark} (hm : m.Proper) (hs : isSoft ((textOf ps).head?.or next))
    (h : Legible next ps) : Legible next (⟨spaced, m⟩ :: ps) :=
  ⟨hm, Mark.endsBefore_soft hs, h⟩

end

/-- Tokens that are read as they were put together, before whatever may follow an expression. -/
structure Chunks.Fine (f : Chunks) : Prop where
  writes : ∃ cs, f.Writes cs
  legible : ∀ next spaced, isSoft next → Legible next (f spaced)

namespace Chunks

variable {f : Chunks} {fs : List Chunks} {next : Option Char} {spaced : Bool}

/-- A space comes first where one is asked for. -/
theorem Fine.soft_append (h : f.Fine) (rest : List Char) :
    isSoft ((textOf (f true) ++ rest).head?.or next) := by
  obtain ⟨cs, hw⟩ := h.writes
  rw [hw true]
  rfl

theorem Fine.soft (h : f.Fine) : isSoft ((textOf (f true)).head?.or next) := by
  rw [← List.append_nil (textOf _)]
  exact h.soft_append []

theorem fine_single {m : Mark} (h : m.Proper) : (single m).Fine :=
  ⟨⟨_, writes_single m⟩, fun _ _ hn => ⟨h, Mark.endsBefore_soft hn, trivial⟩⟩

theorem fine_parens (alone : Bool) (h : f.Fine) : (parens alone f).Fine := by
  obtain ⟨cs, hw⟩ := h.writes
  refine ⟨⟨_, writes_parens alone hw⟩, fun next spaced hn => ?_⟩
  cases alone with
  | true => exact h.legible next spaced hn
  | false =>
    refine legible_delimiter (by decide) (legible_append.mpr ⟨h.legible _ _ ?_, ?_⟩)
    · rfl
    · exact legible_delimiter (by decide) trivial

/-- Items after the first one in parentheses. -/
theorem legible_more (h : ∀ f ∈ fs, f.Fine) :
    Legible (some ')') (fs.flatMap fun g => ⟨false, .delimiter ","⟩ :: g true) ∧
      isSoft ((textOf (fs.flatMap fun g => ⟨false, .delimiter ","⟩ :: g true)).head?.or
        (some ')')) := by
  induction fs with
  | nil => exact ⟨trivial, rfl⟩
  | cons f fs ih =>
    obtain ⟨hf, h⟩ := List.forall_mem_cons.mp h
    have ⟨legible, soft⟩ := ih h
    rw [List.flatMap_cons, List.cons_append]
    refine ⟨legible_delimiter (by decide) (legible_append.mpr ⟨hf.legible _ _ soft, legible⟩), ?_⟩
    rw [textOf_cons]
    rfl

theorem legible_listed (h : ∀ f ∈ fs, f.Fine) : Legible next (listed fs) := by
  refine legible_delimiter (by decide) (legible_append.mpr ⟨?_, legible_delimiter (by decide) trivial⟩)
  cases fs with
  | nil => trivial
  | cons f fs =>
    obtain ⟨hf, h⟩ := List.forall_mem_cons.mp h
    have ⟨legible, soft⟩ := legible_more h
    exact legible_append.mpr ⟨hf.legible _ _ soft, legible⟩

theorem soft_listed (fs : List Chunks) (rest : List Char) :
    isSoft ((textOf (listed fs) ++ rest).head?.or next) := by
  rw [listed, textOf_cons]
  rfl

theorem legible_rest (h : ∀ f ∈ fs, f.Fine) (hn : isSoft next) :
    Legible next (fs.flatMap (· true)) ∧
      isSoft ((textOf (fs.flatMap (· true))).head?.or next) := by
  induction fs with
  | nil => exact ⟨trivial, hn⟩
  | cons f fs ih =>
    obtain ⟨hf, h⟩ := List.forall_mem_cons.mp h
    have ⟨legible, soft⟩ := ih h
    rw [List.flatMap_cons]
    refine ⟨legible_append.mpr ⟨hf.legible _ _ soft, legible⟩, ?_⟩
    rw [textOf_append]
    exact hf.soft_append _

theorem legible_spaces (h : ∀ f ∈ fs, f.Fine) (hn : isSoft next) :
    Legible next (spaces fs spaced) := by
  cases fs with
  | nil => trivial
  | cons f fs =>
    obtain ⟨hf, h⟩ := List.forall_mem_cons.mp h
    have ⟨legible, soft⟩ := legible_rest h hn
    exact legible_append.mpr ⟨hf.legible _ _ soft, legible⟩

end Chunks

open Chunks

mutual

theorem Ty.fine_chunks (t : Ty) (h : t.isWritten) : t.chunks.Fine := by
  cases t with
  | dynamic => exact fine_single (show Lexer.isWord "Any" by decide)
  | unknown => cases h
  | primitive p =>
    refine fine_single (show Lexer.isWord p.name from ?_)
    cases p <;> decide
  | fn params returns =>
    simp only [isWritten, Bool.and_eq_true] at h
    refine ⟨⟨_, (Ty.fn params returns).writes_chunks⟩, fun next spaced hn => ?_⟩
    have result := returns.fine_chunks h.2
    refine legible_soft (show Lexer.isWord "Fn" by decide) ?_ (legible_append.mpr
      ⟨legible_listed (Ty.fine_chunksAll params h.1), ?_⟩)
    · rw [textOf_append]
      exact soft_listed _ _
    · refine legible_soft (show "->" ∈ Lexer.operators by decide) ?_ (result.legible _ _ hn)
      exact result.soft

theorem Ty.fine_chunksAll : ∀ ts : List Ty, Ty.areWritten ts → ∀ f ∈ Ty.chunksAll ts, f.Fine
  | [], _ => nofun
  | t :: ts, h => by
    simp only [areWritten, Bool.and_eq_true] at h
    exact List.forall_mem_cons.mpr ⟨t.fine_chunks h.1, Ty.fine_chunksAll ts h.2⟩

end

theorem fine_declaredChunks {name : String} {declared : Option Ty}
    (h : Ty.isDeclaration name declared) : (declaredChunks name declared).Fine := by
  refine ⟨⟨_, writes_declaredChunks name declared⟩, fun next spaced hn => ?_⟩
  simp only [Ty.isDeclaration, Bool.and_eq_true] at h
  have proper : (Mark.variable name).Proper := by
    simp [Mark.Proper, Lexer.isReference, h.1]
  cases declared with
  | none => exact legible_soft proper hn trivial
  | some t =>
    have type : t.chunks.Fine := t.fine_chunks h.2
    refine ⟨proper, rfl, legible_soft (show ":" ∈ Lexer.operators by decide) ?_
      (type.legible _ _ hn)⟩
    exact type.soft

theorem isWord_of_isPlainWord {s : String} (h : Lexer.isPlainWord s) : (Mark.word s).Proper := by
  simp only [Lexer.isPlainWord, Bool.and_eq_true] at h
  exact h.1

theorem legible_headChunks {name : Option String} {params : List Param} {returns : Option Ty}
    {next : Option Char} {spaced : Bool} (hname : name.all Lexer.isPlainWord)
    (hparams : params.all fun p => Ty.isDeclaration p.name p.declared)
    (hreturns : returns.all Ty.isWritten) (hn : isSoft next) :
    Legible next (headChunks name params returns spaced) := by
  have fine : ∀ f ∈ params.map Param.chunks, f.Fine := by
    intro f hf
    obtain ⟨p, hp, rfl⟩ := List.mem_map.mp hf
    exact fine_declaredChunks (List.all_eq_true.mp hparams p hp)
  have result : Legible next (resultChunks returns) := by
    cases returns with
    | none => trivial
    | some t =>
      have type : t.chunks.Fine := t.fine_chunks hreturns
      refine legible_soft (show "->" ∈ Lexer.operators by decide) ?_ (type.legible _ _ hn)
      exact type.soft
  have rest := legible_append.mpr ⟨legible_listed fine, result⟩
  have keyword : (Mark.word "fn").Proper := show Lexer.isWord "fn" by decide
  cases name with
  | none =>
    refine legible_soft keyword ?_ rest
    rw [nameChunks, List.nil_append, textOf_append]
    exact soft_listed _ _
  | some n =>
    refine legible_soft keyword rfl (legible_soft (isWord_of_isPlainWord hname) ?_ rest)
    change isSoft ((textOf (listed (params.map Param.chunks) ++ _)).head?.or next)
    rw [textOf_append]
    exact soft_listed _ _

theorem Datum.fine_chunks {value : Datum} (h : value.Spelled) : value.chunks.Fine := by
  cases value with
  | unit =>
    refine ⟨⟨['(', ')'], fun spaced => by simp [Datum.chunks, Mark.source]⟩, fun _ _ _ => ?_⟩
    exact legible_delimiter (by decide) (legible_delimiter (by decide) trivial)
  | bool b =>
    refine fine_single (show Lexer.isWord (if b then "true" else "false") from ?_)
    cases b <;> decide
  | number n =>
    cases n with
    | int n =>
      refine fine_single (Lexer.isNumber_int ?_)
      rw [Int.toNat_of_nonneg h.1]
      exact h.2
    | float x => exact fine_single (Number.isNumber_float h.1 h.2)
  | text s =>
    refine fine_single ?_
    unfold textFragments
    split
    · trivial
    · exact ⟨rfl, ‹_›, trivial⟩
  | run => exact h.elim

/-! ## What stands right after an operator -/

/-- What an operand right after a sign starts with. -/
def isOpening (c : Char) : Bool :=
  c.isDigit || c ∈ ['$', '"', '(']

theorem Mark.endsBefore_opening {s : String} {c : Char} (h : isOpening c) :
    (Mark.operator s).endsBefore (some c) := by
  simp only [isOpening, Bool.or_eq_true, decide_eq_true_eq, List.mem_cons, List.not_mem_nil,
    or_false] at h
  rcases h with h | rfl | rfl | rfl
  · have alpha := Lexer.isAlpha_of_isDigit h
    have ne (d : Char) (hd : d.isDigit = false) : c ≠ d := by
      rintro rfl
      rw [h] at hd
      cases hd
    simp [endsBefore, alpha, ne '=' rfl, ne '>' rfl, ne '_' rfl, ne '.' rfl, ne '~' rfl, ne '/' rfl,
      ne '-' rfl]
  all_goals simp [endsBefore]

namespace Node

/-- What can stand right after a sign starts with no letter and with no other sign. -/
theorem opening_of_standsAfterSign {n : Node} (h : n.Spelled) (hs : n.standsAfterSign) :
    ∃ c cs, textOf (n.chunks false) = c :: cs ∧ isOpening c := by
  have number {cs : List Char} {said : Token.Content} (h : Lexer.IsNumber cs said) :
      ∃ c ds, cs = c :: ds ∧ isOpening c := by
    obtain ⟨c, ds, rfl, digit⟩ := Lexer.isNumber_starts h
    exact ⟨c, ds, rfl, by simp [isOpening, digit]⟩
  cases n with
  | literal span value =>
    cases value with
    | number n =>
      have fine := (Datum.fine_chunks h).legible none false rfl
      cases n with
      | int n =>
        obtain ⟨c, ds, hc, opening⟩ := number fine.1
        exact ⟨c, ds, by simp [chunks, Datum.chunks, single, Mark.source, hc], opening⟩
      | float x =>
        obtain ⟨c, ds, hc, opening⟩ := number fine.1
        exact ⟨c, ds, by simp [chunks, Datum.chunks, single, Mark.source, hc], opening⟩
    | text s => exact ⟨'"', _, rfl, rfl⟩
    | unit | bool | run => cases hs
  | reference span name default =>
    cases default with
    | none => exact ⟨'$', _, rfl, rfl⟩
    | some d => exact ⟨'$', _, rfl, rfl⟩
  | interpolation => exact ⟨'"', _, rfl, rfl⟩
  | substitution => exact ⟨'$', _, rfl, rfl⟩
  | _ => cases hs

theorem opening_operand {n : Node} (h : n.Spelled) (s : String) (next : Option Char) :
    (Mark.operator s).endsBefore
      ((textOf (parens n.standsAfterSign n.chunks false)).head?.or next) := by
  cases hs : n.standsAfterSign with
  | false =>
    rw [parens, if_neg Bool.false_ne_true, textOf_cons]
    exact Mark.endsBefore_soft rfl
  | true =>
    obtain ⟨c, cs, hc, opening⟩ := opening_of_standsAfterSign h hs
    rw [parens, if_pos rfl, hc]
    exact Mark.endsBefore_opening opening

theorem opening_argument {n : Node} (h : n.Spelled) (next : Option Char) :
    (Mark.operator "=").endsBefore
      ((textOf (parens n.standsAsArgument n.chunks false)).head?.or next) := by
  have signed := opening_operand h "=" next
  cases n with
  | literal span value =>
    cases value with
    | unit => exact Mark.endsBefore_soft rfl
    | bool b => cases b <;> rfl
    | number | text => exact signed
    | run => exact h.elim
  | reference | interpolation | substitution => exact signed
  | _ => exact Mark.endsBefore_soft rfl

/-! ## Trees -/

theorem symbol_mem_operators {op : BinaryOperator} (h : op ∈ BinaryOperator.all) :
    op.symbol ∈ Lexer.operators := by
  revert op
  decide

theorem proper_sign {op : UnaryOperator} (h : op ∈ [.not, .neg]) :
    op.symbol ∈ Lexer.operators := by
  revert op
  decide

/-- Braces around tokens that may stand before a space. -/
theorem legible_braced {ps : List Chunk} {next : Option Char} {spaced : Bool}
    (h : Legible (some ' ') ps) : Legible next
      (⟨spaced, .delimiter "\x7b"⟩ :: (ps ++ [⟨true, .delimiter "\x7d"⟩])) :=
  legible_delimiter (by decide) (legible_append.mpr ⟨h, legible_delimiter (by decide) trivial⟩)

mutual

/-- The tokens of a tree are read as they were put together. -/
theorem fine_chunks (n : Node) (h : n.Spelled) : n.chunks.Fine := by
  refine ⟨let ⟨cs, _, hw⟩ := writes_chunks n h; ⟨cs, hw⟩, fun next spaced hn => ?_⟩
  cases n with
  | literal span value => exact (Datum.fine_chunks h).legible next spaced hn
  | reference span name default =>
    cases default <;> exact legible_soft h hn trivial
  | substitution span body =>
    exact legible_delimiter (by decide) (legible_append.mpr
      ⟨legible_entryChunks body h _ _ rfl, legible_delimiter (by decide) trivial⟩)
  | interpolation span parts =>
    exact legible_soft (proper_fragments parts h.2) hn trivial
  | command span env name args =>
    refine legible_spaces (fun f hf => ?_) hn
    rcases List.mem_append.mp hf with hf | hf
    · exact fine_bindingChunks env h.2.1 f hf
    rcases List.mem_cons.mp hf with rfl | hf
    · exact fine_single (isWord_of_isPlainWord h.1)
    · exact fine_argumentChunks args h.2.2 f hf
  | call span callee args =>
    refine legible_append.mpr ⟨(fine_parens _ (fine_chunks callee h.1)).legible _ _ ?_,
      legible_listed (fine_chunksAll args h.2)⟩
    rw [← List.append_nil (textOf _)]
    exact soft_listed _ _
  | conditional span condition thenBranch elseBranch =>
    cases elseBranch with
    | none =>
      have condition_fine := fine_parens condition.standsAsOperand (fine_chunks condition h.1)
      have then_fine := fine_parens thenBranch.standsAsOperand (fine_chunks thenBranch h.2)
      refine legible_soft (show Lexer.isWord "if" by decide) ?_
        (legible_append.mpr ⟨condition_fine.legible _ _ rfl,
          legible_soft (show Lexer.isWord "then" by decide) then_fine.soft
            (then_fine.legible _ _ hn)⟩)
      rw [textOf_append]
      exact condition_fine.soft_append _
    | some n =>
      have condition_fine := fine_parens condition.standsAsOperand (fine_chunks condition h.1)
      have then_fine := fine_parens thenBranch.standsAsOperand (fine_chunks thenBranch h.2.1)
      have else_fine := fine_chunks n h.2.2
      refine legible_soft (show Lexer.isWord "if" by decide) ?_
        (legible_append.mpr ⟨condition_fine.legible _ _ rfl,
          legible_soft (show Lexer.isWord "then" by decide) ?_
            (legible_append.mpr ⟨then_fine.legible _ _ rfl,
              legible_soft (show Lexer.isWord "else" by decide) else_fine.soft
                (else_fine.legible _ _ hn)⟩)⟩)
      · rw [textOf_append]
        exact condition_fine.soft_append _
      · rw [textOf_append]
        exact then_fine.soft_append _
  | block span body => exact legible_braced (legible_entryChunks body h _ _ rfl)
  | function span name params returns bodySpan body =>
    exact legible_append.mpr ⟨legible_headChunks h.1.1 h.1.2.1 h.1.2.2 rfl,
      legible_braced (legible_entryChunks body h.2 _ _ rfl)⟩
  | binary span op left right =>
    have right_fine := fine_parens right.standsAsOperand (fine_chunks right h.2.2)
    refine legible_append.mpr ⟨(fine_parens _ (fine_chunks left h.2.1)).legible _ _ rfl,
      legible_soft (symbol_mem_operators h.1) ?_ (right_fine.legible _ _ hn)⟩
    exact right_fine.soft
  | unary span op operand =>
    have operand_fine := fine_parens operand.standsAfterSign (fine_chunks operand h.2)
    exact ⟨proper_sign h.1, opening_operand h.2 _ next, operand_fine.legible _ _ hn⟩
  | ret span value =>
    have keyword : (Mark.word "return").Proper := show Lexer.isWord "return" by decide
    cases value with
    | none => exact legible_soft keyword hn trivial
    | some n =>
      have fine := fine_chunks n h
      refine legible_soft keyword ?_ (fine.legible _ _ hn)
      exact fine.soft
  | define span name declared value =>
    have value_fine := fine_chunks value h.2
    have name_fine := fine_declaredChunks h.1
    refine legible_soft (show Lexer.isWord "let" by decide) ?_
      (legible_append.mpr ⟨name_fine.legible _ _ rfl,
        legible_soft (show "=" ∈ Lexer.operators by decide) value_fine.soft
          (value_fine.legible _ _ hn)⟩)
    rw [textOf_append]
    exact name_fine.soft_append _
  | assign span name value =>
    have value_fine := fine_chunks value h.2
    have proper : (Mark.variable name).Proper := by simp [Mark.Proper, Lexer.isReference, h.1]
    exact legible_soft proper rfl (legible_soft (show "=" ∈ Lexer.operators by decide)
      value_fine.soft (value_fine.legible _ _ hn))
  | binding | parameter | program | blank => exact h.elim

theorem legible_entryChunks : ∀ (ns : List Node), SpelledAll ns →
    ∀ next spaced, isSoft next → Legible next (entryChunks ns spaced)
  | [], _, _, _, _ => trivial
  | [n], h, next, spaced, hn => (fine_chunks n h.1).legible next spaced hn
  | n :: m :: ns, h, next, spaced, hn =>
    legible_append.mpr ⟨(fine_chunks n h.1).legible _ _ rfl,
      legible_delimiter (by decide) (legible_entryChunks (m :: ns) h.2 next true hn)⟩

theorem fine_chunksAll : ∀ (ns : List Node), SpelledAll ns → ∀ f ∈ chunksAll ns, f.Fine
  | [], _ => nofun
  | n :: ns, h => List.forall_mem_cons.mpr ⟨fine_chunks n h.1, fine_chunksAll ns h.2⟩

theorem fine_argumentChunks : ∀ (ns : List Node), SpelledAll ns →
    ∀ f ∈ argumentChunks ns, f.Fine
  | [], _ => nofun
  | n :: ns, h =>
    List.forall_mem_cons.mpr ⟨fine_parens _ (fine_chunks n h.1), fine_argumentChunks ns h.2⟩

theorem fine_bindingChunks : ∀ (bs : List EnvBinding), SpelledBindings bs →
    ∀ f ∈ bindingChunks bs, f.Fine
  | [], _ => nofun
  | .mk span name value :: bs, h => by
    refine List.forall_mem_cons.mpr ⟨?_, fine_bindingChunks bs h.2.2⟩
    have value_fine := fine_parens value.standsAsArgument (fine_chunks value h.2.1)
    obtain ⟨cs, hw⟩ := value_fine.writes
    refine ⟨⟨name.toList ++ '=' :: cs, fun spaced => by simp [hw false, Mark.source]⟩,
      fun next spaced hn => ⟨isWord_of_isPlainWord h.1.2, rfl, ?_⟩⟩
    refine ⟨show "=" ∈ Lexer.operators by decide, ?_, value_fine.legible _ _ hn⟩
    exact opening_argument h.2.1 next

theorem proper_fragments : ∀ {afterText : Bool} (ps : List Part), SpelledParts afterText ps →
    Fragment.Proper afterText (fragments ps)
  | _, [], _ => trivial
  | _, .text s :: ps, h => ⟨h.1.1, h.1.2, proper_fragments ps h.2⟩
  | _, .node n :: ps, h => by
    obtain ⟨⟨part, closed⟩, hn, h⟩ := h
    have rest := proper_fragments ps h
    cases n <;> try cases part
    case reference.refl span name default => exact ⟨hn, rest⟩
    case substitution.refl span body =>
      refine ⟨?_, rest⟩
      obtain ⟨cs, hs, hw⟩ := writes_entryChunks body hn
      rw [textOf_entryChunks hw hs]
      simpa only [isClosedInString, hs] using closed

end

end Node

end Sigil
