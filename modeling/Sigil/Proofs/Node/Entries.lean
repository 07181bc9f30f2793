import Sigil.Proofs.Node.Erased
import Sigil.Proofs.Node.Giving

/-!
# Reading types and entries that were written

A type is read from the tokens that it is written with (`Parser.reads_type`),
and so are the entries of a script, a block or a substitution, if the given
reader of expressions reads each of them where an expression ends
(`Parser.gives_entries`). What a tree starts with (`Node.starts_chunks`) tells
an entry from the end of the entries.
-/

namespace Sigil

namespace Chunks

/-- The tokens are among others. -/
def In (f : Chunks) (ps : List Chunk) : Prop :=
  ∃ spaced before after, ps = before ++ (f spaced ++ after)

namespace In

variable {f : Chunks} {p : Chunk} {ps : List Chunk}

theorem self (spaced : Bool) : f.In (f spaced) :=
  ⟨spaced, [], [], by simp⟩

theorem cons (h : f.In ps) : f.In (p :: ps) :=
  let ⟨spaced, before, after, h⟩ := h
  ⟨spaced, p :: before, after, by rw [h, List.cons_append]⟩

theorem before (h : f.In ps) (qs : List Chunk) : f.In (ps ++ qs) :=
  let ⟨spaced, before, after, h⟩ := h
  ⟨spaced, before, after ++ qs, by simp only [h, List.append_assoc]⟩

theorem after (h : f.In ps) (qs : List Chunk) : f.In (qs ++ ps) :=
  let ⟨spaced, before, after, h⟩ := h
  ⟨spaced, qs ++ before, after, by rw [h, List.append_assoc]⟩

end In

theorem in_commas {f : Chunks} {fs : List Chunks} (h : f ∈ fs) : f.In (commas fs) := by
  have more (fs : List Chunks) (h : f ∈ fs) :
      f.In (fs.flatMap fun g => ⟨false, .delimiter ","⟩ :: g true) := by
    induction fs with
    | nil => cases h
    | cons g fs ih =>
      rw [List.flatMap_cons, List.cons_append]
      rcases List.mem_cons.mp h with rfl | h
      · exact ((In.self true).before _).cons
      · exact ((ih h).after _).cons
  cases fs with
  | nil => cases h
  | cons g fs =>
    rcases List.mem_cons.mp h with rfl | h
    · exact (In.self false).before _
    · exact (more fs h).after _

theorem in_listed {f : Chunks} {fs : List Chunks} (h : f ∈ fs) : f.In (listed fs) :=
  ((in_commas h).before _).cons

end Chunks

namespace Parser

variable {s : Stream} {ps : List Chunk}

open Chunks

/-! ## Types -/

theorem ofName?_name (p : Primitive) : Ty.ofName? p.name = some (.primitive p) := by
  cases p <;> rfl

theorem gives_named {w : String} {t : Ty} {type : Parser Ty} {spaced : Bool} (hw : w ≠ "Fn")
    (ht : Ty.ofName? w = some t) (hs : s.Says (⟨spaced, .word w⟩ :: ps)) :
    Gives (typeWith type) s fun u r => u = t ∧ r.Says ps := by
  refine Gives.bind (gives_first hs fun c ⟨content, lexeme⟩ => ?_)
  rw [if_neg (not_not.mpr content)]
  refine Gives.bind ((gives_advance hs).mono fun _ r ⟨_, hr, _⟩ => ?_)
  simp only [lexeme, if_neg hw, ht]
  exact Gives.pure ⟨rfl, hr⟩

theorem length_chunks (t : Ty) (spaced : Bool) :
    (t.chunks spaced).length = (t.chunks false).length := by
  cases t <;> rfl

/-- The type has fewer tokens than those that it is among. -/
theorem length_le_of_in {t : Ty} {ps : List Chunk} (h : t.chunks.In ps) :
    (t.chunks false).length ≤ ps.length := by
  obtain ⟨spaced, before, after, rfl⟩ := h
  rw [List.length_append, List.length_append, length_chunks t spaced]
  omega

theorem chunksAll_eq_map (ts : List Ty) : Ty.chunksAll ts = ts.map Ty.chunks := by
  induction ts with
  | nil => rfl
  | cons t ts ih => rw [Ty.chunksAll, ih, List.map_cons]

theorem starts_type (t : Ty) : t.chunks.Starts fun t => !t.isDelimiter ")" := by
  intro spaced
  cases t <;> exact ⟨_, _, rfl, rfl⟩

mutual

theorem reads_typeUpTo (t : Ty) (h : t.isWritten) (depth : Nat)
    (hd : (t.chunks false).length ≤ depth) :
    Reads (typeUpTo depth) id t t.chunks fun _ => true := by
  intro spaced ps s _ hs
  obtain ⟨depth, rfl⟩ : ∃ k, depth = k + 1 := by
    refine ⟨depth - 1, ?_⟩
    cases t <;> simp only [Ty.chunks, single, List.length_cons] at hd <;> omega
  cases t with
  | dynamic => exact gives_named (by decide) rfl hs
  | unknown => cases h
  | primitive p => exact gives_named (by cases p <;> decide) (ofName?_name p) hs
  | fn params returns =>
    simp only [Ty.isWritten, Bool.and_eq_true] at h
    simp only [Ty.chunks, List.length_cons, List.length_append] at hd
    have items := reads_typesUpTo params h.1 depth fun t ht => by
      have := length_le_of_in (in_listed (List.mem_map_of_mem ht))
      rw [← chunksAll_eq_map] at this
      omega
    have result := reads_typeUpTo returns h.2 depth (by rw [length_chunks returns true] at hd; omega)
    simp only [Ty.chunks, listed, List.cons_append, List.append_assoc, List.nil_append] at hs
    refine Gives.bind (gives_first hs fun c ⟨content, lexeme⟩ => ?_)
    rw [if_neg (not_not.mpr content)]
    refine Gives.bind ((gives_advance hs).mono fun _ t ⟨_, ht, _⟩ => ?_)
    rw [if_pos lexeme]
    refine Gives.bind ((gives_delimiter ht).mono fun _ u hu => ?_)
    refine gives_listed items (fun f hf => ?_) hu fun ts v hts hv => ?_
    · rw [chunksAll_eq_map] at hf
      obtain ⟨t, -, rfl⟩ := List.mem_map.mp hf
      exact starts_type t
    refine Gives.bind ((gives_delimiter hv).mono fun _ w hw => ?_)
    refine Gives.bind ((gives_operator hw).mono fun _ x hx => ?_)
    refine Gives.bind ((result true ps x rfl hx).mono fun r y ⟨hr, hy⟩ => Gives.pure ⟨?_, hy⟩)
    rw [List.map_id] at hts
    rw [hts, show r = returns from hr]
    rfl

theorem reads_typesUpTo : ∀ (ts : List Ty), Ty.areWritten ts → ∀ depth,
    (∀ t ∈ ts, (t.chunks false).length ≤ depth) →
    List.Forall₂ (fun t f => Reads (typeUpTo depth) id t f stops) ts (Ty.chunksAll ts)
  | [], _, _, _ => .nil
  | t :: ts, h, depth, hd => by
    simp only [Ty.areWritten, Bool.and_eq_true] at h
    obtain ⟨ht, hts⟩ := List.forall_mem_cons.mp hd
    exact .cons ((reads_typeUpTo t h.1 depth ht).mono fun _ _ => rfl)
      (reads_typesUpTo ts h.2 depth hts)

end

theorem reads_type (t : Ty) (h : t.isWritten) : Reads type id t t.chunks fun _ => true := by
  intro spaced ps s _ hs
  refine Gives.bind (Gives.get (reads_typeUpTo t h _ ?_ spaced ps s rfl hs))
  rw [hs.length, List.length_append, length_chunks t spaced]
  omega

/-- Whether no type is declared before a token. -/
def stopsName (t : Token) : Bool :=
  !t.isOperator ":"

/-- What is declared after a name that was read. -/
theorem gives_declaredType {declared : Option Ty} (h : declared.all Ty.isWritten)
    (hstop : stopsName (nextToken ps))
    (hs : s.Says (annotationChunks declared ++ ps)) :
    Gives declaredType s fun d t => d = declared ∧ t.Says ps := by
  cases declared with
  | none =>
    refine Gives.no (gives_atOperator hs) ?_ (Gives.pure ⟨rfl, hs⟩)
    exact (Bool.not_eq_true' _).mp hstop
  | some t =>
    refine Gives.yes (gives_atOperator hs) rfl (Gives.bind ?_)
    refine (gives_advance hs).mono fun _ u ⟨_, hu, _⟩ => Gives.bind ?_
    refine (reads_type t h true ps u rfl hu).mono fun r v ⟨hr, hv⟩ => Gives.pure ⟨?_, hv⟩
    rw [show r = t from hr]

end Parser

/-! ## What trees start with -/

namespace Chunks

variable {f : Chunks} {test : Token → Bool}

theorem Starts.append (h : f.Starts test) (ps : List Chunk) :
    Starts (fun spaced => f spaced ++ ps) test := by
  intro spaced
  obtain ⟨m, ms, hf, hm⟩ := h spaced
  refine ⟨m, ms ++ ps, ?_, hm⟩
  dsimp only
  rw [hf, List.cons_append]

end Chunks

namespace Parser

/-- Whether an operand can start with a token. -/
def startsOperand (t : Token) : Bool :=
  isAtom t || ["true", "false"].any t.isKeyword || ["(", "\x7b", "$("].any t.isDelimiter

theorem startsExpression_of_startsOperand {t : Token} (h : startsOperand t) :
    startsExpression t := by
  simp only [startsOperand, startsExpression, Bool.or_eq_true, List.any_cons, List.any_nil] at h ⊢
  tauto

/-- Nothing that ends an expression or stands between two is what one starts with. -/
theorem not_isDelimiter_of_startsExpression {t : Token} (h : startsExpression t) {d : String}
    (hd : d ∉ ["(", "\x7b", "$("]) : t.isDelimiter d = false := by
  refine Bool.eq_false_iff.mpr fun delimiter => hd ?_
  simp only [Token.isDelimiter, Bool.and_eq_true, decide_eq_true_eq] at delimiter
  simpa [startsExpression, isAtom, Token.isPlainWord, Token.isKeyword, Token.isOperator,
    Token.isDelimiter, delimiter.1, delimiter.2] using h

theorem isPlainWord_token {w : String} (h : Lexer.isPlainWord w) :
    (Mark.word w).token.isPlainWord := by
  simp only [Lexer.isPlainWord, Bool.and_eq_true] at h
  simp only [Mark.token, Token.isPlainWord, decide_true, Bool.true_and]
  exact h.2

theorem startsExpression_of_isPlainWord {t : Token} (h : t.isPlainWord) : startsExpression t := by
  simp only [startsExpression, h, Bool.or_true, Bool.true_or]

end Parser

namespace Node

open Chunks
open Sigil.Parser (startsOperand startsExpression startsExpression_of_startsOperand
  startsExpression_of_isPlainWord isPlainWord_token)

theorem starts_parens {f : Chunks} {alone : Bool} (h : alone → f.Starts startsOperand) :
    (parens alone f).Starts startsOperand := by
  cases alone with
  | true => exact h rfl
  | false => exact fun spaced => ⟨_, _, rfl, rfl⟩

theorem starts_of_standsAsOperand (n : Node) (h : n.Spelled) (hs : n.standsAsOperand) :
    n.chunks.Starts startsOperand := by
  cases n with
  | literal span value =>
    intro spaced
    cases value with
    | unit => exact ⟨_, _, rfl, rfl⟩
    | bool b => cases b <;> exact ⟨_, _, rfl, rfl⟩
    | number n => cases n <;> exact ⟨_, _, rfl, rfl⟩
    | text => exact ⟨_, _, rfl, rfl⟩
    | run => exact h.elim
  | reference span name default =>
    intro spaced
    cases default <;> exact ⟨_, _, rfl, rfl⟩
  | interpolation | substitution | block => exact fun spaced => ⟨_, _, rfl, rfl⟩
  | call span callee args =>
    refine Starts.append (starts_parens fun hc => ?_) _
    refine starts_of_standsAsOperand callee h.1 ?_
    cases callee <;> first | rfl | cases hc
  | _ => cases hs

theorem starts_operand {n : Node} (h : n.Spelled) :
    (parens n.standsAsOperand n.chunks).Starts startsOperand :=
  starts_parens (starts_of_standsAsOperand n h)

/-- A tree starts with a token that an expression can start with. -/
theorem starts_chunks {n : Node} (h : n.Spelled) : n.chunks.Starts startsExpression := by
  cases hs : n.standsAsOperand with
  | true =>
    exact (starts_of_standsAsOperand n h hs).mono fun _ => startsExpression_of_startsOperand
  | false =>
    cases n with
    | command span env name args =>
      have plain {w : String} (hw : Lexer.isPlainWord w) : startsExpression (Mark.word w).token :=
        startsExpression_of_isPlainWord (isPlainWord_token hw)
      intro spaced
      cases env with
      | nil => exact ⟨_, _, rfl, plain h.1⟩
      | cons b env =>
        obtain ⟨span, key, value⟩ := b
        exact ⟨_, _, rfl, plain h.2.1.1.2⟩
    | conditional span condition thenBranch elseBranch =>
      intro spaced
      cases elseBranch <;> exact ⟨_, _, rfl, rfl⟩
    | function | define | assign => exact fun spaced => ⟨_, _, rfl, rfl⟩
    | binary span op left right =>
      exact ((starts_operand h.2.1).append _).mono fun _ => startsExpression_of_startsOperand
    | unary span op operand =>
      refine fun spaced => ⟨_, _, rfl, ?_⟩
      have sign := h.1
      simp only [List.mem_cons, List.not_mem_nil, or_false] at sign
      rcases sign with hop | hop <;> rw [hop] <;> rfl
    | ret span value =>
      intro spaced
      cases value <;> exact ⟨_, _, rfl, rfl⟩
    | binding | parameter | program | blank => exact h.elim
    | _ => cases hs

end Node

namespace Parser

variable {s : Stream} {ps : List Chunk} {spaced : Bool} {expression : Parser Node}

open Chunks

/-! ## Entries -/

/-- The reader reads a tree from these tokens before whatever it stops at. -/
abbrev ReadsTree (parser : Parser Node) (n : Node) (f : Chunks) (stop : Token → Bool) : Prop :=
  Reads parser Node.erase n.erase f stop

/-- Whether entries end before a token. -/
def closes (closing : Option String) (t : Token) : Bool :=
  match closing with
  | none => t.content = .endOfInput
  | some d => t.isDelimiter d

section

variable {closing : Option String} (hc : closing ∈ [none, some ")", some "\x7d"])
include hc

theorem stops_of_closes {t : Token} (h : closes closing t) :
    stops t ∧ t.isDelimiter ";" = false := by
  obtain ⟨content, lexeme, span⟩ := t
  simp only [List.mem_cons, List.not_mem_nil, or_false] at hc
  rcases hc with rfl | rfl | rfl
  all_goals
    simp only [closes, Token.isDelimiter, Bool.and_eq_true, decide_eq_true_eq] at h
    simp [stops, Token.isDelimiter, h]

theorem not_closes_of_startsExpression {t : Token} (h : startsExpression t) :
    closes closing t = false := by
  simp only [List.mem_cons, List.not_mem_nil, or_false] at hc
  rcases hc with rfl | rfl | rfl
  · obtain ⟨content, lexeme, span⟩ := t
    cases content <;> first | rfl | cases h
  · exact not_isDelimiter_of_startsExpression h (by decide)
  · exact not_isDelimiter_of_startsExpression h (by decide)

end

theorem gives_atClosing {closing : Option String} (hs : s.Says ps) :
    Gives (atClosing closing) s fun b t => b = closes closing (nextToken ps) ∧ t = s := by
  cases closing with
  | none => exact gives_test Token.isEnd_plain hs
  | some d => exact gives_atDelimiter hs

theorem gives_skipSemicolons (hs : s.Says ps) (h : (nextToken ps).isDelimiter ";" = false) :
    Gives skipSemicolons s fun _ t => t = s := by
  refine Gives.bind (Gives.mono (gives_iterate (Q := fun _ t => t = s) (Rounds.done ?_)) ?_)
  · refine Gives.bind (Gives.no (gives_atDelimiter hs) h (Gives.pure (Gives.pure ⟨rfl, rfl⟩)))
  · exact fun _ t ht => Gives.pure ht

/-- What stands between an entry and those after it, and those. -/
def laterChunks : List Node → List Chunk
  | [] => []
  | n :: ns => ⟨false, .delimiter ";"⟩ :: Node.entryChunks (n :: ns) true

theorem entryChunks_cons (n : Node) (ns : List Node) (spaced : Bool) :
    Node.entryChunks (n :: ns) spaced = n.chunks spaced ++ laterChunks ns := by
  cases ns with
  | nil => exact (List.append_nil _).symm
  | cons => rfl

section

variable {ns : List Node} {closing : Option String}
  (hc : closing ∈ [none, some ")", some "\x7d"]) (hps : closes closing (nextToken ps))
include hc hps

theorem stops_laterChunks : stops (nextToken (laterChunks ns ++ ps)) := by
  cases ns with
  | nil => exact (stops_of_closes hc hps).1
  | cons => rfl

theorem gives_endEntry (hs : s.Says (laterChunks ns ++ ps)) :
    Gives (endEntry closing) s fun _ t =>
      t.ahead.length ≤ s.ahead.length ∧ t.Says (Node.entryChunks ns true ++ ps) := by
  cases ns with
  | nil =>
    refine Gives.no (gives_atDelimiter hs) (stops_of_closes hc hps).2 ?_
    exact Gives.yes (gives_atClosing hs) hps (Gives.pure ⟨Nat.le_refl _, hs⟩)
  | cons n ns =>
    replace hs : s.Says (⟨false, .delimiter ";"⟩ :: (Node.entryChunks (n :: ns) true ++ ps)) := hs
    refine Gives.yes (gives_atDelimiter hs) rfl (Gives.bind ?_)
    refine (gives_advance hs).mono fun _ t ⟨_, ht, _⟩ => Gives.pure ⟨?_, ht⟩
    rw [hs.length, ht.length, List.length_cons]
    omega

theorem gives_entries (h : Node.SpelledAll ns)
    (he : ∀ n ∈ ns, ReadsTree expression n n.chunks stops)
    (hs : s.Says (Node.entryChunks ns spaced ++ ps)) :
    Gives (entries expression closing) s fun ms t =>
      ms.map Node.erase = ns.map Node.erase ∧ t.Says ps := by
  refine gives_many (k := Node.erase) (Q := fun t => t.Says ps) (P := fun cs t =>
    ∃ ns spaced, ns.map Node.erase = cs ∧ Node.SpelledAll ns ∧
      (∀ n ∈ ns, ReadsTree expression n n.chunks stops) ∧
      t.Says (Node.entryChunks ns spaced ++ ps))
    (fun t ht => ?_) (fun c cs t ht => ?_) ⟨ns, spaced, rfl, h, he, hs⟩
  · obtain ⟨ns, spaced, hns, -, -, ht⟩ := ht
    cases List.map_eq_nil_iff.mp hns
    refine Gives.bind ((gives_skipSemicolons ht (stops_of_closes hc hps).2).mono fun _ u hu => ?_)
    subst hu
    exact Gives.yes (gives_atClosing ht) hps (Gives.pure ⟨rfl, ht⟩)
  · obtain ⟨ns, spaced, hns, h, he, ht⟩ := ht
    obtain ⟨n, ns, rfl, rfl, rfl⟩ := List.map_eq_cons_iff.mp hns
    obtain ⟨hn, he⟩ := List.forall_mem_cons.mp he
    rw [entryChunks_cons, List.append_assoc] at ht
    have starts := (Node.starts_chunks h.1).next spaced (laterChunks ns ++ ps)
    refine Gives.bind (Gives.mono (gives_skipSemicolons ht
      (not_isDelimiter_of_startsExpression starts (by decide))) fun _ u hu => ?_)
    subst hu
    refine Gives.no (gives_atClosing ht) (not_closes_of_startsExpression hc starts) (Gives.bind ?_)
    refine (hn spaced _ u (stops_laterChunks hc hps) ht).mono fun m v ⟨hm, hv⟩ => Gives.bind ?_
    refine (gives_endEntry hc hps hv).mono fun _ w ⟨shorter, hw⟩ => Gives.pure ?_
    refine ⟨m, rfl, hm, ?_, ns, true, rfl, h.2, he, hw⟩
    obtain ⟨first, more, hfirst, -⟩ := Node.starts_chunks h.1 spaced
    have before := ht.length
    have after := hv.length
    rw [hfirst, List.cons_append, List.length_cons, List.length_append] at before
    omega

end

theorem gives_program {ns : List Node} (h : Node.SpelledAll ns)
    (he : ∀ n ∈ ns, ReadsTree expression n n.chunks stops)
    (hs : s.Says (Node.entryChunks ns spaced)) :
    Gives (program expression) s fun r _ => r.2.map Node.erase = ns.map Node.erase := by
  rw [← List.append_nil (Node.entryChunks ns spaced)] at hs
  refine Gives.bind (gives_next hs fun t _ _ => Gives.bind ?_)
  refine (gives_entries (by decide) rfl h he hs).mono fun ms u ⟨hms, _⟩ => ?_
  exact Gives.bind (gives_spanFrom fun _ => Gives.pure hms)

end Parser

end Sigil
