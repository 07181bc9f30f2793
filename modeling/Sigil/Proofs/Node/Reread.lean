import Sigil.Proofs.Node.Operations

/-!
# Reading trees that were written

The reader of expressions reads every tree from the tokens that it is written
with, if it may nest as deep as the text of the tree is long
(`Parser.reader_expressionUpTo`). The induction is on this bound: whatever
stands within a tree has a shorter text, and is left to the next bound.
-/

namespace Sigil

namespace Chunks

variable {f : Chunks} {ps : List Chunk}

theorem length_textOf_le (hf : ∃ cs, f.Writes cs) (spaced : Bool) :
    (textOf (f false)).length ≤ (textOf (f spaced)).length := by
  obtain ⟨cs, hw⟩ := hf
  rw [hw false, hw spaced, List.length_append, List.length_append]
  exact Nat.add_le_add_right (Nat.zero_le _) _

/-- Tokens that are among others have no longer text. -/
theorem In.length_textOf_le (h : f.In ps) (hf : ∃ cs, f.Writes cs) :
    (textOf (f false)).length ≤ (textOf ps).length := by
  obtain ⟨spaced, before, after, rfl⟩ := h
  have := Chunks.length_textOf_le hf spaced
  rw [textOf_append, textOf_append, List.length_append, List.length_append]
  omega

theorem length_parens (f : Chunks) (alone : Bool) :
    (textOf (f false)).length + (if alone then 0 else 2) =
      (textOf (parens alone f false)).length := by
  cases alone <;> simp [parens, Mark.source]

end Chunks

namespace Node

open Chunks

/-- How long the text of a tree is. -/
def length (n : Node) : Nat :=
  (textOf (n.chunks false)).length

theorem length_le_of_in {n : Node} {ps : List Chunk} (h : n.Spelled) (hn : n.chunks.In ps) :
    n.length ≤ (textOf ps).length :=
  hn.length_textOf_le (fine_chunks n h).writes

theorem in_entryChunks {n : Node} {ns : List Node} (h : n ∈ ns) (spaced : Bool) :
    n.chunks.In (entryChunks ns spaced) := by
  induction ns generalizing spaced with
  | nil => cases h
  | cons m ns ih =>
    rw [Parser.entryChunks_cons]
    rcases List.mem_cons.mp h with rfl | h
    · exact (In.self spaced).before _
    · cases ns with
      | nil => cases h
      | cons k ns => exact (ih h true).cons.after _

theorem chunksAll_eq_map (ns : List Node) : chunksAll ns = ns.map chunks := by
  induction ns with
  | nil => rfl
  | cons n ns ih => rw [chunksAll, ih, List.map_cons]

/-- Parentheses around items make their text longer. -/
theorem length_lt_listed {n : Node} {ns : List Node} (hn : n ∈ ns) (h : n.Spelled) :
    n.length < (textOf (listed (ns.map chunks))).length := by
  have inside := length_le_of_in h (in_commas (List.mem_map_of_mem hn))
  simp [listed, Mark.source] at inside ⊢
  omega

theorem mem_fragments {span : Option Span} {body : List Node} {parts : List Part}
    (h : .node (.substitution span body) ∈ parts) :
    .substitution (textOf (entryChunks body false)) ∈ fragments parts := by
  induction parts with
  | nil => cases h
  | cons part parts ih =>
    rcases List.mem_cons.mp h with rfl | later
    · exact List.mem_cons_self
    · cases part with
      | text => exact List.mem_cons_of_mem _ (ih later)
      | node n =>
        cases n with
        | reference | substitution => exact List.mem_cons_of_mem _ (ih later)
        | _ => exact ih later

theorem spelledAll_of_mem {span : Option Span} {body : List Node} {parts : List Part}
    {afterText : Bool} (h : SpelledParts afterText parts)
    (hp : .node (.substitution span body) ∈ parts) : SpelledAll body := by
  induction parts generalizing afterText with
  | nil => cases hp
  | cons part parts ih =>
    rcases List.mem_cons.mp hp with rfl | later
    · exact h.2.1
    · cases part with
      | text => exact ih h.2 later
      | node => exact ih h.2.2 later

/-- Whatever stands in a substitution in a string has a shorter text than the string. -/
theorem length_lt_interpolation {span inner : Option Span} {parts : List Part} {body : List Node}
    {n : Node} (hp : .node (.substitution inner body) ∈ parts) (hn : n ∈ body) (h : n.Spelled) :
    n.length < (interpolation span parts).length := by
  have inside := length_le_of_in h (in_entryChunks hn false)
  obtain ⟨before, after, hf⟩ := List.append_of_mem (mem_fragments hp)
  simp [length, chunks, single, Mark.source, hf, Fragment.source] at inside ⊢
  omega

end Node

namespace Parser

open Chunks

/-- The reader reads all trees with a text of less than a given length, also where they stand as
operands. -/
structure Reader (k : Nat) (expression : Parser Node) : Prop where
  tree : ∀ n : Node, n.Spelled → n.length < k → ReadsTree expression n n.chunks stops
  operand : ∀ n : Node, n.Spelled →
    (textOf (parens n.standsAsOperand n.chunks false)).length < k → ReadsOperand expression n

theorem standsAsOperand_of_standsAsCallee {n : Node} (h : n.standsAsCallee) :
    n.standsAsOperand := by
  cases n <;> first | rfl | cases h

theorem not_isPlainWord_of_startsOperand {t : Token} (h : startsOperand t) :
    !t.isPlainWord := by
  obtain ⟨content, lexeme, span⟩ := t
  cases content <;> try rfl
  case word =>
    simp [startsOperand, isAtom, Token.isKeyword, Token.isDelimiter] at h
    rcases h with ⟨rfl, -⟩ | ⟨rfl, -⟩ <;> rfl

section

variable {k : Nat} {expression : Parser Node} (he : Reader k expression)
include he

/-! ## Operands -/

theorem Reader.grouped {n : Node} (h : n.Spelled)
    (hk : (textOf (parens false n.chunks false)).length ≤ k) :
    ReadsTree (primary expression) n (parens false n.chunks) fun _ => true := by
  rw [← length_parens] at hk
  exact reads_grouped h (he.tree n h (show (textOf _).length < k by simp at hk; omega))

theorem Reader.interpolation {span : Option Span} {parts : List Part}
    (h : (Node.interpolation span parts).Spelled)
    (hk : (Node.interpolation span parts).length ≤ k) :
    ReadsTree (primary expression) (.interpolation span parts)
      (Node.interpolation span parts).chunks fun _ => true := by
  refine reads_interpolation h fun inner body hp n hn => ?_
  have spelled := Node.spelledAll_iff.mp (Node.spelledAll_of_mem h.2 hp) n hn
  exact he.tree n spelled (Nat.lt_of_lt_of_le (Node.length_lt_interpolation hp hn spelled) hk)

theorem Reader.substitution {span : Option Span} {body : List Node}
    (h : (Node.substitution span body).Spelled)
    (hk : (Node.substitution span body).length ≤ k) :
    ReadsTree (primary expression) (.substitution span body)
      (Node.substitution span body).chunks fun _ => true := by
  refine reads_substitution h fun n hn => ?_
  have spelled := Node.spelledAll_iff.mp h n hn
  have inside := Node.length_le_of_in spelled (Node.in_entryChunks hn false)
  refine he.tree n spelled ?_
  simp [Node.length, Node.chunks, Mark.source] at hk inside ⊢
  omega

theorem Reader.block {span : Option Span} {body : List Node} (h : (Node.block span body).Spelled)
    (hk : (Node.block span body).length ≤ k) :
    ReadsTree (primary expression) (.block span body) (Node.block span body).chunks
      fun _ => true := by
  refine reads_block h fun n hn => ?_
  have spelled := Node.spelledAll_iff.mp h n hn
  have inside := Node.length_le_of_in spelled (Node.in_entryChunks hn true)
  refine he.tree n spelled ?_
  simp [Node.length, Node.chunks, Mark.source] at hk inside ⊢
  omega

theorem Reader.argument {n : Node} (h : n.Spelled)
    (hk : (textOf (parens n.standsAsArgument n.chunks false)).length ≤ k) :
    ReadsArgument (primary expression) n := by
  cases n with
  | literal span value => exact reads_literal h
  | reference span name default => exact reads_reference
  | interpolation span parts => exact he.interpolation h hk
  | substitution span body => exact he.substitution h hk
  | _ => exact he.grouped h hk

/-- What stands as an operand, or is in parentheses, may be called. -/
theorem Reader.callee (n : Node) (h : n.Spelled) (alone : Bool)
    (halone : alone → n.standsAsOperand)
    (hk : (textOf (parens alone n.chunks false)).length ≤ k) :
    ReadsCallee expression n (parens alone n.chunks) fun _ => true := by
  have starts := Node.starts_parens fun ha => Node.starts_of_standsAsOperand n h (halone ha)
  have of_primary
      (hp : ReadsTree (primary expression) n (parens alone n.chunks) fun _ => true) :=
    readsCallee_of_application (reads_application hp
      (starts.mono fun _ => not_isPlainWord_of_startsOperand))
  cases alone with
  | false => exact of_primary (he.grouped h hk)
  | true =>
    cases n with
    | literal span value => exact of_primary (reads_literal h)
    | reference span name default => exact of_primary reads_reference
    | interpolation span parts => exact of_primary (he.interpolation h hk)
    | substitution span body => exact of_primary (he.substitution h hk)
    | block span body => exact of_primary (he.block h hk)
    | call span callee args =>
      rw [parens, if_pos rfl] at hk
      simp only [Node.chunks, textOf_append, List.length_append, Node.chunksAll_eq_map] at hk
      have called := Reader.callee callee h.1 callee.standsAsCallee standsAsOperand_of_standsAsCallee
        (Nat.le_trans (Nat.le_add_right ..) hk)
      have args_read : ∀ n ∈ args, ReadsTree expression n n.chunks stops := by
        intro n hn
        have spelled := Node.spelledAll_iff.mp h.2 n hn
        have shorter := Node.length_lt_listed hn spelled
        exact he.tree n spelled (by omega)
      have tokens : parens true (Node.call span callee args).chunks = fun spaced =>
          parens callee.standsAsCallee callee.chunks spaced ++ listed (args.map Node.chunks) := by
        rw [← Node.chunksAll_eq_map]
        rfl
      rw [tokens]
      exact readsCallee_call called h.2 args_read
    | _ => cases halone rfl

/-! ## Expressions -/

omit he in
theorem not_isSign_of_startsOperand {t : Token} (h : startsOperand t) : !isSign t := by
  obtain ⟨content, lexeme, span⟩ := t
  cases content <;> first | rfl | cases h

omit he in
theorem not_isLet_of_startsOperand {t : Token} (h : startsOperand t) : !t.isKeyword "let" := by
  obtain ⟨content, lexeme, span⟩ := t
  cases content <;> try rfl
  case word =>
    simp [startsOperand, isAtom, Token.isKeyword, Token.isDelimiter] at h
    rcases h with ⟨rfl, -⟩ | ⟨rfl, -⟩ <;> rfl

omit he in
theorem noTarget_operand (n : Node) (h : n.Spelled) (alone : Bool)
    (halone : alone → n.standsAsOperand) {ps : List Chunk}
    (hps : (nextToken ps).isOperator "=" = false) (spaced : Bool) :
    NoTarget (parens alone n.chunks spaced ++ ps) := by
  cases alone with
  | false => trivial
  | true =>
    cases n with
    | literal span value =>
      cases value with
      | number n => cases n <;> trivial
      | run => exact h.elim
      | _ => trivial
    | reference span name default =>
      cases default with
      | none => exact hps
      | some default => trivial
    | interpolation | substitution | block => trivial
    | call span callee args =>
      have parenthesis : (nextToken (listed (Node.chunksAll args) ++ ps)).isOperator "=" = false := rfl
      have called := noTarget_operand callee h.1 callee.standsAsCallee
        standsAsOperand_of_standsAsCallee parenthesis spaced
      rw [← List.append_assoc] at called
      exact called
    | _ => cases halone rfl

omit he in
theorem noTarget_of_starts {f : Chunks} (hf : f.Starts fun t => !isAtom t) (spaced : Bool)
    (ps : List Chunk) : NoTarget (f spaced ++ ps) := by
  obtain ⟨m, ms, hm, atom⟩ := hf spaced
  rw [hm]
  cases m <;> trivial

/-- Operands are read between operators. -/
theorem Reader.signed {n : Node} (h : n.Spelled)
    (hk : (textOf (parens n.standsAsOperand n.chunks false)).length ≤ k) :
    ReadsTree (signed expression) n (parens n.standsAsOperand n.chunks) (clear []) := by
  have called := he.callee n h _ id hk
  refine reads_signed (reads_postfixCalls (fun spaced ps s start Q _ => called spaced ps s start Q rfl)
    fun t ht => ?_) ((Node.starts_operand h).mono fun _ => not_isSign_of_startsOperand)
  simpa [clear, isOneOf] using ht

theorem Reader.expression_operand {n : Node} (h : n.Spelled)
    (hk : (textOf (parens n.standsAsOperand n.chunks false)).length ≤ k) :
    ReadsOperand (expressionWith expression) n := by
  have loose : ∀ t, stopsOperand t → clear [] t := fun t ht => by
    rw [clear, not_isOpen_of_stopsOperand ht]
    rfl
  refine reads_expression (reads_operation (Reads.mono (he.signed h hk) loose) fun _ => id)
    ((Node.starts_operand h).mono fun _ => not_isLet_of_startsOperand) fun spaced ps hps => ?_
  exact noTarget_operand n h _ id (not_isOperator_of_stopsOperand hps "=") spaced

end

/-- Whether a token is a word that starts no definition. -/
def startsWithWord (t : Token) : Bool :=
  t.content = .word && !t.isKeyword "let"

theorem startsWithWord_of_isPlainWord {t : Token} (h : t.isPlainWord) : startsWithWord t := by
  simp only [Token.isPlainWord, Bool.and_eq_true, decide_eq_true_eq] at h
  have other : t.lexeme ≠ "let" := fun hl => absurd h.2 (by rw [hl]; decide)
  simp [startsWithWord, Token.isKeyword, h.1, other]

section

variable {expression : Parser Node} {n : Node} {f : Chunks} (hf : f.Starts startsWithWord)
include hf

/-- What starts with a word is an expression if it is read before signs and operators are. -/
theorem reads_of_application (h : ReadsTree (application expression) n f stops) :
    ReadsTree (expressionWith expression) n f stops := by
  have starts (test : Token → Bool) (ht : ∀ t, startsWithWord t → test t) : f.Starts test :=
    hf.mono ht
  have called := reads_postfixCalls (readsCallee_of_application h) fun t ht =>
    not_isOpen_of_stopsOperand (stopsOperand_of_stops ht)
  have signed := reads_signed called (starts _ fun t ht => by
    simp only [startsWithWord, Bool.and_eq_true, decide_eq_true_eq] at ht
    simp [isSign, Token.isOperator, ht.1])
  refine reads_expression (reads_operation signed fun _ => stopsOperand_of_stops)
    (starts _ fun t ht => (Bool.and_eq_true _ _ ▸ ht).2) fun spaced ps _ => ?_
  refine noTarget_of_starts (starts _ fun t ht => ?_) spaced ps
  simp only [startsWithWord, Bool.and_eq_true, decide_eq_true_eq] at ht
  simp [isAtom, ht.1]

theorem reads_of_primary (h : ReadsTree (primary expression) n f stops)
    (hw : f.Starts fun t => !t.isPlainWord) : ReadsTree (expressionWith expression) n f stops :=
  reads_of_application hf (reads_application h hw)

end

/-! ## Texts of parts -/

theorem in_spaces {f : Chunks} {fs : List Chunks} (h : f ∈ fs) (spaced : Bool) :
    f.In (spaces fs spaced) := by
  induction fs generalizing spaced with
  | nil => cases h
  | cons g fs ih =>
    rw [spaces_cons]
    rcases List.mem_cons.mp h with rfl | h
    · exact (In.self spaced).before _
    · exact (ih h true).after _

theorem mem_argumentChunks {n : Node} {args : List Node} (h : n ∈ args) :
    parens n.standsAsArgument n.chunks ∈ Node.argumentChunks args := by
  induction args with
  | nil => cases h
  | cons m args ih =>
    rcases List.mem_cons.mp h with rfl | h
    · exact List.mem_cons_self
    · exact List.mem_cons_of_mem _ (ih h)

theorem mem_bindingChunks {b : EnvBinding} {env : List EnvBinding} (h : b ∈ env) :
    (fun spaced => ⟨spaced, .word b.name⟩ :: ⟨false, .operator "="⟩ ::
      parens b.value.standsAsArgument b.value.chunks false) ∈ Node.bindingChunks env := by
  induction env with
  | nil => cases h
  | cons c env ih =>
    rcases List.mem_cons.mp h with rfl | later
    · obtain ⟨span, name, value⟩ := b
      exact List.mem_cons_self
    · obtain ⟨span, name, value⟩ := c
      exact List.mem_cons_of_mem _ (ih later)

theorem spelled_value {b : EnvBinding} {env : List EnvBinding} (h : Node.SpelledBindings env)
    (hb : b ∈ env) : b.value.Spelled := by
  induction env with
  | nil => cases hb
  | cons c env ih =>
    obtain ⟨span, name, value⟩ := c
    rcases List.mem_cons.mp hb with rfl | hb
    · exact h.2.1
    · exact ih h.2.2 hb

section

variable {span : Option Span} {env : List EnvBinding} {name : String} {args : List Node}
  (h : (Node.command span env name args).Spelled)
include h

theorem length_argument {n : Node} (hn : n ∈ args) :
    (textOf (parens n.standsAsArgument n.chunks false)).length ≤
      (Node.command span env name args).length := by
  have fine := Node.fine_argumentChunks args h.2.2 _ (mem_argumentChunks hn)
  refine In.length_textOf_le (in_spaces ?_ false) fine.writes
  exact List.mem_append_right _ (List.mem_cons_of_mem _ (mem_argumentChunks hn))

theorem length_value {b : EnvBinding} (hb : b ∈ env) :
    (textOf (parens b.value.standsAsArgument b.value.chunks false)).length ≤
      (Node.command span env name args).length := by
  have fine := Node.fine_bindingChunks env h.2.1 _ (mem_bindingChunks hb)
  refine Nat.le_trans ?_ (In.length_textOf_le
    (in_spaces (List.mem_append_left _ (mem_bindingChunks hb)) false) fine.writes)
  simp only [textOf_cons, List.length_append]
  omega

end

section

variable {k : Nat} {expression : Parser Node} (he : Reader k expression)
include he

theorem Reader.command {span : Option Span} {env : List EnvBinding} {name : String}
    {args : List Node} (h : (Node.command span env name args).Spelled)
    (hk : (Node.command span env name args).length ≤ k) :
    ReadsTree (expressionWith expression) (.command span env name args)
      (Node.command span env name args).chunks stops := by
  refine reads_of_application ((starts_command h).mono fun _ => startsWithWord_of_isPlainWord)
    (reads_command h (fun b hb => ?_) fun n hn => ?_)
  · exact he.argument (spelled_value h.2.1 hb) (Nat.le_trans (length_value h hb) hk)
  · exact he.argument (Node.spelledAll_iff.mp h.2.2 n hn) (Nat.le_trans (length_argument h hn) hk)

omit he in
theorem length_operand {n : Node} (h : n.Spelled) (alone spaced : Bool) :
    (textOf (parens alone n.chunks false)).length ≤
      (textOf (parens alone n.chunks spaced)).length :=
  length_textOf_le (fine_parens alone (Node.fine_chunks n h)).writes spaced

theorem Reader.conditional {span : Option Span} {condition thenBranch : Node}
    {elseBranch : Option Node}
    (h : (Node.conditional span condition thenBranch elseBranch).Spelled)
    (hk : (Node.conditional span condition thenBranch elseBranch).length ≤ k) :
    ReadsTree (expressionWith expression) (.conditional span condition thenBranch elseBranch)
      (Node.conditional span condition thenBranch elseBranch).chunks stops := by
  have starts (test : Token → Bool) (ht : test (Mark.word "if").token) :
      (Node.conditional span condition thenBranch elseBranch).chunks.Starts test := by
    intro spaced
    cases elseBranch <;> exact ⟨_, _, rfl, ht⟩
  refine reads_of_primary (starts _ rfl) ?_ (starts _ rfl)
  cases elseBranch with
  | none =>
    obtain ⟨hc, ht⟩ := h
    have condition_le := length_operand hc condition.standsAsOperand true
    have then_le := length_operand ht thenBranch.standsAsOperand true
    simp [Node.length, Node.chunks, Mark.source] at hk
    exact reads_conditional (he.operand condition hc (by omega))
      (he.operand thenBranch ht (by omega)) nofun
  | some n =>
    obtain ⟨hc, ht, hn⟩ := h
    have condition_le := length_operand hc condition.standsAsOperand true
    have then_le := length_operand ht thenBranch.standsAsOperand true
    have else_le := length_textOf_le (Node.fine_chunks n hn).writes true
    simp [Node.length, Node.chunks, Mark.source] at hk
    refine reads_conditional (he.operand condition hc (by omega))
      (he.operand thenBranch ht (by omega)) fun m hm => ?_
    cases hm
    exact he.tree n hn (show (textOf _).length < k by omega)

theorem Reader.function {span bodySpan : Option Span} {name : Option String}
    {params : List Param} {returns : Option Ty} {body : List Node}
    (h : (Node.function span name params returns bodySpan body).Spelled)
    (hk : (Node.function span name params returns bodySpan body).length ≤ k) :
    ReadsTree (expressionWith expression) (.function span name params returns bodySpan body)
      (Node.function span name params returns bodySpan body).chunks stops := by
  have starts (test : Token → Bool) (ht : test (Mark.word "fn").token) :
      (Node.function span name params returns bodySpan body).chunks.Starts test :=
    fun spaced => ⟨_, _, rfl, ht⟩
  refine reads_of_primary (starts _ rfl) (Reads.mono (reads_function h fun n hn => ?_) ?_)
    (starts _ rfl)
  · have spelled := Node.spelledAll_iff.mp h.2 n hn
    have inside := Node.length_le_of_in spelled (Node.in_entryChunks hn true)
    refine he.tree n spelled ?_
    simp only [Node.length, Node.chunks, textOf_append, textOf_cons, List.length_append,
      Mark.source] at hk inside ⊢
    simp at hk
    omega
  · exact fun _ _ => rfl

theorem Reader.ret {span : Option Span} {value : Option Node} (h : (Node.ret span value).Spelled)
    (hk : (Node.ret span value).length ≤ k) :
    ReadsTree (expressionWith expression) (.ret span value) (Node.ret span value).chunks
      stops := by
  have starts (test : Token → Bool) (ht : test (Mark.word "return").token) :
      (Node.ret span value).chunks.Starts test := by
    intro spaced
    cases value <;> exact ⟨_, _, rfl, ht⟩
  refine reads_of_primary (starts _ rfl) (reads_return h fun n hn => ?_) (starts _ rfl)
  cases hn
  have spelled : n.Spelled := h
  have inside := length_textOf_le (Node.fine_chunks n spelled).writes true
  refine he.tree n spelled ?_
  simp [Node.length, Node.chunks, Mark.source] at hk inside ⊢
  omega

omit he in
theorem not_isEquals_symbol {op : BinaryOperator} (h : op ∈ BinaryOperator.all) :
    (Mark.operator op.symbol).token.isOperator "=" = false := by
  revert op
  decide

omit he in
theorem standsAsOperand_of_standsAfterSign {n : Node} (h : n.standsAfterSign) :
    n.standsAsOperand := by
  cases n <;> first | rfl | cases h

theorem Reader.unary {span : Option Span} {op : UnaryOperator} {operand : Node}
    (h : (Node.unary span op operand).Spelled)
    (hk : (Node.unary span op operand).length ≤ k) :
    ReadsTree (expressionWith expression) (.unary span op operand)
      (Node.unary span op operand).chunks stops := by
  have sign : ∀ spaced, (Node.unary span op operand).chunks spaced =
      ⟨spaced, .operator op.symbol⟩ :: parens operand.standsAfterSign operand.chunks false :=
    fun _ => rfl
  simp only [Node.length, sign, textOf_cons, List.length_append] at hk
  have called := he.callee operand h.2 operand.standsAfterSign standsAsOperand_of_standsAfterSign
    (by omega)
  have starts := Node.starts_parens (f := operand.chunks) fun ha =>
    Node.starts_of_standsAsOperand operand h.2 (standsAsOperand_of_standsAfterSign ha)
  have signed : ReadsTree (Parser.signed expression) (.unary span op operand)
      (Node.unary span op operand).chunks stops := by
    refine reads_unary (reads_postfixCalls (fun spaced ps s start Q _ =>
      called spaced ps s start Q rfl) fun t ht => ?_)
      (starts.mono fun _ => not_isSign_of_startsOperand) h.1
    exact not_isOpen_of_stopsOperand (stopsOperand_of_stops ht)
  refine reads_expression (reads_operation signed fun _ => stopsOperand_of_stops)
    (fun spaced => ⟨_, _, rfl, rfl⟩) fun spaced ps _ => trivial

theorem Reader.binary {span : Option Span} {op : BinaryOperator} {left right : Node}
    (h : (Node.binary span op left right).Spelled)
    (hk : (Node.binary span op left right).length ≤ k) :
    ReadsTree (expressionWith expression) (.binary span op left right)
      (Node.binary span op left right).chunks stops := by
  have right_le := length_operand h.2.2 right.standsAsOperand true
  simp only [Node.length, Node.chunks, textOf_append, textOf_cons, List.length_append] at hk
  have operation : ReadsTree (Parser.operation (Parser.signed expression))
      (.binary span op left right) (Node.binary span op left right).chunks stopsOperand :=
    reads_binary h.1 (he.signed h.2.1 (by omega)) (he.signed h.2.2 (by omega))
  refine reads_expression (Reads.mono operation fun _ => stopsOperand_of_stops)
    (((Node.starts_operand h.2.1).append _).mono fun _ => not_isLet_of_startsOperand)
    fun spaced ps _ => ?_
  have operator : (nextToken (⟨true, .operator op.symbol⟩ ::
      (parens right.standsAsOperand right.chunks true ++ ps))).isOperator "=" = false :=
    not_isEquals_symbol h.1
  have target := noTarget_operand left h.2.1 left.standsAsOperand id operator spaced
  rw [← List.cons_append, ← List.append_assoc] at target
  exact target

theorem Reader.next : Reader (k + 1) (expressionWith expression) where
  operand n h hk := he.expression_operand h (Nat.le_of_lt_succ hk)
  tree n h hk := by
    replace hk := Nat.le_of_lt_succ hk
    cases hs : n.standsAsOperand with
    | true =>
      have operand : ReadsOperand (expressionWith expression) n :=
        he.expression_operand h (by rw [hs]; exact hk)
      rw [ReadsOperand, hs] at operand
      exact Reads.mono operand fun _ => stopsOperand_of_stops
    | false =>
      cases n with
      | command span env name args => exact he.command h hk
      | conditional span condition thenBranch elseBranch => exact he.conditional h hk
      | function span name params returns bodySpan body => exact he.function h hk
      | binary span op left right => exact he.binary h hk
      | unary span op operand => exact he.unary h hk
      | ret span value => exact he.ret h hk
      | define span name declared value =>
        have value_le := length_textOf_le (Node.fine_chunks value h.2).writes true
        simp [Node.length, Node.chunks, Mark.source] at hk
        exact reads_define h (he.tree value h.2 (show (textOf _).length < k by omega))
      | assign span name value =>
        have value_le := length_textOf_le (Node.fine_chunks value h.2).writes true
        simp [Node.length, Node.chunks, Mark.source] at hk
        exact reads_assign (he.tree value h.2 (show (textOf _).length < k by omega))
      | binding | parameter | program | blank => exact h.elim
      | literal | reference | interpolation | substitution | block | call => cases hs

end

/-- The reader of expressions reads every tree whose text is shorter than the trees may nest. -/
theorem reader_expressionUpTo (k : Nat) : Reader k (expressionUpTo k) := by
  induction k with
  | zero => exact ⟨fun _ _ h => absurd h (Nat.not_lt_zero _), fun _ _ h => absurd h (Nat.not_lt_zero _)⟩
  | succ k ih => exact ih.next

end Parser

end Sigil
