import Sigil.Proofs.Node.Primary

/-!
# Reading commands, calls and operations that were written

The levels of the grammar above the primary expressions, from the arguments of
commands up to whole expressions. What a level reads, the next one reads too,
unless it goes on with what follows; each node is read at the level that it
belongs to, and so at all those above it.
-/

namespace Sigil.Parser

variable {s : Stream} {ps : List Chunk} {expression : Parser Node}

open Chunks

/-! ## Arguments -/

theorem run_peek_bind {α : Type} {f : Token → Parser α} {t : Token} (h : s.Next t) :
    (peek 0 >>= f).run s = (f t).run s := by
  have hp : (peek 0).run s = .ok (t, s) := congrArg (fun r => r >>= fun t => Except.ok (t, s)) h
  rw [StateT.run_bind, hp]
  rfl

theorem Gives.of_run {α : Type} {m k : Parser α} {Q : α → Stream → Prop} (h : Gives m s Q)
    (hmk : m.run s = k.run s) : Gives k s Q := by
  rwa [Gives, ← hmk]

/-- Nothing but a word is read in another way as an argument. -/
theorem gives_argument {Q : Node → Stream → Prop} (hs : s.Says ps)
    (hps : (nextToken ps).isPlainWord = false) (h : Gives (primary expression) s Q) :
    Gives (argument expression) s Q := by
  obtain ⟨t, ht, look⟩ := hs.next
  refine Gives.bind (gives_peek ht ?_)
  have word : t.isPlainWord = false := (Token.isPlainWord_plain t).symm.trans (look ▸ hps)
  rw [if_neg (Bool.eq_false_iff.mp word)]
  split
  · next hd =>
    refine h.of_run ((run_peek_bind ht).trans ?_)
    simp only [Token.isDelimiter, Bool.and_eq_true, decide_eq_true_eq] at hd
    simp only [hd, if_pos]
  · exact h

/-- What is written as an argument starts as arguments do, and with no word. -/
theorem starts_argument {n : Node} (h : n.Spelled) :
    (parens n.standsAsArgument n.chunks).Starts fun t => startsArgument t && !t.isPlainWord := by
  intro spaced
  cases n with
  | literal span value =>
    cases value with
    | unit => exact ⟨_, _, rfl, rfl⟩
    | bool b => cases b <;> exact ⟨_, _, rfl, rfl⟩
    | number n => cases n <;> exact ⟨_, _, rfl, rfl⟩
    | text => exact ⟨_, _, rfl, rfl⟩
    | run => exact h.elim
  | reference span name default => cases default <;> exact ⟨_, _, rfl, rfl⟩
  | _ => exact ⟨_, _, rfl, rfl⟩

section

variable {n : Node} (h : n.Spelled)
  (hp : ReadsTree (primary expression) n (parens n.standsAsArgument n.chunks) fun _ => true)
include h hp

theorem reads_argument :
    ReadsTree (argument expression) n (parens n.standsAsArgument n.chunks) fun _ => true := by
  intro spaced ps s _ hs
  have starts := (starts_argument h).next spaced ps
  simp only [Bool.and_eq_true, Bool.not_eq_true'] at starts
  exact gives_argument hs starts.2 (hp spaced ps s rfl hs)

/-! ## Prefixes of commands -/

variable {key : String} (hname : isName key) (hword : Lexer.isPlainWord key) {spaced : Bool}
  (hs : s.Says (⟨spaced, .word key⟩ :: ⟨false, .operator "="⟩ ::
    (parens n.standsAsArgument n.chunks false ++ ps)))
include hname hword hs

omit hp in
theorem gives_atBinding : Gives atBinding s fun b t => b = true ∧ t = s := by
  obtain ⟨first, hfirst, said, ht, eq, heq, hnext, eq_look, eq_beside⟩ := hs.cons
  obtain ⟨_, hnext', -, -, value, hvalue, -, look, beside⟩ := ht.cons
  cases hnext.symm.trans hnext'
  obtain ⟨m, ms, hm, starts⟩ := starts_argument h false
  simp only [Bool.and_eq_true] at starts
  rw [hm] at look beside
  have word : first.isPlainWord && isName first.lexeme := by
    rw [← Token.isPlainWord_plain, said.plain, isPlainWord_token hword, said.2, hname]
    rfl
  have operator : eq.isOperator "=" && adjacent first eq := by
    rw [← Token.isOperator_plain eq, eq_look, eq_beside _ rfl]
    rfl
  have argument : (adjacent eq value && startsArgument value) = true := by
    rw [← Token.startsArgument_plain, look, beside _ rfl]
    exact starts.1
  refine Gives.bind (gives_peek hfirst ?_)
  rw [if_pos word]
  refine Gives.bind (gives_peek heq ?_)
  rw [if_pos operator]
  exact Gives.bind (gives_peek ((hs.peek_pop hfirst 1).symm.trans hvalue) (Gives.pure ⟨argument, rfl⟩))

omit hname hword in
theorem gives_binding : Gives (binding expression) s fun b t =>
    (b.name, b.value.erase) = (key, n.erase) ∧ t.Says ps := by
  refine Gives.bind ((gives_advance hs).mono fun first t ⟨said, ht, _⟩ => Gives.bind ?_)
  refine (gives_advance ht).mono fun _ u ⟨_, hu, _⟩ => Gives.bind ?_
  refine (reads_argument h hp false ps u rfl hu).mono fun m v ⟨hm, hv⟩ => ?_
  refine Gives.bind (gives_spanFrom fun _ => Gives.pure ⟨?_, hv⟩)
  rw [EnvBinding.name, EnvBinding.value, said.2, hm]

end

/-- Where no operator comes next after a word, there is no prefix. -/
theorem gives_not_atBinding {w : String} {spaced : Bool} (hs : s.Says (⟨spaced, .word w⟩ :: ps))
    (hps : (nextToken ps).isOperator "=" = false) :
    Gives atBinding s fun b t => b = false ∧ t = s := by
  obtain ⟨first, hfirst, -, -, eq, heq, -, look, -⟩ := hs.cons
  refine Gives.bind (gives_peek hfirst ?_)
  split
  · refine Gives.bind (gives_peek heq ?_)
    rw [if_neg]
    · exact Gives.pure ⟨rfl, rfl⟩
    · rw [← Token.isOperator_plain eq, look, hps]
      exact Bool.false_ne_true
  · exact Gives.pure ⟨rfl, rfl⟩

/-! ## Commands -/

theorem spaces_cons (f : Chunks) (fs : List Chunks) (spaced : Bool) :
    spaces (f :: fs) spaced = f spaced ++ spaces fs true := by
  cases fs with
  | nil => rfl
  | cons g fs => rfl

theorem startsExpression_of_startsArgument {t : Token} (h : startsArgument t) :
    startsExpression t := by
  simp only [startsArgument, startsExpression, Bool.or_eq_true, List.any_cons, List.any_nil] at h ⊢
  tauto

theorem not_startsArgument_of_stops {t : Token} (h : stops t) : startsArgument t = false := by
  refine Bool.eq_false_iff.mpr fun starts => ?_
  exact Bool.eq_false_iff.mp (not_startsExpression_of_stops h)
    (startsExpression_of_startsArgument starts)

theorem not_isOperator_of_startsArgument {t : Token} (h : startsArgument t) (o : String) :
    t.isOperator o = false := by
  obtain ⟨content, lexeme, span⟩ := t
  cases content <;> first | rfl | cases h

/-- An argument as it is read. -/
abbrev ReadsArgument (parser : Parser Node) (n : Node) : Prop :=
  ReadsTree parser n (parens n.standsAsArgument n.chunks) fun _ => true

section

variable {args : List Node} (h : Node.SpelledAll args)
  (hp : ∀ n ∈ args, ReadsArgument (primary expression) n) (stop : stops (nextToken ps))

section

include h stop

/-- No operator comes right after the name of a command. -/
theorem not_isOperator_arguments (o : String) :
    (nextToken (spaces (Node.argumentChunks args) true ++ ps)).isOperator o = false := by
  cases args with
  | nil => exact not_isOperator_of_stopsOperand (stopsOperand_of_stops stop) o
  | cons n args =>
    have starts := (starts_argument h.1).next true (spaces (Node.argumentChunks args) true ++ ps)
    rw [Node.argumentChunks, spaces_cons, List.append_assoc]
    exact not_isOperator_of_startsArgument (Bool.and_eq_true _ _ ▸ starts).1 o

/-- No parenthesis comes right after the name of a command. -/
theorem not_isOpen_arguments {t u : Token}
    (look : u.plain = nextToken (spaces (Node.argumentChunks args) true ++ ps))
    (beside : ∀ q ∈ (spaces (Node.argumentChunks args) true ++ ps).head?,
      adjacent t u = !q.spaced) : (u.isDelimiter "(" && adjacent t u) = false := by
  cases args with
  | nil =>
    rw [← Token.isDelimiter_plain, look]
    have := not_isOpen_of_stopsOperand (stopsOperand_of_stops stop)
    simp only [Node.argumentChunks, spaces, List.nil_append, this, Bool.false_and]
  | cons n args =>
    obtain ⟨m, ms, hm, -⟩ := starts_argument h.1 true
    rw [Node.argumentChunks, spaces_cons, hm] at beside
    rw [beside _ rfl]
    exact Bool.and_false _

end

include h hp stop in
theorem gives_arguments (hs : s.Says (spaces (Node.argumentChunks args) true ++ ps)) :
    Gives (arguments expression) s
      fun as t => as.map Node.erase = args.map Node.erase ∧ t.Says ps := by
  refine gives_many (k := Node.erase) (Q := fun t => t.Says ps) (P := fun cs t =>
    ∃ ns, ns.map Node.erase = cs ∧ Node.SpelledAll ns ∧
      (∀ n ∈ ns, ReadsArgument (primary expression) n) ∧
      t.Says (spaces (Node.argumentChunks ns) true ++ ps))
    (fun t ht => ?_) (fun c cs t ht => ?_) ⟨args, rfl, h, hp, hs⟩
  · obtain ⟨ns, hns, -, -, ht⟩ := ht
    cases List.map_eq_nil_iff.mp hns
    refine Gives.bind (gives_tested Token.startsArgument_plain ht fun u hu => ?_)
    rw [if_neg (Bool.eq_false_iff.mp (hu.trans (not_startsArgument_of_stops stop)))]
    exact Gives.pure ⟨rfl, ht⟩
  · obtain ⟨ns, hns, h, hp, ht⟩ := ht
    obtain ⟨n, ns, rfl, rfl, rfl⟩ := List.map_eq_cons_iff.mp hns
    obtain ⟨hn, hp⟩ := List.forall_mem_cons.mp hp
    rw [Node.argumentChunks, spaces_cons, List.append_assoc] at ht
    have starts := (starts_argument h.1).next true (spaces (Node.argumentChunks ns) true ++ ps)
    refine Gives.bind (gives_tested Token.startsArgument_plain ht fun u hu => ?_)
    rw [if_pos (hu.trans (Bool.and_eq_true _ _ ▸ starts).1)]
    refine Gives.bind ((reads_argument h.1 hn true _ t rfl ht).mono fun m v ⟨hm, hv⟩ => ?_)
    refine Gives.pure ⟨m, rfl, hm, ?_, ns, rfl, h.2, hp, hv⟩
    obtain ⟨first, more, hfirst, -⟩ := starts_argument h.1 true
    have before := ht.length
    have after := hv.length
    rw [hfirst, List.cons_append, List.length_cons, List.length_append] at before
    omega

/-- What a prefix says. -/
def sayBinding (b : EnvBinding) : String × Node :=
  (b.name, b.value.erase)

theorem eraseBindings_congr {bs cs : List EnvBinding} (h : bs.map sayBinding = cs.map sayBinding) :
    Node.eraseBindings bs = Node.eraseBindings cs := by
  have erased (bs : List EnvBinding) : Node.eraseBindings bs =
      (bs.map sayBinding).map fun b => .mk none b.1 b.2 := by
    induction bs with
    | nil => rfl
    | cons b bs ih =>
      obtain ⟨span, name, value⟩ := b
      rw [Node.eraseBindings, ih]
      rfl
  rw [erased, erased, h]

theorem gives_prefixes {env : List EnvBinding} {name : String} {spaced : Bool}
    (henv : Node.SpelledBindings env) (h : Node.SpelledAll args) (stop : stops (nextToken ps))
    (hvalues : ∀ b ∈ env, ReadsArgument (primary expression) b.value)
    (hs : s.Says (spaces (Node.bindingChunks env ++ single (.word name) ::
      Node.argumentChunks args) spaced ++ ps)) :
    Gives (prefixes expression) s
      fun bs t => bs.map sayBinding = env.map sayBinding ∧
        ∃ sp, t.Says (⟨sp, .word name⟩ :: (spaces (Node.argumentChunks args) true ++ ps)) := by
  refine gives_many (k := sayBinding) (P := fun cs t =>
    ∃ bs sp, bs.map sayBinding = cs ∧ Node.SpelledBindings bs ∧
      (∀ b ∈ bs, ReadsArgument (primary expression) b.value) ∧
      t.Says (spaces (Node.bindingChunks bs ++ single (.word name) ::
        Node.argumentChunks args) sp ++ ps))
    (fun t ht => ?_) (fun c cs t ht => ?_) ⟨env, spaced, rfl, henv, hvalues, hs⟩
  · obtain ⟨bs, sp, hbs, -, -, ht⟩ := ht
    cases List.map_eq_nil_iff.mp hbs
    rw [Node.bindingChunks, List.nil_append, spaces_cons, List.append_assoc] at ht
    exact Gives.no (gives_not_atBinding ht (not_isOperator_arguments h stop "=")) rfl
      (Gives.pure ⟨rfl, sp, ht⟩)
  · obtain ⟨bs, sp, hbs, henv, hvalues, ht⟩ := ht
    obtain ⟨b, bs, rfl, rfl, rfl⟩ := List.map_eq_cons_iff.mp hbs
    obtain ⟨span, key, value⟩ := b
    obtain ⟨hvalue, hvalues⟩ := List.forall_mem_cons.mp hvalues
    rw [Node.bindingChunks, List.cons_append, spaces_cons, List.cons_append, List.cons_append,
      List.append_assoc] at ht
    refine Gives.yes (gives_atBinding henv.2.1 henv.1.1 henv.1.2 ht) rfl (Gives.bind ?_)
    refine (gives_binding henv.2.1 hvalue ht).mono fun c u ⟨hc, hu⟩ => Gives.pure ?_
    refine ⟨c, rfl, hc, ?_, bs, true, rfl, henv.2.2, hvalues, hu⟩
    have before := ht.length
    have after := hu.length
    rw [List.length_cons, List.length_append] at before
    omega

theorem starts_command {env : List EnvBinding} {name : String} {span : Option Span}
    (h : (Node.command span env name args).Spelled) :
    (Node.command span env name args).chunks.Starts Token.isPlainWord := by
  intro spaced
  cases env with
  | nil => exact ⟨_, _, rfl, isPlainWord_token h.1⟩
  | cons b env =>
    obtain ⟨span, key, value⟩ := b
    exact ⟨_, _, rfl, isPlainWord_token h.2.1.1.2⟩

theorem reads_command {env : List EnvBinding} {name : String} {span : Option Span}
    (h : (Node.command span env name args).Spelled)
    (hvalues : ∀ b ∈ env, ReadsArgument (primary expression) b.value)
    (hargs : ∀ n ∈ args, ReadsArgument (primary expression) n) :
    ReadsTree (application expression) (.command span env name args)
      (Node.command span env name args).chunks stops := by
  intro spaced ps s stop hs
  rw [application_eq]
  have starts := (starts_command h).next spaced ps
  refine Gives.bind (gives_tested Token.isPlainWord_plain hs fun t ht => ?_)
  rw [if_pos (ht.trans starts)]
  refine Gives.bind ((gives_prefixes h.2.1 h.2.2 stop hvalues hs).mono fun bs u hu => ?_)
  obtain ⟨hbs, sp, hu⟩ := hu
  refine Gives.bind (gives_tested Token.isPlainWord_plain hu fun v hv => ?_)
  rw [if_pos (by rw [hv.trans (isPlainWord_token h.1), Bool.or_true])]
  refine Gives.bind ((gives_advance hu).mono fun called w ⟨⟨_, lexeme⟩, hw, beside⟩ => ?_)
  refine Gives.bind (gives_next hw fun next hnext look => ?_)
  have closed := not_isOpen_arguments h.2.2 stop look (beside next hnext)
  rw [if_neg (Bool.eq_false_iff.mp closed)]
  refine Gives.bind ((gives_arguments h.2.2 hargs stop hw).mono fun as x ⟨has, hx⟩ => ?_)
  refine Gives.bind (gives_spanFrom fun _ => Gives.pure ⟨?_, hx⟩)
  simp only [Node.erase, Node.eraseAll_eq_map, has, eraseBindings_congr hbs, lexeme]

end

/-! ## Calls -/

theorem reads_application {n : Node} {f : Chunks} {stop : Token → Bool}
    (h : ReadsTree (primary expression) n f stop) (hf : f.Starts fun t => !t.isPlainWord) :
    ReadsTree (application expression) n f stop := by
  intro spaced ps s hps hs
  have starts := hf.next spaced ps
  refine Gives.bind (gives_tested Token.isPlainWord_plain hs fun t ht => ?_)
  rw [if_neg (Bool.eq_false_iff.mp (ht.trans ((Bool.not_eq_true' _).mp starts)))]
  exact h spaced ps s hps hs

theorem gives_callArguments {args : List Node} (h : Node.SpelledAll args)
    (he : ∀ n ∈ args, ReadsTree expression n n.chunks stops)
    (hs : s.Says (listed (args.map Node.chunks) ++ ps)) :
    Gives (callArguments expression) s fun as t =>
      as.map Node.erase = args.map Node.erase ∧ t.Says ps := by
  simp only [listed, List.cons_append, List.append_assoc, List.nil_append] at hs
  refine Gives.bind ((gives_delimiter hs).mono fun _ t ht => ?_)
  refine gives_listed (forall₂_map he) (fun f hf => ?_) ht fun as u has hu => ?_
  · obtain ⟨n, hn, rfl⟩ := List.mem_map.mp hf
    refine (Node.starts_chunks (Node.spelledAll_iff.mp h n hn)).mono fun t starts => ?_
    rw [not_isDelimiter_of_startsExpression starts (by decide)]
    rfl
  · exact Gives.bind ((gives_delimiter hu).mono fun _ v hv => Gives.pure ⟨has, hv⟩)

/-- The step of the loop over calls. -/
def nextCall (expression : Parser Node) (start : Token) (callee : Node) :
    Parser (Option Node) := do
  if ← atDelimiter "(" then
    let args ← callArguments expression
    return some (.call (← spanFrom start) callee args)
  else return none

/-- The tokens are read as what may be called: the loop over calls goes on from there. -/
def ReadsCallee (expression : Parser Node) (n : Node) (f : Chunks) (stop : Token → Bool) : Prop :=
  ∀ spaced ps s start Q, stop (nextToken ps) → s.Says (f spaced ++ ps) →
    (∀ m t, m.erase = n.erase → t.Says ps → Rounds (nextCall expression start) Q m t) →
    Gives (application expression) s fun m t => Rounds (nextCall expression start) Q m t

theorem readsCallee_of_application {n : Node} {f : Chunks} {stop : Token → Bool}
    (h : ReadsTree (application expression) n f stop) : ReadsCallee expression n f stop :=
  fun spaced ps s _ _ hps hs hQ =>
    (h spaced ps s hps hs).mono fun m t ⟨hm, ht⟩ => hQ m t hm ht

theorem readsCallee_call {span : Option Span} {callee : Node} {args : List Node} {f : Chunks}
    (hcallee : ReadsCallee expression callee f fun _ => true) (h : Node.SpelledAll args)
    (he : ∀ n ∈ args, ReadsTree expression n n.chunks stops) :
    ReadsCallee expression (.call span callee args)
      (fun spaced => f spaced ++ listed (args.map Node.chunks)) fun _ => true := by
  intro spaced ps s start Q _ hs hQ
  simp only [List.append_assoc] at hs
  refine hcallee spaced _ s start Q rfl hs fun m t hm ht => Rounds.more ?_
  refine Gives.yes (gives_atDelimiter ht) rfl (Gives.bind ?_)
  refine (gives_callArguments h he ht).mono fun as u ⟨has, hu⟩ => Gives.bind (gives_spanFrom ?_)
  refine fun span => Gives.pure ⟨_, rfl, ?_, hQ _ u ?_ hu⟩
  · have before := ht.length
    have after := hu.length
    rw [listed, List.cons_append, List.length_cons, List.append_assoc, List.length_append,
      List.length_append] at before
    omega
  · simp only [Node.erase, Node.eraseAll_eq_map, hm, has]

theorem reads_postfixCalls {n : Node} {f : Chunks} {stop : Token → Bool}
    (h : ReadsCallee expression n f stop) (hstop : ∀ t, stop t → t.isDelimiter "(" = false) :
    ReadsTree (postfixCalls expression) n f stop := by
  intro spaced ps s hps hs
  refine Gives.bind (gives_next hs fun start _ _ => Gives.bind ?_)
  refine (h spaced ps s start _ hps hs fun m t hm ht => Rounds.done ?_).mono
    fun m t => gives_iterate
  exact Gives.no (gives_atDelimiter ht) (hstop _ hps) (Gives.pure ⟨rfl, hm, ht⟩)

/-! ## Signs -/

/-- Whether a token is a sign. -/
def isSign (t : Token) : Bool :=
  t.isOperator "-" || t.isOperator "!"

theorem symbol_sign {op : UnaryOperator} (h : op ∈ [.not, .neg]) :
    op.symbol ∈ ["-", "!"] ∧ UnaryOperator.ofSymbol op.symbol = op := by
  revert op
  decide

/-- Signs, and after them what starts with none. -/
theorem gives_signs (signs : List String) (spaced : Bool) (h : ∀ o ∈ signs, o ∈ ["-", "!"])
    (hps : isSign (nextToken ps) = false)
    (hs : s.Says (signs.map (⟨spaced, .operator ·⟩) ++ ps)) :
    Gives (many do
      if (← atOperator "-") || (← atOperator "!") then return some (← advance) else return none) s
      fun as t => as.map (·.lexeme) = signs ∧ t.Says ps := by
  refine gives_many (k := fun t : Token => t.lexeme) (Q := fun t => t.Says ps)
    (P := fun signs t => (∀ o ∈ signs, o ∈ ["-", "!"]) ∧
      t.Says (signs.map (⟨spaced, .operator ·⟩) ++ ps))
    (fun t ⟨_, ht⟩ => ?_) (fun o signs t ⟨h, ht⟩ => ?_) ⟨h, hs⟩
  · refine Gives.tested (gives_atOperator ht) (Gives.tested (gives_atOperator ht) ?_)
    change Gives (if isSign (nextToken ps) then _ else _) t _
    rw [if_neg (Bool.eq_false_iff.mp hps)]
    exact Gives.pure ⟨rfl, ht⟩
  · obtain ⟨ho, h⟩ := List.forall_mem_cons.mp h
    rw [List.map_cons, List.cons_append] at ht
    have sign : isSign (Mark.operator o).token := by
      simp only [List.mem_cons, List.not_mem_nil, or_false] at ho
      rcases ho with rfl | rfl <;> rfl
    refine Gives.tested (gives_atOperator ht) (Gives.tested (gives_atOperator ht) ?_)
    change Gives (if isSign (Mark.operator o).token then _ else _) t _
    rw [if_pos sign]
    refine Gives.bind ((gives_advance ht).mono fun u v ⟨⟨_, lexeme⟩, hv, _⟩ => Gives.pure ?_)
    refine ⟨u, rfl, lexeme, ?_, h, hv⟩
    rw [ht.length, hv.length, List.length_cons]
    omega

section

variable {n : Node} {f : Chunks} {stop : Token → Bool}
  (h : ReadsTree (postfixCalls expression) n f stop) (hf : f.Starts fun t => !isSign t)
include h hf

theorem reads_signed : ReadsTree (signed expression) n f stop := by
  intro spaced ps s hps hs
  have starts := (Bool.not_eq_true' _).mp (hf.next spaced ps)
  refine Gives.bind ((gives_signs [] true nofun starts hs).mono ?_)
  rintro as t ⟨has, ht⟩
  cases List.map_eq_nil_iff.mp has
  refine Gives.bind ((h spaced ps t hps ht).mono fun m u hm => Gives.pure hm)

theorem reads_unary {span : Option Span} {op : UnaryOperator} (hop : op ∈ [.not, .neg]) :
    ReadsTree (signed expression) (.unary span op n)
      (fun spaced => ⟨spaced, .operator op.symbol⟩ :: f false) stop := by
  intro spaced ps s hps hs
  have starts := (Bool.not_eq_true' _).mp (hf.next false ps)
  have sign := symbol_sign hop
  refine Gives.bind ((gives_signs [op.symbol] spaced ?_ starts hs).mono ?_)
  · exact fun o ho => List.mem_singleton.mp ho ▸ sign.1
  rintro as t ⟨has, ht⟩
  obtain ⟨u, us, rfl, lexeme, hus⟩ := List.map_eq_cons_iff.mp has
  cases List.map_eq_nil_iff.mp hus
  refine Gives.bind ((h false ps t hps ht).mono fun m v ⟨hm, hv⟩ => ?_)
  rw [List.foldrM_cons, List.foldrM_nil]
  refine Gives.bind (Gives.pure (Gives.bind (gives_spanFrom fun _ => Gives.pure ⟨?_, hv⟩)))
  simp only [Node.erase, lexeme, sign.2, hm]

end

/-! ## Operators -/

/-- Whether a token is one of several operators. -/
def isOneOf (ops : List BinaryOperator) (t : Token) : Bool :=
  ops.any fun op => t.isOperator op.symbol

/-- Whether an operand ends before a token, if these operators are taken as well. -/
def clear (ops : List BinaryOperator) (t : Token) : Bool :=
  !t.isDelimiter "(" && !isOneOf ops t

theorem isOneOf_append {ops others : List BinaryOperator} {t : Token} :
    isOneOf (ops ++ others) t = (isOneOf ops t || isOneOf others t) :=
  List.any_append

theorem clear_append {ops others : List BinaryOperator} {t : Token}
    (h : clear (ops ++ others) t) : clear ops t ∧ isOneOf others t = false := by
  simp only [clear, isOneOf_append, Bool.and_eq_true, Bool.not_eq_true', Bool.or_eq_false_iff] at h ⊢
  tauto

theorem isOneOf_token {ops : List BinaryOperator} {op : BinaryOperator} (h : op ∈ ops) :
    isOneOf ops (Mark.operator op.symbol).token :=
  List.any_eq_true.mpr ⟨op, h, by simp [Mark.token, Token.isOperator]⟩

theorem gives_atOneOf {ops : List BinaryOperator} (hs : s.Says ps) :
    Gives (atOneOf ops) s fun b t => b = isOneOf ops (nextToken ps) ∧ t = s := by
  refine gives_test (fun t => ?_) hs
  simp only [Token.isOperator_plain]

/-- The tokens of an operation. -/
def infixChunks (op : BinaryOperator) (f g : Chunks) : Chunks := fun spaced =>
  f spaced ++ ⟨true, .operator op.symbol⟩ :: g true

/-- A level of operators: it reads what its operands are read as, and operations with them. -/
structure Level (ops : List BinaryOperator) (level : Parser Node → Parser Node) : Prop where
  pass : ∀ {operand : Parser Node} {n : Node} {f : Chunks} {stop : Token → Bool},
    ReadsTree operand n f stop → (∀ t, stop t → isOneOf ops t = false) →
    ReadsTree (level operand) n f stop
  binary : ∀ {operand : Parser Node} {span : Option Span} {op : BinaryOperator} {left right : Node}
    {f g : Chunks} {tight : List BinaryOperator}, op ∈ BinaryOperator.all → op ∈ ops →
    clear tight (Mark.operator op.symbol).token → ReadsTree operand left f (clear tight) →
    ReadsTree operand right g (clear tight) →
    ReadsTree (level operand) (.binary span op left right) (infixChunks op f g)
      (clear (tight ++ ops))

theorem Level.pass_clear {ops tight : List BinaryOperator} {level : Parser Node → Parser Node}
    {operand : Parser Node} {n : Node} {f : Chunks} (hl : Level ops level)
    (h : ReadsTree operand n f (clear tight)) :
    ReadsTree (level operand) n f (clear (tight ++ ops)) :=
  hl.pass (Reads.mono h fun _ ht => (clear_append ht).1) fun _ ht => (clear_append ht).2

theorem level_chain (ops : List BinaryOperator) : Level ops (chain ops) where
  pass h hstop := by
    intro spaced ps s hps hs
    refine Gives.bind (gives_next hs fun start _ _ => Gives.bind ?_)
    refine (h spaced ps s hps hs).mono fun m t ⟨hm, ht⟩ => gives_iterate (Rounds.done ?_)
    exact Gives.no (gives_atOneOf ht) (hstop _ hps) (Gives.pure ⟨rfl, hm, ht⟩)
  binary hop hops hclear hl hr := by
    intro spaced ps s hps hs
    obtain ⟨tight, loose⟩ := clear_append hps
    simp only [infixChunks, List.append_assoc, List.cons_append] at hs
    refine Gives.bind (gives_next hs fun start _ _ => Gives.bind ?_)
    refine (hl spaced (⟨true, .operator _⟩ :: _) s hclear hs).mono fun m t ⟨hm, ht⟩ => gives_iterate (Rounds.more ?_)
    refine Gives.yes (gives_atOneOf ht) (isOneOf_token hops) (Gives.bind ?_)
    refine (gives_advance ht).mono fun u v ⟨⟨_, lexeme⟩, hv, _⟩ => Gives.bind ?_
    refine (hr true ps v tight hv).mono fun k w ⟨hk, hw⟩ => Gives.bind (gives_spanFrom fun _ => ?_)
    refine Gives.pure ⟨_, rfl, ?_, Rounds.done ?_⟩
    · have before := ht.length
      have after := hw.length
      rw [List.length_cons, List.length_append] at before
      omega
    · refine Gives.no (gives_atOneOf hw) loose (Gives.pure ⟨rfl, ?_, hw⟩)
      simp only [Node.erase, lexeme, BinaryOperator.ofSymbol_symbol hop, hm, hk]

theorem level_comparison : Level comparisons comparison where
  pass h hstop := by
    intro spaced ps s hps hs
    refine Gives.bind (gives_next hs fun start _ _ => Gives.bind ?_)
    refine (h spaced ps s hps hs).mono fun m t ⟨hm, ht⟩ => ?_
    exact Gives.no (gives_atOneOf ht) (hstop _ hps) (Gives.pure ⟨hm, ht⟩)
  binary hop hops hclear hl hr := by
    intro spaced ps s hps hs
    obtain ⟨tight, loose⟩ := clear_append hps
    simp only [infixChunks, List.append_assoc, List.cons_append] at hs
    refine Gives.bind (gives_next hs fun start _ _ => Gives.bind ?_)
    refine (hl spaced (⟨true, .operator _⟩ :: _) s hclear hs).mono fun m t ⟨hm, ht⟩ => ?_
    refine Gives.yes (gives_atOneOf ht) (isOneOf_token hops) (Gives.bind ?_)
    refine (gives_advance ht).mono fun u v ⟨⟨_, lexeme⟩, hv, _⟩ => Gives.bind ?_
    refine (hr true ps v tight hv).mono fun k w ⟨hk, hw⟩ => Gives.bind (gives_spanFrom fun _ => ?_)
    refine Gives.no (gives_atOneOf hw) loose (Gives.pure ⟨?_, hw⟩)
    simp only [Node.erase, lexeme, BinaryOperator.ofSymbol_symbol hop, hm, hk]

section

variable {operand : Parser Node}

theorem not_isOneOf_of_stopsOperand (ops : List BinaryOperator) {t : Token}
    (h : stopsOperand t) : isOneOf ops t = false := by
  simp [isOneOf, not_isOperator_of_stopsOperand h]

theorem reads_operation {n : Node} {f : Chunks} {stop : Token → Bool}
    (h : ReadsTree operand n f stop) (hstop : ∀ t, stop t → stopsOperand t) :
    ReadsTree (operation operand) n f stop := by
  have loose (ops : List BinaryOperator) (t : Token) (ht : stop t) : isOneOf ops t = false :=
    not_isOneOf_of_stopsOperand ops (hstop t ht)
  exact (level_chain _).pass ((level_chain _).pass (level_comparison.pass ((level_chain _).pass
    ((level_chain _).pass h (loose _)) (loose _)) (loose _)) (loose _)) (loose _)

theorem reads_binary {span : Option Span} {op : BinaryOperator} {left right : Node} {f g : Chunks}
    (hop : op ∈ BinaryOperator.all) (hl : ReadsTree operand left f (clear []))
    (hr : ReadsTree operand right g (clear [])) :
    ReadsTree (operation operand) (.binary span op left right) (infixChunks op f g)
      stopsOperand := by
  have clear_of_stopsOperand (ops : List BinaryOperator) (t : Token) (h : stopsOperand t) :
      clear ops t := by
    rw [clear, not_isOpen_of_stopsOperand h, not_isOneOf_of_stopsOperand ops h]
    rfl
  have result {ops : List BinaryOperator} (h : ReadsTree (operation operand)
      (.binary span op left right) (infixChunks op f g) (clear ops)) :
      ReadsTree (operation operand) (.binary span op left right) (infixChunks op f g)
        stopsOperand :=
    Reads.mono h (clear_of_stopsOperand ops)
  have products := level_chain [.mul, .div, .mod]
  have sums := level_chain [.add, .sub]
  have ands := level_chain [.and]
  have ors := level_chain [.or]
  have sums_l := products.pass_clear hl
  have sums_r := products.pass_clear hr
  have comparisons_l := sums.pass_clear sums_l
  have comparisons_r := sums.pass_clear sums_r
  have ands_l := level_comparison.pass_clear comparisons_l
  have ands_r := level_comparison.pass_clear comparisons_r
  have ors_l := ands.pass_clear ands_l
  have ors_r := ands.pass_clear ands_r
  cases op with
  | mul | div | mod =>
    exact result (ors.pass_clear (ands.pass_clear (level_comparison.pass_clear (sums.pass_clear
      (products.binary hop (by decide) rfl hl hr)))))
  | add | sub =>
    exact result (ors.pass_clear (ands.pass_clear (level_comparison.pass_clear
      (sums.binary hop (by decide) rfl sums_l sums_r))))
  | equal | unequal | less | lessEqual | greater | greaterEqual =>
    exact result (ors.pass_clear (ands.pass_clear
      (level_comparison.binary hop (by decide) rfl comparisons_l comparisons_r)))
  | and => exact result (ors.pass_clear (ands.binary hop (by decide) rfl ands_l ands_r))
  | or => exact result (ors.binary hop (by decide) rfl ors_l ors_r)
  | other => exact absurd hop (by simp [BinaryOperator.all])

end

/-! ## Expressions -/

/-- What comes next is not the name of an assignment. -/
def NoTarget : List Chunk → Prop
  | ⟨_, .variable _⟩ :: ps => (nextToken ps).isOperator "=" = false
  | _ => True

/-- An expression that is neither a definition nor an assignment. -/
theorem gives_expression {Q : Node → Stream → Prop} {p : Chunk} (hs : s.Says (p :: ps))
    (hlet : p.mark.token.isKeyword "let" = false) (htarget : NoTarget (p :: ps))
    (h : Gives (operation (signed expression)) s Q) : Gives (expressionWith expression) s Q := by
  obtain ⟨t, ht, said, -, u, hu, -, look, -⟩ := hs.cons
  refine Gives.bind (gives_peek ht ?_)
  have keyword : t.isKeyword "let" = false := by
    rw [← Token.isKeyword_plain, said.plain, hlet]
  rw [if_neg (Bool.eq_false_iff.mp keyword)]
  split
  · next name content =>
    refine Gives.bind (gives_peek hu ?_)
    obtain ⟨spaced, mark⟩ := p
    have target : u.isOperator "=" = false := by
      rw [← Token.isOperator_plain, look]
      cases mark with
      | «variable» => exact htarget
      | _ => simp [Token.Says, content] at said
    rw [if_neg (Bool.eq_false_iff.mp target)]
    exact h
  · exact h

theorem reads_expression {n : Node} {f : Chunks} {stop : Token → Bool}
    (h : ReadsTree (operation (signed expression)) n f stop)
    (hlet : f.Starts fun t => !t.isKeyword "let")
    (htarget : ∀ spaced ps, stop (nextToken ps) → NoTarget (f spaced ++ ps)) :
    ReadsTree (expressionWith expression) n f stop := by
  intro spaced ps s hps hs
  obtain ⟨m, ms, hm, starts⟩ := hlet spaced
  have target := htarget spaced ps hps
  have reads := h spaced ps s hps hs
  rw [hm] at hs target
  exact gives_expression hs ((Bool.not_eq_true' _).mp starts) target reads

theorem reads_define {span : Option Span} {name : String} {declared : Option Ty} {value : Node}
    (h : (Node.define span name declared value).Spelled)
    (he : ReadsTree expression value value.chunks stops) :
    ReadsTree (expressionWith expression) (.define span name declared value)
      (Node.define span name declared value).chunks stops := by
  intro spaced ps s stop hs
  refine Gives.bind (gives_first hs fun t ⟨content, lexeme⟩ => ?_)
  rw [if_pos (by rw [Token.isKeyword, content, lexeme]; rfl)]
  exact gives_define h he stop hs

theorem reads_assign {span : Option Span} {name : String} {value : Node}
    (he : ReadsTree expression value value.chunks stops) :
    ReadsTree (expressionWith expression) (.assign span name value)
      (Node.assign span name value).chunks stops := by
  intro spaced ps s stop hs
  simp only [Node.chunks, List.cons_append] at hs
  obtain ⟨t, ht, content, -, u, hu, -, look, -⟩ := hs.cons
  replace content : t.content = .variable name := content
  refine Gives.bind (gives_peek ht ?_)
  rw [if_neg (by simp [Token.isKeyword, content])]
  simp only [content]
  refine Gives.bind (gives_peek hu ?_)
  have target : u.isOperator "=" := by
    rw [← Token.isOperator_plain, look]
    rfl
  rw [if_pos target]
  refine Gives.bind ((gives_advance hs).mono fun _ v hv => Gives.bind ?_)
  refine (gives_advance hv.2.1).mono fun _ w hw => Gives.bind ?_
  refine (he true ps w stop hw.2.1).mono fun m x hm => Gives.bind (gives_spanFrom fun _ => ?_)
  exact Gives.pure ⟨by simp only [Node.erase, hm.1], hm.2⟩

end Sigil.Parser
