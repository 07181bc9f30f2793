import Sigil.Proofs.Node.FinishingExpressions
import Sigil.Proofs.Node.Followed

/-!
# Expressions before a parenthesis or a comma

The pieces of the grammar are taken one by one, given that the reader of the
expressions within them persists: what is read up to the end of a text is read
before a closing parenthesis or a comma (`Parser.expressionUpTo_persists`).
-/

namespace Sigil.Parser

variable {mark : Token} {rest : List Token} {expression : Parser Node} {s t : Stream}

theorem Follows.refl {α : Type} (p : Parser α) (s : Stream) :
    Follows p p s s fun a b u v => b = a ∧ v = u :=
  fun a u ha => ⟨a, u, ha, rfl, rfl⟩

/-! ## Strings -/

/-- The parts of a string have what they are read from in them. -/
theorem stringPart_anywhere (p : StringPart) :
    Follows (stringPart expression p) (stringPart expression p) s t fun a b u v =>
      b = a ∧ u = s ∧ v = t := by
  cases p with
  | text s => exact .pure ⟨rfl, rfl, rfl⟩
  | «variable» name default span => exact .pure ⟨rfl, rfl, rfl⟩
  | substitution inside span =>
    refine .bind (.nested (.mono (.refl (program expression) _) ?_))
    rintro ⟨place, body⟩ _ u v ⟨rfl, -⟩
    exact .pure ⟨rfl, rfl, rfl⟩

theorem stringParts_anywhere (ps : List StringPart) :
    Follows (ps.mapM (stringPart expression)) (ps.mapM (stringPart expression)) s t fun a b u v =>
      b = a ∧ u = s ∧ v = t := by
  induction ps with
  | nil => exact .pure ⟨rfl, rfl, rfl⟩
  | cons p ps ih =>
    rw [List.mapM_cons]
    refine .bind (.mono (stringPart_anywhere p) ?_)
    rintro x _ _ _ ⟨rfl, rfl, rfl⟩
    refine .bind (.mono ih ?_)
    rintro xs _ _ _ ⟨rfl, rfl, rfl⟩
    exact .pure ⟨rfl, rfl, rfl⟩

theorem string_persists (span : Span) (ps : List StringPart) :
    Persists mark rest (string expression span ps) (string expression span ps) := by
  intro s t h
  rw [string_eq]
  split_ifs
  · exact .pure ⟨rfl, h⟩
  · refine .bind (.mono (stringParts_anywhere ps) ?_)
    rintro xs _ _ _ ⟨rfl, rfl, rfl⟩
    exact .pure ⟨rfl, h⟩

/-! ## Entries -/

/-- A node with the span of what was read for it. -/
theorem made_persists (start : Token) (f : Option Span → Node) :
    Persists mark rest (do return f (← spanFrom start)) (do return f (← spanFrom start)) :=
  .bind (.spanFrom start) fun span => .pure (f span)

section

variable (ends : mark.endsExpression)
include ends

theorem skipSemicolons_persists : Persists mark rest skipSemicolons skipSemicolons := by
  refine .bind (many_persists ?_) fun _ => .pure ()
  refine ask_persists (Token.blind_delimiter ends (by decide)) (fun x s t live _ => ?_) (.pure none)
  exact take_live live (.pure (some x))

/-- The end of an entry that a mark closes. The mark behind the expression may be taken for it, but
then the entry ends with a brace and needs no mark. -/
theorem endEntry_persists (d : String) :
    Persists mark rest (endEntry (some d)) (endEntry (some d)) := by
  refine ask_persists (Token.blind_delimiter ends (by decide))
    (fun x s t live _ => take_live live (.pure ())) fun s t h => ?_
  have brace : Follows
      (do if (← get).previous.any (·.isDelimiter "\x7d") then return ()
          else unexpected (.endOfEntry (some d)))
      (do if (← get).previous.any (·.isDelimiter "\x7d") then return ()
          else unexpected (.endOfEntry (some d)))
      s t fun _ _ u v => u = s ∧ v = t := by
    refine .bind (.get (h.previous ▸ ?_))
    split_ifs
    · exact .pure ⟨rfl, rfl⟩
    · exact .unexpected
  rcases h.cases with ⟨ended, ahead⟩ | ⟨x, live⟩
  · obtain ⟨e, he, hend⟩ := ended.next
    have seen : Follows (atDelimiter d) (atDelimiter d) s t fun b _ u v =>
        b = false ∧ u = s ∧ v = t :=
      .peeked he (Stream.next_of_ahead ahead)
        (.pure ⟨(finds_isDelimiter d).ends e hend, rfl, rfl⟩)
    refine .bind (seen.mono ?_)
    rintro _ closed _ _ ⟨rfl, rfl, rfl⟩
    cases closed with
    | false =>
      refine brace.mono ?_
      rintro _ _ _ _ ⟨rfl, rfl⟩
      exact ⟨rfl, h⟩
    | true =>
      intro _ u hu
      obtain ⟨-, -, -, rfl, -⟩ := brace _ u hu
      exact ⟨(), _, rfl, rfl, h⟩
  · refine ask_live live ?_
    split_ifs
    · exact .pure ⟨rfl, h⟩
    · refine brace.mono ?_
      rintro _ _ _ _ ⟨rfl, rfl⟩
      exact ⟨rfl, h⟩

end

section

variable (ends : mark.endsExpression) (he : Persists mark rest expression expression)
  (stalls : Stalls expression)
include ends he stalls

theorem entries_persists (d : String) :
    Persists mark rest (entries expression (some d)) (entries expression (some d)) := by
  have here : Persists mark rest (entryHere expression (some d)) (entryHere expression (some d)) := by
    refine .of_live ((finds_isDelimiter d).stalls stalls.bind) fun x s t live => ask_live live ?_
    split_ifs
    · exact .pure ⟨rfl, live.toFollowed⟩
    · refine Persists.bind he (fun n => ?_) s t live.toFollowed
      exact .bind (endEntry_persists ends d) fun _ => .pure (some n)
  exact many_persists (.bind (skipSemicolons_persists ends) fun _ => here)

/-! ## Primary expressions -/

theorem substitution_persists :
    Persists mark rest (substitution expression) (substitution expression) :=
  .bind (delimiter_persists "$(") fun start => .bind (entries_persists ends he stalls ")") fun _ =>
    .bind (delimiter_persists ")") fun _ => made_persists start _

omit ends in
theorem parenthesized_persists :
    Persists mark rest (parenthesized expression) (parenthesized expression) := by
  refine .bind (delimiter_persists "(") fun start => .of_live
    ((finds_isDelimiter ")").stalls stalls.bind) fun x s t live => ask_live live ?_
  split_ifs
  · exact take_live live (made_persists start fun span => .literal span .unit)
  · refine Persists.bind he (fun n => ?_) s t live.toFollowed
    exact .bind (delimiter_persists ")") fun _ => .pure n

theorem block_persists : Persists mark rest (block expression) (block expression) :=
  .bind (delimiter_persists "\x7b") fun start => .bind (entries_persists ends he stalls "\x7d")
    fun body => .bind (delimiter_persists "\x7d") fun _ => .bind (.spanFrom start) fun span =>
      .pure (span, body)

theorem blockNode_persists : Persists mark rest (blockNode expression) (blockNode expression) :=
  .bind (block_persists ends he stalls) fun r => .pure (Node.block r.1 r.2)

omit stalls in
theorem elseBranch_persists (start : Token) (condition n : Node) :
    Persists mark rest (elseBranch expression start condition n)
      (elseBranch expression start condition n) := by
  refine ask_persists (Token.blind_keyword ends "else") (fun x s t live _ => ?_) ?_
  · exact take_live live (.bind he fun other => .bind (.pure (some other)) fun _ =>
      made_persists start _)
  · exact .bind (.pure none) fun _ => made_persists start _

theorem conditional_persists :
    Persists mark rest (conditional expression) (conditional expression) := by
  refine .bind (keyword_persists "if") fun start => .bind he fun condition => .of_live
    ((finds_isKeyword "then").stalls ((finds_isDelimiter "\x7b").stalls stalls_unexpected.bind))
    fun x s t live => ask_live live (ask_live live ?_)
  split_ifs
  · exact take_live live (.bind he fun n => elseBranch_persists ends he start condition n)
  · exact Persists.bind (blockNode_persists ends he stalls)
      (fun n => elseBranch_persists ends he start condition n) s t live.toFollowed
  · exact .bind .unexpected

omit he stalls in
theorem parameter_persists : Persists mark rest parameter parameter := by
  refine .of_live stalls_parameter fun x s t live => peek_live live ?_
  obtain ⟨content, lexeme, place⟩ := x
  cases content with
  | «variable» name =>
    exact take_live live (.bind (declaredType_persists ends) fun declared =>
      .bind (.spanFrom _) fun _ => .pure _)
  | _ => exact .unexpected

theorem functionBody_persists (start : Token) (name : Option String) (params : List Param)
    (returns : Option Ty) : Persists mark rest (functionBody expression start name params returns)
      (functionBody expression start name params returns) := by
  refine ask_persists (Token.blind_delimiter ends (by decide)) (fun x s t live _ => ?_) .unexpected
  refine Persists.bind (block_persists ends he stalls) (fun r => ?_) s t live.toFollowed
  exact made_persists start fun span => .function span name params returns r.1 r.2

theorem functionFrom_persists (start : Token) (name : Option String) :
    Persists mark rest (functionFrom expression start name)
      (functionFrom expression start name) := by
  have body (params : List Param) (returns : Option Ty) :=
    functionBody_persists ends he stalls start name params returns
  refine .bind (delimiter_persists "(") fun _ => listed_persists (parameter_persists ends)
    stalls_parameter (fun params => .bind (delimiter_persists ")") fun _ => ?_)
    fun params => (stalls_delimiter ")").bind
  refine ask_persists (Token.blind_operator ends "->") (fun x s t live _ => ?_) ?_
  · exact take_live live (.bind (type_persists ends) fun ty => .bind (.pure (some ty)) fun _ =>
      body params _)
  · exact .bind (.pure none) fun _ => body params _

theorem function_persists : Persists mark rest (function expression) (function expression) := by
  rw [function_eq]
  refine .bind (keyword_persists "fn") fun start =>
    peek_persists (Token.blind_plainWord ends) (fun x s t live word => ?_) fun x y hx hy => ?_
  · rw [if_pos word]
    exact take_live live (.bind (.pure _) fun _ => functionFrom_persists ends he stalls start _)
  · rw [hx, hy, if_neg Bool.false_ne_true]
    exact .bind (.pure _) fun _ => functionFrom_persists ends he stalls start _

omit stalls in
theorem return_persists : Persists mark rest (return_ expression) (return_ expression) := by
  refine .bind (keyword_persists "return") fun start =>
    peek_persists (Token.blind_startsExpression ends) (fun x s t live starts => ?_)
      fun x y hx hy => ?_
  · rw [if_pos starts]
    exact Persists.bind he (fun n => .bind (.pure (some n)) fun _ => made_persists start _) s t
      live.toFollowed
  · rw [hx, hy, if_neg Bool.false_ne_true]
    exact .bind (.pure none) fun _ => made_persists start _

omit stalls in
theorem define_persists : Persists mark rest (define expression) (define expression) := by
  refine .bind (keyword_persists "let") fun start => .of_live (stalls_peek fun x spent => ?_)
    fun x s t live => peek_live live ?_
  · simp only [spent]
    exact stalls_unexpected
  · obtain ⟨content, lexeme, place⟩ := x
    cases content with
    | «variable» name =>
      exact take_live live (.bind (declaredType_persists ends) fun declared =>
        .bind (operator_persists "=") fun _ => .bind he fun value => made_persists start _)
    | _ => exact .unexpected

theorem primary_persists : Persists mark rest (primary expression) (primary expression) := by
  refine .of_live (stalls_peek fun x spent => ?_) fun x s t live => peek_live live ?_
  · simp only [spent]
    exact stalls_unexpected
  have h := live.toFollowed
  obtain ⟨content, lexeme, place⟩ := x
  cases content with
  | integer n => exact take_live live (.pure _)
  | float x => exact take_live live (.pure _)
  | string parts => exact take_live live (string_persists place parts)
  | «variable» name => exact take_live live (.pure _)
  | defaulted name default => exact take_live live (.pure _)
  | delimiter =>
    refine .ite Iff.rfl (fun _ => parenthesized_persists he stalls s t h) fun _ => ?_
    refine .ite Iff.rfl (fun _ => substitution_persists ends he stalls s t h) fun _ => ?_
    exact .ite Iff.rfl (fun _ => blockNode_persists ends he stalls s t h) fun _ => .unexpected
  | word =>
    refine .ite Iff.rfl (fun _ => take_live live (.pure _)) fun _ => ?_
    refine .ite Iff.rfl (fun _ => conditional_persists ends he stalls s t h) fun _ => ?_
    refine .ite Iff.rfl (fun _ => function_persists ends he stalls s t h) fun _ => ?_
    refine .ite Iff.rfl (fun _ => return_persists ends he s t h) fun _ => ?_
    exact .ite Iff.rfl (fun _ => define_persists ends he s t h) fun _ => .unexpected
  | operator => exact .unexpected
  | endOfInput => exact absurd rfl live.real

/-! ## Commands and calls -/

theorem argument_persists : Persists mark rest (argument expression) (argument expression) := by
  refine .of_live (stalls_of_wp fun _ hs => argument_wp (fun _ h => absurd h (Nat.not_lt_zero _)) hs)
    fun x s t live => peek_live live ?_
  split_ifs
  · exact take_live live (.pure _)
  · exact parenthesized_persists he stalls s t live.toFollowed
  · exact primary_persists ends he stalls s t live.toFollowed

omit he stalls in
/-- Whether something is bound here is seen alike. If so, the name and the sign behind it are
before the mark. -/
theorem atBinding_followed (h : s.Followed mark rest t) :
    Follows atBinding atBinding s t fun b b' u v => b' = b ∧ u = s ∧ v = t ∧
      (b → ∃ key eq, s.Live mark rest key t ∧ (s.pop key).Live mark rest eq (t.pop key)) := by
  have no : Follows (pure false) (pure false) s t fun b b' u v => b' = b ∧ u = s ∧ v = t ∧
      (b → ∃ key eq, s.Live mark rest key t ∧ (s.pop key).Live mark rest eq (t.pop key)) :=
    .pure ⟨rfl, rfl, rfl, fun bound => by cases bound⟩
  have assign := Token.blind_operator ends "="
  have starts := Token.blind_startsArgument ends
  rcases h.cases with ⟨ended, ahead⟩ | ⟨key, live⟩
  · obtain ⟨e, he, hend⟩ := ended.next
    refine .peeked he (Stream.next_of_ahead ahead) ?_
    have plain := Token.blind_plainWord ends
    rw [plain.ending e hend, plain.mark, Bool.false_and, if_neg Bool.false_ne_true,
      Bool.false_and, if_neg Bool.false_ne_true]
    exact no
  refine peek_live live (.ite Iff.rfl (fun _ => ?_) fun _ => no)
  have first : ∀ j < 1, ∃ x, s.peek j = .ok x ∧ x.content ≠ .endOfInput := by
    intro j hj
    obtain rfl : j = 0 := by omega
    exact ⟨key, live.next, live.real⟩
  rcases h.peek first with ⟨e, he, hend, hmark⟩ | ⟨eq, heq, heq'⟩
  · refine .peeked he hmark ?_
    rw [assign.ending e hend, assign.mark, Bool.false_and, if_neg Bool.false_ne_true,
      Bool.false_and, if_neg Bool.false_ne_true]
    exact no
  refine .peeked heq heq' (.ite Iff.rfl (fun sign => ?_) fun _ => no)
  have real : eq.content ≠ .endOfInput := assign.real (Bool.and_eq_true_iff.mp sign).1
  have second : ∀ j < 2, ∃ x, s.peek j = .ok x ∧ x.content ≠ .endOfInput := by
    intro j hj
    obtain rfl | rfl : j = 0 ∨ j = 1 := by omega
    · exact ⟨key, live.next, live.real⟩
    · exact ⟨eq, heq, real⟩
  rcases h.peek second with ⟨e, he, hend, hmark⟩ | ⟨value, hvalue, hvalue'⟩
  · refine .peeked he hmark ?_
    rw [starts.ending e hend, starts.mark, Bool.and_false, Bool.and_false]
    exact no
  · exact .peeked hvalue hvalue'
      (.pure ⟨rfl, rfl, rfl, fun _ => ⟨key, eq, live, live.second heq real⟩⟩)

theorem binding_live {key eq : Token} (live : s.Live mark rest key t)
    (second : (s.pop key).Live mark rest eq (t.pop key)) :
    Follows (binding expression) (binding expression) s t (Alike mark rest) :=
  .bind (advance_live live (take_live second (.bind (argument_persists ends he stalls) fun _ =>
    .bind (.spanFrom key) fun _ => .pure _)))

theorem prefixes_followed (h : s.Followed mark rest t) :
    Follows (prefixes expression) (prefixes expression) s t fun bs bs' u v =>
      bs' = bs ∧ u.Followed mark rest v ∧ (bs = [] → u = s) := by
  refine .bind (.get (iterateUpTo_follows (R := fun bs bs' u v =>
    bs' = bs ∧ u.Followed mark rest v ∧ (bs = [] → u = s)) ?_ (Nat.succ_le_succ h.length_le)
    ⟨rfl, h, fun _ => rfl⟩))
  rintro bs _ u v ⟨rfl, huv, none⟩
  refine .bind (.bind ((atBinding_followed ends huv).mono ?_))
  rintro bound _ _ _ ⟨rfl, rfl, rfl, lives⟩
  refine .ite Iff.rfl (fun yes => ?_) fun _ => .pure (.pure ⟨rfl, huv, none⟩)
  obtain ⟨key, eq, live, second⟩ := lives yes
  refine .bind ((binding_live ends he stalls live second).mono ?_)
  rintro b _ u v ⟨rfl, huv⟩
  exact .pure (.pure ⟨rfl, huv, fun e => by simp at e⟩)

omit ends in
theorem callArguments_persists :
    Persists mark rest (callArguments expression) (callArguments expression) :=
  .bind (delimiter_persists "(") fun _ => listed_persists he stalls
    (fun args => .bind (delimiter_persists ")") fun _ => .pure args)
    fun _ => (stalls_delimiter ")").bind

theorem arguments_persists : Persists mark rest (arguments expression) (arguments expression) := by
  refine many_persists (peek_persists (Token.blind_startsArgument ends)
    (fun x s t live starts => ?_) fun x y hx hy => ?_)
  · rw [if_pos starts]
    exact Persists.bind (argument_persists ends he stalls) (fun n => .pure (some n)) s t
      live.toFollowed
  · rw [hx, hy, if_neg Bool.false_ne_true]
    exact .pure none

theorem named_persists (start name : Token) (env : List EnvBinding) :
    Persists mark rest (named expression start name env) (named expression start name env) := by
  have made (args : List Node) : Persists mark rest
      (do return Node.command (← spanFrom start) env name.lexeme args)
      (do return Node.command (← spanFrom start) env name.lexeme args) :=
    made_persists start fun span => .command span env name.lexeme args
  have blind : Token.Blind mark fun next => next.isDelimiter "(" && adjacent name next := by
    have opening := Token.blind_delimiter ends (d := "(") (by decide)
    exact ⟨by simp [opening.mark], fun e he => by simp [opening.ending e he]⟩
  refine peek_persists blind (fun x s t live call => ?_) fun x y hx hy => ?_
  · rw [if_pos call]
    exact Persists.bind (callArguments_persists he stalls) made s t live.toFollowed
  · rw [hx, hy, if_neg Bool.false_ne_true]
    exact .bind (arguments_persists ends he stalls) made

theorem command_live {start : Token} (live : s.Live mark rest start t) (word : start.isPlainWord) :
    Follows (command expression start) (command expression start) s t (Alike mark rest) := by
  refine .bind ((prefixes_followed ends he stalls live.toFollowed).mono ?_)
  rintro _ env u v ⟨rfl, huv, first⟩
  have plain := Token.blind_plainWord ends
  rcases huv.cases with ⟨ended, ahead⟩ | ⟨x, here⟩
  · -- something was bound, as the command starts with a word
    have some : env.isEmpty = false := by
      rw [Bool.eq_false_iff, Ne, List.isEmpty_iff]
      rintro rfl
      obtain rfl := first rfl
      exact absurd (plain.real word) (not_not.mpr (ended.not_real live.next))
    obtain ⟨e, he, hend⟩ := ended.next
    refine .peeked he (Stream.next_of_ahead ahead) ?_
    rw [some, plain.ending e hend, Bool.false_or, if_neg Bool.false_ne_true]
    exact .throw
  · refine peek_live here (.ite Iff.rfl (fun _ => ?_) fun _ => .throw)
    exact take_live here (named_persists ends he stalls start x env)

theorem application_persists :
    Persists mark rest (application expression) (application expression) := by
  rw [application_eq]
  refine peek_persists (Token.blind_plainWord ends) (fun start s t live word => ?_) fun x y hx hy => ?_
  · rw [if_pos word]
    exact command_live ends he stalls live word
  · rw [hx, hy, if_neg Bool.false_ne_true]
    exact primary_persists ends he stalls

theorem postfixCalls_persists :
    Persists mark rest (postfixCalls expression) (postfixCalls expression) := by
  refine .of_live (stalls_peek fun _ _ => stalls_application.bind) fun start s t live =>
    peek_live live (Persists.bind (application_persists ends he stalls)
      (iterate_persists fun callee => ?_) s t live.toFollowed)
  refine ask_persists (Token.blind_delimiter ends (by decide)) (fun x s t live _ => ?_) (.pure none)
  exact Persists.bind (callArguments_persists he stalls) (fun args => .bind (.spanFrom start)
    fun span => .pure (some (Node.call span callee args))) s t live.toFollowed

/-! ## Operators -/

theorem signed_persists : Persists mark rest (signed expression) (signed expression) := by
  have sign (o : String) := Token.blind_operator ends o
  refine .bind (many_persists ?_) fun signs => .bind (postfixCalls_persists ends he stalls)
    fun operand => ?_
  · refine ask_persists (sign "-") (fun x s t live _ => ask_live live ?_)
      (ask_persists (sign "!") (fun x s t live _ => ?_) (.pure none))
    · exact take_live live (.pure (some x))
    · exact take_live live (.pure (some x))
  · induction signs with
    | nil => exact .pure operand
    | cons sign signs ih =>
      rw [List.foldrM_cons]
      exact .bind ih fun operand => made_persists sign _

end

section

variable (ends : mark.endsExpression) {operand : Parser Node}
  (h : Persists mark rest operand operand) (stalls : Stalls operand)
include ends h stalls

theorem chain_persists (ops : List BinaryOperator) :
    Persists mark rest (chain ops operand) (chain ops operand) := by
  refine .of_live (stalls_chain stalls ops) fun start s t live => peek_live live
    (Persists.bind h (iterate_persists fun left => ?_) s t live.toFollowed)
  refine ask_persists (Token.blind_oneOf ends ops) (fun x s t live _ => ?_) (.pure none)
  exact take_live live (.bind h fun right => .bind (.spanFrom start) fun span => .pure _)

theorem comparison_persists : Persists mark rest (comparison operand) (comparison operand) := by
  have blind := Token.blind_oneOf ends comparisons
  refine .of_live (stalls_comparison stalls) fun start s t live => peek_live live
    (Persists.bind h (fun left => ask_persists blind (fun x s t live _ => ?_) (.pure left)) s t
      live.toFollowed)
  refine take_live live (.bind h fun right => .bind (.spanFrom start) fun span =>
    ask_persists blind (fun y s t live _ => ?_) (.pure _))
  exact peek_live live .throw

theorem operation_persists : Persists mark rest (operation operand) (operation operand) := by
  have stalls₁ := stalls_chain stalls [.mul, .div, .mod]
  have stalls₂ := stalls_chain stalls₁ [.add, .sub]
  have stalls₃ := stalls_comparison stalls₂
  have factors := chain_persists ends h stalls [.mul, .div, .mod]
  have terms := chain_persists ends factors stalls₁ [.add, .sub]
  have compared := comparison_persists ends terms stalls₂
  exact chain_persists ends (chain_persists ends compared stalls₃ [.and])
    (stalls_chain stalls₃ [.and]) [.or]

end

/-! ## Expressions -/

section

variable (ends : mark.endsExpression)
include ends

theorem expressionWith_persists (he : Persists mark rest expression expression)
    (stalls : Stalls expression) :
    Persists mark rest (expressionWith expression) (expressionWith expression) := by
  have operations := operation_persists ends (signed_persists ends he stalls) (stalls_signed _)
  refine .of_live (stalls_expressionWith expression) fun x s t live => peek_live live
    (.ite Iff.rfl (fun _ => define_persists ends he s t live.toFollowed) fun _ => ?_)
  have whole := operations s t live.toFollowed
  obtain ⟨content, lexeme, place⟩ := x
  cases content with
  | «variable» name =>
    have assign := Token.blind_operator ends "="
    have first : ∀ j < 1, ∃ x, s.peek j = .ok x ∧ x.content ≠ .endOfInput := by
      intro j hj
      obtain rfl : j = 0 := by omega
      exact ⟨_, live.next, live.real⟩
    rcases live.toFollowed.peek first with ⟨e, he, hend, hmark⟩ | ⟨eq, heq, heq'⟩
    · refine .peeked he hmark ?_
      rw [assign.ending e hend, assign.mark, if_neg Bool.false_ne_true]
      exact whole
    · refine .peeked heq heq' (.ite Iff.rfl (fun sign => ?_) fun _ => whole)
      exact .bind (advance_live live (take_live (live.second heq (assign.real sign))
        (.bind he fun value => made_persists _ _)))
  | _ => exact whole

/-- What is read as an expression up to the end of a text is read alike before a mark that an
expression ends at. -/
theorem expressionUpTo_persists (k : Nat) :
    Persists mark rest (expressionUpTo k) (expressionUpTo k) := by
  induction k with
  | zero => exact .throw
  | succ k ih => exact expressionWith_persists ends ih (stalls_expressionUpTo k)

end

end Sigil.Parser
