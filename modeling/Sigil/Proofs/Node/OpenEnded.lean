import Sigil.Proofs.Node.Abreast
import Sigil.Proofs.Node.Moved

/-!
# Whether more may follow

Every piece of the grammar runs on a text that may go on as it does on one that
does not (`Parser.runs_expressionUpTo`, `Parser.entry_agrees`): it gives the
same, or fails for the same reason, unless the text ran out. So it makes no
difference to an entry whether the text is taken to be complete, except for how
the end of the text is reported (`parseEntry_openEnded`). The text in a
substitution is always complete.
-/

namespace Sigil

namespace Parser

section

variable {o b : Bool} {s₀ t₀ s t : Stream} {expression : Parser Node}

/-! ## Entries -/

theorem atClosing_agrees {closing : Option String} {Q : Bool → Stream → Stream → Prop}
    (h : Stream.Abreast o s₀ t₀ b s t) (hQ : ∀ closed, Q closed s t) :
    Agrees o (atClosing closing) s t Q := by
  cases closing with
  | none => exact .bind (peek_agrees h fun x _ => .pure (hQ _))
  | some d => exact atDelimiter_agrees h fun x _ => hQ _

theorem skipSemicolons_agrees (h : Stream.Abreast o s₀ t₀ b s t) :
    Agrees o skipSemicolons s t fun _ u v => Stream.Abreast o s₀ t₀ b u v := by
  refine .bind (.mono (many_agrees h fun u v huv => ?_) fun _ u v huv => .pure huv)
  refine .bind (atDelimiter_agrees huv fun x hx => ?_)
  split_ifs with semi
  · exact .bind (taken_agrees huv hx (Token.isDelimiter_content semi) fun u v huv =>
      .pure (huv.later b))
  · exact .pure huv

theorem endEntry_agrees {closing : Option String} (h : Stream.Abreast o s₀ t₀ true s t) :
    Agrees o (endEntry closing) s t fun _ u v => Stream.Abreast o s₀ t₀ true u v := by
  refine .bind (atDelimiter_agrees h fun x hx => .ite (fun semi => ?_) fun _ => ?_)
  · exact .bind (taken_agrees h hx (Token.isDelimiter_content semi) fun u v huv => .pure huv)
  · refine .bind (atClosing_agrees h fun closed => .ite (fun _ => .pure h) fun _ => ?_)
    refine .get (by rw [h.previous (.inl rfl)]) (.ite (fun _ => .pure h) fun _ => ?_)
    exact unexpected_agrees h

/-- An entry, if there is one, is read from both streams. -/
theorem entry_agrees (closing : Option String) (he : Runs o s₀ t₀ expression)
    (h : Stream.Abreast o s₀ t₀ b s t) :
    Agrees o (entry expression closing) s t fun n u v =>
      Stream.Abreast o s₀ t₀ (b || n.isSome) u v := by
  refine .bind ((skipSemicolons_agrees h).mono fun _ u v huv => ?_)
  refine .bind (atClosing_agrees huv fun closed => .ite (fun _ => .pure ?_) fun _ => ?_)
  · rwa [Option.isSome_none, Bool.or_false]
  · refine .bind ((he b u v huv).mono fun n u v huv => ?_)
    refine .bind ((endEntry_agrees huv).mono fun _ u v huv => .pure ?_)
    exact huv.later _

theorem entries_agrees (closing : Option String) (he : Runs o s₀ t₀ expression)
    (h : Stream.Abreast o s₀ t₀ b s t) :
    Agrees o (entries expression closing) s t fun _ u v => Stream.Abreast o s₀ t₀ b u v := by
  refine many_agrees h fun s t h => (entry_agrees closing he h).mono fun n u v huv => ?_
  cases n with
  | none => rwa [Option.isSome_none, Bool.or_false] at huv
  | some n => exact Stream.Abreast.later (by rwa [Option.isSome_some, Bool.or_true] at huv) b

/-- No more can be needed of a text that is complete. -/
theorem complete_of_error {α : Type} {p : Parser α} {Q : α → Stream → Stream → Prop}
    (h : Agrees false p s s Q) {e : Stop} (he : p.run s = .error e) (missing : Missing) :
    e ≠ .needsMore missing := by
  obtain ⟨e', -, meets⟩ := h.error he
  exact meets.elim (fun same => same.2 missing) nofun

theorem program_complete (he : Runs false s s expression) (closed : s.openEnded = false) {e : Stop}
    (h : (program expression).run s = .error e) (missing : Missing) : e ≠ .needsMore missing := by
  have self := Stream.Abreast.self closed
  rw [run_program] at h
  cases first : s.peek 0 with
  | error e' =>
    have run : (peek 0).run s = .error e' := by
      rw [run_peek, first]
      rfl
    rw [first] at h
    cases h
    exact complete_of_error (peek_agrees (Q := fun _ _ _ => True) self fun _ _ => trivial) run missing
  | ok start =>
    rw [first, ok_bind] at h
    cases body : (entries expression none).run s with
    | error e' =>
      rw [body] at h
      cases h
      exact complete_of_error (entries_agrees _ he self) body missing
    | ok r =>
      rw [body] at h
      cases h

/-! ## Primary expressions -/

section

variable (he : ∀ {o s₀ t₀}, Runs o s₀ t₀ expression)
include he

theorem stringParts_agrees {ps : List StringPart} {Q : List Part → Stream → Stream → Prop}
    (hQ : ∀ xs, Q xs s t) : Agrees o (ps.mapM (stringPart expression)) s t Q := by
  induction ps generalizing Q with
  | nil => exact .pure (hQ [])
  | cons p ps ih =>
    rw [List.mapM_cons]
    have first (R : Part → Stream → Stream → Prop) (hR : ∀ x, R x s t) :
        Agrees o (stringPart expression p) s t R := by
      cases p with
      | text s => exact .pure (hR _)
      | «variable» name default span => exact .pure (hR _)
      | substitution inside span =>
        exact .bind (.nested (fun _ h => program_complete he rfl h) fun _ => .pure (hR _))
    exact .bind (first _ fun x => .bind (ih fun xs => .pure (hQ _)))

theorem string_agrees {span : Span} {ps : List StringPart}
    (h : Stream.Abreast o s₀ t₀ b s t) :
    Agrees o (string expression span ps) s t fun _ u v => Stream.Abreast o s₀ t₀ b u v := by
  rw [string_eq]
  exact .ite (fun _ => .pure h) fun _ => .bind (stringParts_agrees he fun xs => .pure h)

theorem runs_substitution : Runs o s₀ t₀ (substitution expression) := fun b s t h => by
  refine .bind (delimiter_agrees h fun start u v huv => ?_)
  refine .bind ((entries_agrees _ he huv).mono fun body u v huv => ?_)
  refine .bind (delimiter_agrees huv fun _ u v huv => ?_)
  exact .bind (spanFrom_agrees huv fun span => .pure huv)

theorem runs_parenthesized : Runs o s₀ t₀ (parenthesized expression) := fun b s t h => by
  refine .bind (delimiter_agrees h fun start u v huv => ?_)
  refine .bind (atDelimiter_agrees huv fun x hx => .ite (fun _ => ?_) fun _ => ?_)
  · refine .bind (advance_agrees huv fun _ u v _ huv => ?_)
    exact .bind (spanFrom_agrees huv fun span => .pure huv)
  · refine .bind ((he true u v huv).mono fun n u v huv => ?_)
    exact .bind (delimiter_agrees huv fun _ u v huv => .pure huv)

theorem runs_block : Runs o s₀ t₀ (block expression) := fun b s t h => by
  refine .bind (delimiter_agrees h fun start u v huv => ?_)
  refine .bind ((entries_agrees _ he huv).mono fun body u v huv => ?_)
  refine .bind (delimiter_agrees huv fun _ u v huv => ?_)
  exact .bind (spanFrom_agrees huv fun span => .pure huv)

theorem runs_blockNode : Runs o s₀ t₀ (blockNode expression) := fun b s t h =>
  .bind ((runs_block he b s t h).mono fun _ _ _ huv => .pure huv)

theorem elseBranch_agrees (start : Token) (condition n : Node)
    (h : Stream.Abreast o s₀ t₀ true s t) :
    Agrees o (elseBranch expression start condition n) s t
      fun _ u v => Stream.Abreast o s₀ t₀ true u v := by
  refine .bind (atKeyword_agrees h fun x hx => .ite (fun _ => ?_) fun _ => ?_)
  · refine .bind (advance_agrees h fun _ u v _ huv => ?_)
    refine .bind ((he true u v huv).mono fun other u v huv => ?_)
    exact .bind (.pure (.bind (spanFrom_agrees huv fun span => .pure huv)))
  · exact .bind (.pure (.bind (spanFrom_agrees h fun span => .pure h)))

theorem runs_conditional : Runs o s₀ t₀ (conditional expression) := fun b s t h => by
  refine .bind (keyword_agrees h fun start u v huv => ?_)
  refine .bind ((he true u v huv).mono fun condition u v huv => ?_)
  refine .bind (atKeyword_agrees huv fun _ _ => .bind (atDelimiter_agrees huv fun _ _ => ?_))
  refine .ite (fun _ => ?_) fun _ => .ite (fun _ => ?_) fun _ => ?_
  · refine .bind (advance_agrees huv fun _ u v _ huv => ?_)
    refine .bind ((he true u v huv).mono fun n u v huv => ?_)
    exact elseBranch_agrees he start condition n huv
  · refine .bind ((runs_blockNode he true u v huv).mono fun n u v huv => ?_)
    exact elseBranch_agrees he start condition n huv
  · exact .bind (unexpected_agrees huv)

omit he in
theorem runs_parameter : Runs o s₀ t₀ parameter := fun b s t h => by
  refine .bind (peek_agrees h fun x hx => ?_)
  obtain ⟨content, lexeme, place⟩ := x
  cases content with
  | «variable» name =>
    refine .bind (taken_agrees h hx nofun fun u v huv => ?_)
    refine .bind ((declaredType_agrees huv).mono fun declared u v huv => ?_)
    exact .bind (spanFrom_agrees huv fun span => .pure huv)
  | _ => exact unexpected_agrees h

theorem functionBody_agrees (start : Token) (name : Option String) (params : List Param)
    (returns : Option Ty) (h : Stream.Abreast o s₀ t₀ true s t) :
    Agrees o (functionBody expression start name params returns) s t
      fun _ u v => Stream.Abreast o s₀ t₀ true u v := by
  refine .bind (atDelimiter_agrees h fun _ _ => .ite (fun _ => ?_) fun _ => ?_)
  · refine .bind ((runs_block he true s t h).mono fun _ u v huv => ?_)
    exact .bind (spanFrom_agrees huv fun span => .pure huv)
  · exact unexpected_agrees h

theorem functionFrom_agrees (start : Token) (name : Option String)
    (h : Stream.Abreast o s₀ t₀ true s t) :
    Agrees o (functionFrom expression start name) s t
      fun _ u v => Stream.Abreast o s₀ t₀ true u v := by
  refine .bind (delimiter_agrees h fun _ u v huv => ?_)
  refine listed_agrees runs_parameter (fun params u v huv => ?_) huv
  refine .bind (delimiter_agrees huv fun _ u v huv => ?_)
  refine .bind (atOperator_agrees huv fun x hx => .ite (fun _ => ?_) fun _ => ?_)
  · refine .bind (advance_agrees huv fun _ u v _ huv => ?_)
    refine .bind ((runs_type true u v huv).mono fun ty u v huv => .bind (.pure ?_))
    exact functionBody_agrees he start name params (some ty) huv
  · exact .bind (.pure (functionBody_agrees he start name params none huv))

theorem runs_function : Runs o s₀ t₀ (function expression) := fun b s t h => by
  rw [function_eq]
  refine .bind (keyword_agrees h fun start u v huv => ?_)
  refine .bind (peek_agrees huv fun x hx => .ite (fun _ => ?_) fun _ => ?_)
  · refine .bind (advance_agrees huv fun _ u v _ huv => .bind (.pure ?_))
    exact functionFrom_agrees he start _ huv
  · exact .bind (.pure (functionFrom_agrees he start none huv))

theorem runs_return : Runs o s₀ t₀ (return_ expression) := fun b s t h => by
  refine .bind (keyword_agrees h fun start u v huv => ?_)
  refine .bind (peek_agrees huv fun x _ => .ite (fun _ => ?_) fun _ => ?_)
  · refine .bind ((he true u v huv).mono fun n u v huv => ?_)
    exact .bind (.pure (.bind (spanFrom_agrees huv fun span => .pure huv)))
  · exact .bind (.pure (.bind (spanFrom_agrees huv fun span => .pure huv)))

theorem runs_define : Runs o s₀ t₀ (define expression) := fun b s t h => by
  refine .bind (keyword_agrees h fun start u v huv => ?_)
  refine .bind (peek_agrees huv fun x hx => ?_)
  obtain ⟨content, lexeme, place⟩ := x
  cases content with
  | «variable» name =>
    refine .bind (advance_agrees huv fun _ u v _ huv => ?_)
    refine .bind ((declaredType_agrees huv).mono fun declared u v huv => ?_)
    refine .bind (operator_agrees huv fun _ u v huv => ?_)
    refine .bind ((he true u v huv).mono fun value u v huv => ?_)
    exact .bind (spanFrom_agrees huv fun span => .pure huv)
  | _ => exact unexpected_agrees huv

theorem runs_primary : Runs o s₀ t₀ (primary expression) := fun b s t h => by
  refine .bind (peek_agrees h fun x hx => ?_)
  dsimp only
  have taken (real : x.content ≠ .endOfInput) {f : Token → Parser Node}
      (hf : ∀ u v, Stream.Abreast o s₀ t₀ true u v →
        Agrees o (f x) u v fun _ u v => Stream.Abreast o s₀ t₀ true u v) :
      Agrees o (advance >>= f) s t fun _ u v => Stream.Abreast o s₀ t₀ true u v :=
    .bind (taken_agrees h hx real hf)
  obtain ⟨content, lexeme, place⟩ := x
  cases content with
  | integer n => exact taken nofun fun u v huv => .pure huv
  | float x => exact taken nofun fun u v huv => .pure huv
  | string parts => exact taken nofun fun u v huv => string_agrees he huv
  | «variable» name => exact taken nofun fun u v huv => .pure huv
  | defaulted name default => exact taken nofun fun u v huv => .pure huv
  | delimiter =>
    refine .ite (fun _ => runs_parenthesized he b s t h) fun _ => ?_
    refine .ite (fun _ => runs_substitution he b s t h) fun _ => ?_
    exact .ite (fun _ => runs_blockNode he b s t h) fun _ => unexpected_agrees h
  | word =>
    refine .ite (fun _ => taken nofun fun u v huv => .pure huv) fun _ => ?_
    refine .ite (fun _ => runs_conditional he b s t h) fun _ => ?_
    refine .ite (fun _ => runs_function he b s t h) fun _ => ?_
    refine .ite (fun _ => runs_return he b s t h) fun _ => ?_
    exact .ite (fun _ => runs_define he b s t h) fun _ => unexpected_agrees h
  | operator => exact unexpected_agrees h
  | endOfInput => exact unexpected_agrees h

/-! ## Commands and calls -/

theorem runs_argument : Runs o s₀ t₀ (argument expression) := fun b s t h => by
  refine .bind (peek_agrees h fun x hx => .ite (fun word => ?_) fun _ => .ite (fun _ => ?_) fun _ => ?_)
  · have real : x.content ≠ .endOfInput := by simp [Token.isPlainWord_content word]
    exact .bind (taken_agrees h hx real fun u v huv => .pure huv)
  · exact runs_parenthesized he b s t h
  · exact runs_primary he b s t h

omit he in
theorem atBinding_agrees {Q : Bool → Stream → Stream → Prop} (h : Stream.Abreast o s₀ t₀ b s t)
    (hQ : ∀ bound : Bool, (bound → ∃ key, s.Next key ∧ key.content ≠ .endOfInput) → Q bound s t) :
    Agrees o atBinding s t Q := by
  refine .bind (peek_agrees h fun key hkey => .ite (fun named => ?_) fun _ => .pure (hQ _ nofun))
  refine .bind (peek_agrees h fun eq _ => .ite (fun _ => ?_) fun _ => .pure (hQ _ nofun))
  refine .bind (peek_agrees h fun value _ => .pure (hQ _ fun _ => ⟨key, hkey, ?_⟩))
  rw [Bool.and_eq_true] at named
  simp [Token.isPlainWord_content named.1]

theorem binding_agrees (h : Stream.Abreast o s₀ t₀ b s t) {key : Token} (hkey : s.Next key)
    (real : key.content ≠ .endOfInput) :
    Agrees o (binding expression) s t fun _ u v => Stream.Abreast o s₀ t₀ true u v := by
  refine .bind (taken_agrees h hkey real fun u v huv => ?_)
  refine .bind (advance_agrees huv fun _ u v _ huv => ?_)
  refine .bind ((runs_argument he true u v huv).mono fun value u v huv => ?_)
  exact .bind (spanFrom_agrees huv fun span => .pure huv)

theorem runs_callArguments : Runs o s₀ t₀ (callArguments expression) := fun b s t h => by
  refine .bind (delimiter_agrees h fun _ u v huv => ?_)
  refine listed_agrees he (fun ns u v huv => ?_) huv
  exact .bind (delimiter_agrees huv fun _ u v huv => .pure huv)

theorem arguments_agrees (h : Stream.Abreast o s₀ t₀ b s t) :
    Agrees o (arguments expression) s t fun _ u v => Stream.Abreast o s₀ t₀ b u v := by
  refine many_agrees h fun u v huv => ?_
  refine .bind (peek_agrees huv fun x _ => .ite (fun _ => ?_) fun _ => .pure huv)
  exact .bind ((runs_argument he b u v huv).mono fun _ _ _ h => .pure (h.later b))

theorem named_agrees (start name : Token) (env : List EnvBinding)
    (h : Stream.Abreast o s₀ t₀ true s t) :
    Agrees o (named expression start name env) s t
      fun _ u v => Stream.Abreast o s₀ t₀ true u v := by
  refine .bind (peek_agrees h fun next _ => .ite (fun _ => ?_) fun _ => ?_)
  · refine .bind ((runs_callArguments he true s t h).mono fun args u v huv => ?_)
    exact .bind (spanFrom_agrees huv fun span => .pure huv)
  · refine .bind ((arguments_agrees he h).mono fun args u v huv => ?_)
    exact .bind (spanFrom_agrees huv fun span => .pure huv)

theorem prefixes_agrees (h : Stream.Abreast o s₀ t₀ b s t) :
    Agrees o (prefixes expression) s t fun bs u v =>
      Stream.Abreast o s₀ t₀ (b || !bs.isEmpty) u v ∧ (bs = [] → u = s) := by
  refine iterate_agrees (R := fun (bs : List EnvBinding) u v =>
    Stream.Abreast o s₀ t₀ (b || !bs.isEmpty) u v ∧ (bs = [] → u = s)) h
    (fun bs u v ⟨huv, first⟩ => ?_) ⟨by simpa using h, fun _ => rfl⟩
  refine .bind (.bind (atBinding_agrees huv fun bound hbound => .ite (fun yes => ?_) fun _ => ?_))
  · obtain ⟨key, hkey, real⟩ := hbound yes
    refine .bind ((binding_agrees he huv hkey real).mono fun n u v huv => .pure (.pure ?_))
    exact ⟨by simpa using huv.later _, fun e => by simp at e⟩
  · exact .pure (.pure ⟨huv, first⟩)

theorem command_agrees {start : Token} (h : Stream.Abreast o s₀ t₀ b s t) (hstart : s.Next start)
    (word : start.isPlainWord) :
    Agrees o (command expression start) s t fun _ u v => Stream.Abreast o s₀ t₀ true u v := by
  refine .bind ((prefixes_agrees he h).mono fun env u v ⟨huv, first⟩ => ?_)
  refine .bind (peek_agrees huv fun x hx => .ite (fun _ => ?_) fun _ => .throw nofun)
  cases env with
  | nil =>
    -- without a prefix the name is the word seen at first
    obtain rfl := first rfl
    have real : start.content ≠ .endOfInput := by simp [Token.isPlainWord_content word]
    exact .bind (taken_agrees huv hstart real fun u v huv => named_agrees he start start [] huv)
  | cons bound env =>
    -- a prefix is read from both
    rw [List.isEmpty_cons, Bool.not_false, Bool.or_true] at huv
    exact .bind (advance_agrees huv fun name u v _ huv => named_agrees he start name _ huv)

theorem runs_application : Runs o s₀ t₀ (application expression) := fun b s t h => by
  rw [application_eq]
  refine .bind (peek_agrees h fun start hstart => .ite (fun word => ?_) fun _ => ?_)
  · exact command_agrees he h hstart word
  · exact runs_primary he b s t h

theorem runs_postfixCalls : Runs o s₀ t₀ (postfixCalls expression) := fun b s t h => by
  refine .bind (peek_agrees h fun start _ => ?_)
  refine .bind ((runs_application he b s t h).mono fun callee u v huv => ?_)
  refine iterate_agrees (R := fun _ u v => Stream.Abreast o s₀ t₀ true u v) huv
    (fun callee u v huv => ?_) huv
  refine .bind (atDelimiter_agrees huv fun _ _ => .ite (fun _ => ?_) fun _ => .pure huv)
  refine .bind ((runs_callArguments he true u v huv).mono fun args u v huv => ?_)
  exact .bind (spanFrom_agrees huv fun span => .pure huv)

/-! ## Operators -/

theorem runs_signed : Runs o s₀ t₀ (signed expression) := fun b s t h => by
  refine .bind ((many_agrees h fun u v huv => ?_).mono fun signs u v huv => ?_)
  · refine .bind (atOperator_agrees huv fun x hx => ?_)
    refine .bind (atOperator_agrees huv fun y _ => .ite (fun sign => ?_) fun _ => .pure huv)
    exact .bind (advance_agrees huv fun _ u v _ huv => .pure huv)
  · refine .bind ((runs_postfixCalls he b u v huv).mono fun operand u v huv => ?_)
    induction signs with
    | nil => exact .pure huv
    | cons sign signs ih =>
      rw [List.foldrM_cons]
      refine .bind (ih.mono fun operand u v huv => ?_)
      exact .bind (spanFrom_agrees huv fun span => .pure huv)

end

theorem atOneOf_agrees {ops : List BinaryOperator} {Q : Bool → Stream → Stream → Prop}
    (h : Stream.Abreast o s₀ t₀ b s t) (hQ : ∀ found, Q found s t) :
    Agrees o (atOneOf ops) s t Q :=
  .bind (peek_agrees h fun _ _ => .pure (hQ _))

section

variable {operand : Parser Node} (he : Runs o s₀ t₀ operand)
include he

theorem Runs.chain (ops : List BinaryOperator) : Runs o s₀ t₀ (chain ops operand) := fun b s t h => by
  refine .bind (peek_agrees h fun start _ => ?_)
  refine .bind ((he b s t h).mono fun first u v huv => ?_)
  refine iterate_agrees (R := fun _ u v => Stream.Abreast o s₀ t₀ true u v) huv
    (fun left u v huv => ?_) huv
  refine .bind (atOneOf_agrees huv fun found => .ite (fun _ => ?_) fun _ => .pure huv)
  refine .bind (advance_agrees huv fun op u v _ huv => ?_)
  refine .bind ((he true u v huv).mono fun right u v huv => ?_)
  exact .bind (spanFrom_agrees huv fun span => .pure huv)

theorem Runs.comparison : Runs o s₀ t₀ (comparison operand) := fun b s t h => by
  refine .bind (peek_agrees h fun start _ => ?_)
  refine .bind ((he b s t h).mono fun left u v huv => ?_)
  refine .bind (atOneOf_agrees huv fun found => .ite (fun _ => ?_) fun _ => .pure huv)
  refine .bind (advance_agrees huv fun op u v _ huv => ?_)
  refine .bind ((he true u v huv).mono fun right u v huv => ?_)
  refine .bind (spanFrom_agrees huv fun span => ?_)
  refine .bind (atOneOf_agrees huv fun found => .ite (fun _ => ?_) fun _ => .pure huv)
  exact .bind (peek_agrees huv fun _ _ => .throw nofun)

theorem Runs.operation : Runs o s₀ t₀ (operation operand) :=
  (((he.chain _).chain _).comparison.chain _).chain _

end

/-! ## Expressions -/

theorem runs_expressionWith (he : ∀ {o s₀ t₀}, Runs o s₀ t₀ expression) :
    Runs o s₀ t₀ (expressionWith expression) := fun b s t h => by
  have operations := (runs_signed he).operation b s t h
  refine .bind (peek_agrees h fun x hx => .ite (fun _ => runs_define he b s t h) fun _ => ?_)
  obtain ⟨content, lexeme, place⟩ := x
  cases content with
  | «variable» name =>
    refine .bind (peek_agrees h fun eq _ => .ite (fun _ => ?_) fun _ => operations)
    refine .bind (taken_agrees h hx nofun fun u v huv => ?_)
    refine .bind (advance_agrees huv fun _ u v _ huv => ?_)
    refine .bind ((he true u v huv).mono fun value u v huv => ?_)
    exact .bind (spanFrom_agrees huv fun span => .pure huv)
  | _ => exact operations

theorem runs_expressionUpTo (depth : Nat) : Runs o s₀ t₀ (expressionUpTo depth) := by
  induction depth generalizing o s₀ t₀ with
  | zero => exact fun _ _ _ _ => .throw nofun
  | succ depth ih => exact runs_expressionWith ih

end

end Parser

/-! ## Entries of a text -/

/-- What is read of an entry and how many tokens it takes up, on two streams. -/
theorem parseEntry_meets (source : List Char) (start : Nat) :
    (∃ r, parseEntry source true start = .ok r ∧ parseEntry source false start = .ok r) ∨
      ∃ e e', parseEntry source true start = .error e ∧
        parseEntry source false start = .error e' ∧ e.Meets true e' := by
  have abreast := Stream.Abreast.start (s := .ofLexed (tokenize source) true start)
    (t := .ofLexed (tokenize source) false start) rfl rfl rfl fun _ => rfl
  have agrees := Parser.entry_agrees none
    (Parser.runs_expressionUpTo (source.length + 1)) abreast
  rw [parseEntry, parseEntry]
  cases open_ : (Parser.entry (Parser.expressionUpTo (source.length + 1)) none).run
      (.ofLexed (tokenize source) true start) with
  | error e =>
    obtain ⟨e', closed, meets⟩ := agrees.error open_
    rw [closed]
    exact .inr ⟨e, e', rfl, rfl, meets⟩
  | ok r =>
    obtain ⟨n, u⟩ := r
    obtain ⟨v, closed, abreast⟩ := agrees.ok open_
    have same : u.consumed = v.consumed := abreast.together
    rw [closed]
    refine .inl ⟨(n, u.consumed), rfl, ?_⟩
    rw [same]
    rfl

/-- An entry of a text that may go on is what it is in the complete text. If reading it fails then
for the same reason in both, unless the first needs more: then the second is stopped by the end of
the text. All else that stops the second stops the first. -/
theorem parseEntry_openEnded (source : List Char) (start : Nat) :
    (∀ r, parseEntry source true start = .ok r ↔ parseEntry source false start = .ok r) ∧
    (∀ e, parseEntry source true start = .error e → (∀ missing, e ≠ .needsMore missing) →
      parseEntry source false start = .error e) ∧
    (∀ missing, parseEntry source true start = .error (.needsMore missing) →
      ∃ e, parseEntry source false start = .error e ∧ e.isEnd) ∧
    (∀ e, parseEntry source false start = .error e → ¬ e.isEnd →
      parseEntry source true start = .error e) := by
  obtain ⟨r, opened, closed⟩ | ⟨e, e', opened, closed, meets⟩ := parseEntry_meets source start
  · rw [opened, closed]
    exact ⟨fun _ => Iff.rfl, nofun, nofun, nofun⟩
  · rw [opened, closed]
    refine ⟨fun _ => ⟨nofun, nofun⟩, ?_, ?_, ?_⟩
    · rintro _ ⟨⟩ reason
      obtain ⟨rfl, -⟩ | ⟨-, ⟨missing, rfl⟩, -⟩ := meets
      · rfl
      · exact absurd rfl (reason missing)
    · rintro missing ⟨⟩
      obtain ⟨-, reason⟩ | ⟨-, -, ends⟩ := meets
      · exact absurd rfl (reason missing)
      · exact ⟨e', rfl, ends⟩
    · rintro _ ⟨⟩ reason
      obtain ⟨rfl, -⟩ | ⟨-, -, ends⟩ := meets
      · rfl
      · exact absurd ends reason

end Sigil
