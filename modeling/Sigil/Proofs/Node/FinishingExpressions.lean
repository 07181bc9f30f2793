import Sigil.Proofs.Node.Finishing

/-!
# Finishing expressions

Commands, calls, and operators of all levels, where a text ends within them. The
levels of the grammar keep what is known of the expressions within
(`finishes_expressionWith`), and so it holds to any depth
(`finishes_expressionUpTo`).

At three places more than the next token is looked at: for what is bound before a
command (`sees_atBinding`), for a parenthesis right behind its name
(`finishable_named`), and for an assignment (`viable_last`). What is written
behind a text changes nothing there, since a space comes first, and no operator.
-/

namespace Sigil

namespace Parser

open Filler

section

variable {ι : Type} {s : Stream} {F : List Filler → Prop}

section

variable {expression : Parser Node} {expression' : ι → Parser Node}
  (he : Finishes expression expression')
include he

/-! ## Commands and calls -/

/-- Whether three tokens are a name with its value. -/
def binds (key eq value : Token) : Bool :=
  (key.isPlainWord && isName key.lexeme) && (eq.isOperator "=" && adjacent key eq) &&
    (adjacent eq value && startsArgument value)

theorem viable_argument (hs : s.Ends) {x : Token} (hx : s.Next x) (starts : startsArgument x) :
    Viable (argument expression) (fun i => argument (expression' i)) F s := by
  have real : x.content ≠ .endOfInput := fun spent => by
    simp [tests_startsArgument.ends x spent] at starts
  refine .seen hs (fun _ line => ?_) hx real ?_
  · simp only [Token.isPlainWord_moved, Token.isDelimiter_moved]
    rfl
  · split_ifs
    · exact .taken hs (fun _ _ => rfl) hx real (.pure (hs.pop hx real) _)
    · exact viable_parenthesized he hs
    · exact viable_primary he hs hx real (.inl starts)

omit he in
theorem run_atBinding {key eq value : Token} (hkey : s.peek 0 = .ok key) (heq : s.peek 1 = .ok eq)
    (hvalue : s.peek 2 = .ok value) : atBinding.run s = .ok (binds key eq value, s) := by
  rw [atBinding, StateT.run_bind, run_peek, hkey]
  show (if key.isPlainWord && isName key.lexeme then _ else _ : Parser Bool).run s = _
  by_cases word : key.isPlainWord && isName key.lexeme
  · rw [if_pos word, StateT.run_bind, run_peek, heq]
    show (if eq.isOperator "=" && adjacent key eq then _ else _ : Parser Bool).run s = _
    by_cases assign : eq.isOperator "=" && adjacent key eq
    · rw [if_pos assign, StateT.run_bind, run_peek, hvalue, binds, word, assign]
      rfl
    · rw [if_neg assign, binds, Bool.eq_false_iff.mpr assign, Bool.and_false, Bool.false_and]
      rfl
  · rw [if_neg word, binds, Bool.eq_false_iff.mpr word, Bool.false_and, Bool.false_and]
    rfl

omit he in
/-- A prefix is found alike in both texts, since a space is before what was written behind the
first. -/
theorem sees_atBinding (hs : s.Ends) {key eq value : Token} (hkey : s.Next key)
    (real : key.content ≠ .endOfInput) (heq : s.peek 1 = .ok eq) (hvalue : s.peek 2 = .ok value) :
    Sees atBinding (fun _ : ι => atBinding) (binds key eq value) s where
  here := run_atBinding hkey heq hvalue
  there i line fs t resumed := by
    have hkey' := resumed.peek hs hkey real
    obtain ⟨eq', heq', same | ⟨spent, apart⟩⟩ := resumed.beside hs hkey real heq
    · obtain ⟨real', rfl⟩ := same
      obtain ⟨value', hvalue', same | ⟨spent, apart⟩⟩ := resumed.beside hs heq real' hvalue
      · obtain ⟨-, rfl⟩ := same
        rw [run_atBinding hkey' heq' hvalue']
        simp only [binds, Token.isPlainWord_moved, Token.isOperator_moved, adjacent_moved,
          tests_startsArgument.moved]
        rfl
      · have none : binds key eq value = false := by
          rw [binds, tests_startsArgument.ends value spent, Bool.and_false, Bool.and_false]
        have none' :
            binds (key.moved (.newLine line)) (eq.moved (.newLine line)) value' = false := by
          rw [binds, show adjacent (eq.moved (.newLine line)) value' = false from apart,
            Bool.false_and, Bool.and_false]
        rw [run_atBinding hkey' heq' hvalue', none, none']
    · obtain ⟨value', hvalue'⟩ := resumed.peek_sound 2
      have none : binds key eq value = false := by
        rw [binds, (finds_isOperator "=").ends eq spent, Bool.false_and, Bool.and_false,
          Bool.false_and]
      have none' : binds (key.moved (.newLine line)) eq' value' = false := by
        rw [binds, show adjacent (key.moved (.newLine line)) eq' = false from apart,
          Bool.and_false, Bool.and_false, Bool.false_and]
      rw [run_atBinding hkey' heq' hvalue', none, none']

theorem viable_binding (hs : s.Ends) {key eq value : Token} (hkey : s.Next key)
    (heq : s.peek 1 = .ok eq) (hvalue : s.peek 2 = .ok value) (bound : binds key eq value) :
    Viable (binding expression) (fun i => binding (expression' i)) F s := by
  simp only [binds, Bool.and_eq_true] at bound
  obtain ⟨⟨⟨word, -⟩, assign, -⟩, -, starts⟩ := bound
  have real : key.content ≠ .endOfInput := by simp [Token.isPlainWord_content word]
  have real' := Token.isOperator_content assign
  have later := hs.pop hkey real
  replace heq : (s.pop key).Next eq := (hs.peek_pop hkey real 0).trans heq
  replace hvalue : ((s.pop key).pop eq).Next value :=
    (later.peek_pop heq real' 0).trans ((hs.peek_pop hkey real 1).trans hvalue)
  refine .taken hs (fun _ line => by rw [finds_isPlainWord.moved_newLine word]) hkey real ?_
  refine .taken later (fun _ _ => rfl) heq real' ?_
  exact (viable_argument he (later.pop heq real') hvalue starts).post fun n => finishable_made key _

/-- No prefix follows: a word does that has no value. -/
def Naming (fs : List Filler) : Prop :=
  ∃ w h rest, fs = ⟨.word w, h⟩ :: rest ∧ (nextToken (chunks rest)).isOperator "=" = false

theorem finishable_prefixes : Finishable (prefixes expression)
    (fun i => prefixes (expression' i)) [] Naming := by
  refine finishable_many (fun {s key} hs hkey real => ?_) (fun s r ended hr => ?_) ?_
  · obtain ⟨eq, heq⟩ := hs.peek 1
    obtain ⟨value, hvalue⟩ := hs.peek 2
    refine .looked (sees_atBinding hs hkey real heq hvalue) ?_
    split_ifs with bound
    · exact (viable_binding he hs hkey heq hvalue bound).post fun b => .pure _
    · exact .pure hs none
  · obtain ⟨x, hx, spent⟩ := ended.next
    rw [atBinding, bind_assoc, run_peek_bind hx,
      if_neg (by rw [finds_isPlainWord.ends x spent]; exact Bool.false_ne_true)] at hr
    cases hr
    rfl
  · rintro i _ t ⟨w, h, rest, rfl, next⟩ ht
    exact Gives.no (gives_not_atBinding ht next) rfl (Gives.pure ⟨rfl, rfl⟩)

omit he in
/-- Without prefixes nothing was read. -/
theorem run_prefixes_nil (hs : s.Ends) {x : Token} (hx : s.Next x) {u : Stream}
    (h : (prefixes expression).run s = .ok ([], u)) : u = s := by
  obtain ⟨eq, heq⟩ := hs.peek 1
  obtain ⟨value, hvalue⟩ := hs.peek 2
  have step := run_many_nil h
  rw [StateT.run_bind, run_atBinding hx heq hvalue] at step
  replace step : (if binds x eq value then some <$> binding expression else Pure.pure none).run s =
      .ok (none, u) := by
    rwa [map_eq_pure_bind]
  split_ifs at step
  · obtain ⟨b, -, hb⟩ := bind_eq_ok (x := (binding expression).run s) step
    cases hb
  · cases step
    rfl

theorem finishable_callArguments : Finishable (callArguments expression)
    (fun i => callArguments (expression' i)) [Filler.opening, Filler.closing] F := by
  refine .cast (.closed (finishable_delimiter Filler.opening.2) fun _ =>
    finishable_listed (he.finishable.mono fun _ h => ending_of_closing (by decide) h) he.stalls
      (fun args => .closed (finishable_delimiter Filler.closing.2) fun _ => .pure args)
      fun _ _ => rfl) rfl

theorem finishable_arguments : Finishable (arguments expression)
    (fun i => arguments (expression' i)) [] Ending := by
  have starts := tests_startsArgument
  refine finishable_many (fun {s x} hs hx real => ?_) (fun s r ended hr => ?_)
    fun i fs t follows ht => ?_
  · refine .seen hs (fun _ _ => by rw [starts.moved]) hx real ?_
    split_ifs with found
    · exact (viable_argument he hs hx found).post fun n => .pure _
    · exact .pure hs none
  · obtain ⟨x, hx, spent⟩ := ended.next
    rw [run_peek_bind hx, starts.ends x spent] at hr
    cases hr
    rfl
  · refine Gives.bind (gives_tested starts.plain ht fun x hx => ?_)
    rw [if_neg]
    · exact Gives.pure ⟨rfl, rfl⟩
    · rw [hx, Bool.not_eq_true]
      exact not_startsArgument_of_ends follows

theorem finishable_named (start name : Token) (env : List EnvBinding) :
    Finishable (named expression start name env) (fun i => named (expression' i) start name env) []
      Ending := by
  refine finishable_test (fun line x => ?_) (fun x spent => ?_) (fun {s x} hs hx real _ => ?_) ?_
    fun fs x follows look => ?_
  · rw [Token.isDelimiter_moved]
    rfl
  · rw [(finds_isDelimiter "(").ends x spent, Bool.false_and]
  · exact ((finishable_callArguments he).viable hs).post fun args => finishable_made start _
  · exact (finishable_arguments he).post fun args => finishable_made start _
  · rw [← Token.isDelimiter_plain, look, List.nil_append,
      not_isOpen_of_stopsOperand (stopsOperand_of_ends follows), Bool.false_and]

theorem viable_command (hs : s.Ends) {start : Token} (hstart : s.Next start)
    (word : start.isPlainWord) :
    Viable (command expression start) (fun i => command (expression' i) start) Ending s := by
  have real : start.content ≠ .endOfInput := by simp [Token.isPlainWord_content word]
  have named (name : Token) (env : List EnvBinding) :=
    finishable_named he start name env
  -- prefixes need a command after them in the text itself
  have last {env : List EnvBinding} {u : Stream} (hu : (prefixes expression).run s = .ok (env, u))
      {x : Token} (hx : u.Next x) : (env.isEmpty || x.isPlainWord) = x.isPlainWord := by
    cases env with
    | nil =>
      cases run_prefixes_nil hs hstart hu
      cases hx.symm.trans hstart
      exact word.symm
    | cons b bs => rfl
  refine .then (c := [Filler.word]) ((finishable_prefixes he).viable hs) (fun env u hu => ?_)
    (fun i env fs t follows ht => ?_) (fun fs follows => ?_)
    fun env u hu ended => .inr fun r hr => ?_
  · have ends := (((finishable_prefixes he).viable hs).leaves hu).1
    obtain ⟨x, hx⟩ := ends.peek 0
    have last := last hu hx
    by_cases spent : x.content = .endOfInput
    · refine .fails (e := .parse ⟨.commandAfterBindings, x⟩) ?_ nofun
      rw [run_peek_bind hx, last, finds_isPlainWord.ends x spent]
      rfl
    · refine .peeked ends hx spent ?_
      simp only [Token.isPlainWord_moved, last]
      split_ifs with plain
      · refine .taken ends (fun _ line => by rw [finds_isPlainWord.moved_newLine plain]) hx spent ?_
        exact ((named x env).viable (ends.pop hx spent)).reindex Prod.fst
      · exact .throw nofun
  · refine Gives.bind (gives_tested Token.isPlainWord_plain ht fun x hx => ?_)
    rw [if_pos (by rw [hx, show (nextToken (chunks _)).isPlainWord = true from rfl, Bool.or_true])]
    refine Gives.bind ((gives_advance ht).mono fun name u ⟨_, hu, _⟩ => ?_)
    exact (named name env).fresh i follows hu
  · exact ⟨_, _, _, rfl, not_isOperator_of_stopsOperand (stopsOperand_of_ends follows) "="⟩
  · obtain ⟨x, hx, spent⟩ := ended.next
    rw [run_peek_bind hx, last hu hx, finds_isPlainWord.ends x spent] at hr
    cases hr

omit he in
/-- A value is read where there can be a command. -/
theorem reads_value (expression : Parser Node) : ReadsTree (application expression)
    (.literal none (.bool true)) (Datum.bool true).chunks fun _ => true :=
  reads_application (reads_literal trivial) fun _ => ⟨_, _, rfl, rfl⟩

theorem finishable_application : Finishable (application expression)
    (fun i => application (expression' i)) [value] Ending := by
  refine .inside (fun i fs t follows ht => ?_) (fun _ ended => stalls_application _ ended)
    fun {s x} hs hx real => ?_
  · have reads := reads_value (expression' i)
    exact (reads true (chunks fs) t rfl ht).mono fun n v hv => hv.2
  · simp only [application_eq]
    refine .peeked hs hx real ?_
    simp only [Token.isPlainWord_moved]
    split_ifs with word
    · simp only [finds_isPlainWord.moved_newLine word]
      exact (viable_command he hs hx word).reindex Prod.fst
    · exact (viable_primary he hs hx real (.inr fun _ => id)).reindex Prod.fst

theorem finishable_postfixCalls : Finishable (postfixCalls expression)
    (fun i => postfixCalls (expression' i)) [value] Ending := by
  have closed (fs : List Filler) (follows : Ending fs) :
      (nextToken (chunks fs)).isDelimiter "(" = false :=
    not_isOpen_of_stopsOperand (stopsOperand_of_ends follows)
  refine finishable_start (fun start => .post (finishable_application he) fun callee =>
      (finds_isDelimiter "(").finishable_iterate closed (fun callee s x hs _ _ _ => ?_) callee)
    (fun start => stalls_application.bind) fun i x line => ?_
  · refine ((finishable_callArguments he).viable hs).post fun args => ?_
    exact (finishable_spanFrom start).post fun span => .pure _
  · simp only [spanFrom_newLine]

/-! ## Operators -/

omit he in
theorem finds_isSign : Finds isSign :=
  .of_content (fun t => by rw [isSign, isSign, Token.isOperator_plain, Token.isOperator_plain])
    (fun m x => by rw [isSign, isSign, Token.isOperator_moved, Token.isOperator_moved])
    fun x hx => (Bool.or_eq_true_iff.mp hx).elim ((finds_isOperator "-").content x)
      ((finds_isOperator "!").content x)

omit he in
/-- The signs are applied from the last to the first. -/
theorem finishable_signs (signs : List Token) (operand : Node) :
    Finishable
      (signs.foldrM (fun sign operand => do
        return Node.unary (← spanFrom sign) (.ofSymbol sign.lexeme) operand) operand)
      (fun _ : ι => signs.foldrM (fun sign operand => do
        return Node.unary (← spanFrom sign) (.ofSymbol sign.lexeme) operand) operand) [] F := by
  induction signs with
  | nil => exact .pure operand
  | cons sign signs ih =>
    rw [List.foldrM_cons]
    exact ih.post fun operand => finishable_made sign _

theorem finishable_signed : Finishable (signed expression) (fun i => signed (expression' i)) [value]
    Ending := by
  refine .cast (.bind (G := fun fs => isSign (nextToken (chunks fs)) = false)
    (finishable_many (fun {s x} hs hx real => ?_) (fun s r ended hr => ?_)
      fun i fs t follows ht => ?_)
    (fun signs => .post (finishable_postfixCalls he) (finishable_signs signs))
    fun fs _ => rfl) (List.nil_append _)
  · refine .looked ((finds_isOperator "-").sees hs hx real)
      (.looked ((finds_isOperator "!").sees hs hx real) ?_)
    split_ifs with sign
    · refine .taken hs (fun _ line => ?_) hx real (.pure (hs.pop hx real) _)
      rw [finds_isSign.moved_newLine sign]
    · exact .pure hs none
  · cases (((finds_isOperator "-").run_bind_over ended _).trans
      ((finds_isOperator "!").run_bind_over ended _)).symm.trans hr
    rfl
  · refine Gives.tested (gives_atOperator ht) (Gives.tested (gives_atOperator ht) ?_)
    change Gives (if isSign (nextToken (chunks fs)) then _ else _) t _
    rw [if_neg (Bool.eq_false_iff.mp follows)]
    exact Gives.pure ⟨rfl, rfl⟩

end

theorem finds_isOneOf (ops : List BinaryOperator) : Finds (isOneOf ops) :=
  .of_content (fun t => by simp only [isOneOf, Token.isOperator_plain])
    (fun m x => by simp only [isOneOf, Token.isOperator_moved]) fun x hx => by
      obtain ⟨op, -, h⟩ := List.any_eq_true.mp hx
      exact (finds_isOperator op.symbol).content x h

section

variable {operand : Parser Node} {operand' : ι → Parser Node}
  (ho : Finishable operand operand' [value] Ending) (stalls : Stalls operand)
include ho stalls

theorem finishable_chain (ops : List BinaryOperator) :
    Finishable (chain ops operand) (fun i => chain ops (operand' i)) [value] Ending := by
  have free (fs : List Filler) (follows : Ending fs) :
      isOneOf ops (nextToken (chunks fs)) = false :=
    not_isOneOf_of_stopsOperand ops (stopsOperand_of_ends follows)
  refine finishable_start (fun start => .post ho fun first =>
      (finds_isOneOf ops).finishable_iterate free (fun left s x hs hx real _ => ?_) first)
    (fun start => stalls.bind) fun i x line => ?_
  · refine .taken hs (fun _ _ => rfl) hx real ?_
    refine (ho.viable (hs.pop hx real)).post fun right => ?_
    exact (finishable_spanFrom start).post fun span => .pure _
  · simp only [spanFrom_newLine]

theorem finishable_comparison :
    Finishable (comparison operand) (fun i => comparison (operand' i)) [value] Ending := by
  have found := finds_isOneOf comparisons
  have free (fs : List Filler) (follows : Ending fs) :
      isOneOf comparisons (nextToken (chunks fs)) = false :=
    not_isOneOf_of_stopsOperand _ (stopsOperand_of_ends follows)
  refine finishable_start (fun start => .post ho fun left =>
      found.finishable_ite (fun {s x} hs hx real _ => ?_) (.pure left) free)
    (fun start => stalls.bind) fun i x line => ?_
  · refine .taken hs (fun _ _ => rfl) hx real ?_
    refine (ho.viable (hs.pop hx real)).post fun right => ?_
    refine (finishable_spanFrom start).post fun span => ?_
    refine found.finishable_ite (fun {s x} hs hx real _ => ?_) (.pure _) free
    exact .peeked hs hx real (.throw nofun)
  · simp only [spanFrom_newLine]

theorem finishable_operation :
    Finishable (operation operand) (fun i => operation (operand' i)) [value] Ending := by
  have factors := finishable_chain ho stalls [.mul, .div, .mod]
  have stalls₁ := stalls_chain stalls [.mul, .div, .mod]
  have terms := finishable_chain factors stalls₁ [.add, .sub]
  have stalls₂ := stalls_chain stalls₁ [.add, .sub]
  have compared := finishable_comparison terms stalls₂
  have stalls₃ := stalls_comparison stalls₂
  exact finishable_chain (finishable_chain compared stalls₃ [.and]) (stalls_chain stalls₃ [.and])
    [.or]

end

/-! ## Expressions -/

theorem stalls_signed (expression : Parser Node) : Stalls (signed expression) :=
  stalls_of_wp fun _ hs => signed_wp (fun _ h => absurd h (Nat.not_lt_zero _)) hs

/-- A variable at the end of a text is read. -/
theorem gives_last (expression : Parser Node) {name : String}
    (hs : s.Says [⟨true, .variable name⟩]) :
    Gives (operation (signed expression)) s fun _ u => u.Over := by
  have reference : ReadsTree (application expression) (.reference none name none)
      (Node.reference none name none).chunks stops :=
    Reads.mono (reads_application reads_reference fun _ => ⟨_, _, rfl, rfl⟩) fun _ _ => rfl
  have called := reads_postfixCalls (readsCallee_of_application reference) fun t h =>
    not_isOpen_of_stopsOperand (stopsOperand_of_stops h)
  have reads := reads_operation (reads_signed called fun _ => ⟨_, _, rfl, rfl⟩)
    fun t => stopsOperand_of_stops
  exact (reads true [] s rfl hs).mono fun n u hn => hn.2.ended

section

variable {expression : Parser Node} {expression' : ι → Parser Node}
  (he : Finishes expression expression')
include he

/-- Reads an assignment. -/
def assign (expression : Parser Node) (name : String) : Parser Node := do
  let start ← advance
  let _ ← advance
  let value ← expression
  return .assign (← spanFrom start) name value

theorem viable_assign (hs : s.Ends) {target eq : Token} {name : String} (htarget : s.Next target)
    (content : target.content = .variable name) (heq : s.peek 1 = .ok eq)
    (equal : eq.isOperator "=") :
    Viable (assign expression name) (fun i => assign (expression' i) name) Ending s := by
  have real : target.content ≠ .endOfInput := by simp [content]
  have real' := Token.isOperator_content equal
  have later := hs.pop htarget real
  replace heq : (s.pop target).Next eq := (hs.peek_pop htarget real 0).trans heq
  refine .taken hs (fun _ line => ?_) htarget real ?_
  · rw [Token.moved_newLine (by simp [content])]
  · refine .taken later (fun _ _ => rfl) heq real' ?_
    exact (he.finishable.viable (later.pop heq real')).post fun n => finishable_made target _

/-- Where the text ends behind a variable it is not known whether this is to be assigned. -/
theorem viable_last (hs : s.Ends) {x y : Token} {name : String} (hx : s.Next x)
    (content : x.content = .variable name) (hy : s.peek 1 = .ok y)
    (spent : y.content = .endOfInput) :
    Viable
      (do
        if (← peek 1).isOperator "=" then assign expression name
        else operation (signed expression))
      (fun i => do
        if (← peek 1).isOperator "=" then assign (expression' i) name
        else operation (signed (expression' i))) Ending s := by
  have operations :=
    (finishable_operation (finishable_signed he) (stalls_signed expression)).viable hs
  obtain ⟨n, u, hu, ended⟩ := gives_last expression (hs.says_variable hx content hy spent)
  have run : (do
      if (← peek 1).isOperator "=" then assign expression name
      else operation (signed expression)).run s = .ok (n, u) := by
    rw [StateT.run_bind, run_peek, hy]
    refine Eq.trans ?_ hu
    show (if y.isOperator "=" then _ else _ : Parser Node).run s = _
    rw [(finds_isOperator "=").ends y spent]
    rfl
  refine ⟨fun hp => ?_, fun hp line fs t resumed follows i => ?_, fun hp => ?_⟩
  · cases run.symm.trans hp
    exact operations.leaves hu
  · cases run.symm.trans hp
    obtain ⟨y', hy', -, look⟩ := resumed.peek_end hs hx (by simp [content]) hy spent
    refine Gives.bind (gives_peek hy' ?_)
    rw [if_neg]
    · exact operations.passes hu resumed follows i
    · rw [← Token.isOperator_plain, look,
        not_isOperator_of_stopsOperand (stopsOperand_of_ends (follows ended))]
      exact Bool.false_ne_true
  · cases run.symm.trans hp

theorem finishable_expressionWith : Finishable (expressionWith expression)
    (fun i => expressionWith (expression' i)) [value] Ending := by
  have operations := finishable_operation (finishable_signed he) (stalls_signed expression)
  refine .inside (fun i fs t follows ht => ?_) (fun _ ended => stalls_expressionWith _ _ ended)
    fun {s x} hs hx real => ?_
  · exact gives_expression ht rfl trivial (operations.fresh i follows ht)
  by_cases word : x.isKeyword "let"
  · refine .peeked hs hx real ?_
    simp only [Token.isKeyword_moved, if_pos word]
    exact (viable_define he hs).reindex Prod.fst
  · obtain ⟨content, lexeme, place⟩ := x
    cases content with
    | «variable» name =>
      refine .seen hs (fun _ _ => rfl) hx real ?_
      simp only [if_neg word]
      obtain ⟨y, hy⟩ := hs.peek 1
      by_cases spent : y.content = .endOfInput
      · exact viable_last he hs hx rfl hy spent
      refine .seen hs (fun _ _ => by rw [Token.isOperator_moved]) hy spent ?_
      split_ifs with equal
      · exact viable_assign he hs hx rfl hy equal
      · exact operations.viable hs
    | string parts =>
      refine .peeked hs hx real ?_
      exact (operations.viable hs).reindex Prod.fst
    | endOfInput => exact absurd rfl real
    | _ =>
      refine .seen hs (fun _ _ => rfl) hx real ?_
      simp only [if_neg word]
      exact operations.viable hs

theorem finishes_expressionWith :
    Finishes (expressionWith expression) (fun i => expressionWith (expression' i)) where
  finishable := finishable_expressionWith he
  stalls := stalls_expressionWith expression
  mirrors i line := mirrors_expressionWith (he.mirrors i line) he.stalls
  runs := runs_expressionWith he.runs

end

/-- However expressions within it are read, a value is an expression. -/
theorem gives_value {expression : Parser Node} {fs : List Filler} {t : Stream} (follows : Ending fs)
    (ht : t.Says (chunks ([value] ++ fs))) :
    Gives (expressionWith expression) t fun _ u => u.Says (chunks fs) := by
  have literal : ReadsTree (application expression) (.literal none (.bool true))
      (Datum.bool true).chunks ends := Reads.mono (reads_value expression) fun _ _ => rfl
  have called := reads_postfixCalls (readsCallee_of_application literal) fun t h =>
    not_isOpen_of_stopsOperand (stopsOperand_of_ends h)
  have reads := reads_operation (reads_signed called fun _ => ⟨_, _, rfl, rfl⟩)
    fun t => stopsOperand_of_ends
  refine gives_expression ht rfl trivial ?_
  exact (reads true (chunks fs) t follows ht).mono fun n u hn => hn.2

/-- A bound on the depth that is larger than one for the text does for the longer text. -/
theorem finishes_expressionUpTo (j : Nat) :
    Finishes (expressionUpTo j) (fun k : {k // j < k} => expressionUpTo k) := by
  induction j with
  | zero =>
    refine ⟨⟨fun ⟨k, hk⟩ fs t follows ht => ?_, fun _ _ => .inr fun _ => error_ne_ok,
        fun _ => .throw nofun⟩,
      stalls_expressionUpTo 0, fun k _ => mirrors_expressionUpTo (Nat.zero_le k),
      runs_expressionUpTo 0⟩
    obtain ⟨k, rfl⟩ : ∃ l, k = l + 1 := ⟨k - 1, by omega⟩
    exact gives_value follows ht
  | succ j ih =>
    rw [upTo_succ (fun _ => rfl) j]
    exact finishes_expressionWith (ih.reindex below)

end

end Parser

end Sigil
