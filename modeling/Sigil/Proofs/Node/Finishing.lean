import Sigil.Proofs.Node.Viable

/-!
# Finishing constructs

Lists, types, entries, and the expressions that begin with a mark or a keyword,
where a text ends within them. The tokens that finish an expression do so before
whatever ends expressions, or before `then` (`Ending`); those that finish a list,
or the entries of a block, do so before the mark that closes them (`Closing`).
Readers are given what is known of the reader of the expressions within
(`Finishes`).
-/

namespace Sigil

namespace Filler

/-- A value, which is an expression. -/
def value : Filler := ⟨.word "true", show Lexer.isWord "true" by decide⟩

/-- A parameter, or the name that is defined. -/
def parameter : Filler := ⟨.variable "x", show Lexer.isReference "x" none by decide⟩

/-- The mark before arguments and parameters. -/
def opening : Filler := ⟨.delimiter "(", show "(" ∈ Mark.delimiters by decide⟩

/-- The mark behind them. -/
def closing : Filler := ⟨.delimiter ")", show ")" ∈ Mark.delimiters by decide⟩

/-- What the value of a definition comes behind. -/
def equals : Filler := ⟨.operator "=", show "=" ∈ Lexer.operators by decide⟩

/-- A block. -/
def block : List Filler :=
  [⟨.delimiter "\x7b", show "\x7b" ∈ Mark.delimiters by decide⟩,
    ⟨.delimiter "\x7d", show "\x7d" ∈ Mark.delimiters by decide⟩]

/-- A type, or the name of a command. -/
def word : Filler := ⟨.word "Int", show Lexer.isWord "Int" by decide⟩

end Filler

namespace Parser

open Filler

/-- Whether an expression ends before a token, where the text ended within it: no expression that
was read so far goes on with the token. -/
def ends (t : Token) : Bool :=
  stops t || t.isKeyword "then"

/-- Before what follows, an expression ends. -/
abbrev Ending (fs : List Filler) : Prop :=
  ends (nextToken (chunks fs))

/-- The end of entries follows, or what closes them. -/
abbrev Closing (closing : Option String) (fs : List Filler) : Prop :=
  closes closing (nextToken (chunks fs))

theorem stopsOperand_of_ends {t : Token} (h : ends t) : stopsOperand t := by
  simp only [ends, stopsOperand, Bool.or_eq_true, List.any_cons, List.any_nil, Bool.or_false] at h ⊢
  tauto

theorem not_isElse_of_ends {t : Token} (h : ends t) : t.isKeyword "else" = false := by
  rcases Bool.or_eq_true_iff.mp h with stop | keyword
  · exact not_isElse_of_stops stop
  · simp only [Token.isKeyword, Bool.and_eq_true, decide_eq_true_eq] at keyword
    simp [Token.isKeyword, keyword]

theorem not_startsExpression_of_ends {t : Token} (h : ends t) : startsExpression t = false := by
  rcases Bool.or_eq_true_iff.mp h with stop | keyword
  · exact not_startsExpression_of_stops stop
  · obtain ⟨content, lexeme, span⟩ := t
    simp only [Token.isKeyword, Bool.and_eq_true, decide_eq_true_eq] at keyword
    obtain ⟨⟨rfl, rfl⟩, -⟩ := keyword
    rfl

theorem not_startsArgument_of_ends {t : Token} (h : ends t) : startsArgument t = false := by
  refine Bool.eq_false_iff.mpr fun starts => ?_
  exact Bool.eq_false_iff.mp (not_startsExpression_of_ends h)
    (startsExpression_of_startsArgument starts)

theorem tests_startsExpression : Tests startsExpression where
  plain := Token.startsExpression_plain
  moved m x := by
    simp only [startsExpression, Token.isAtom_moved, Token.isPlainWord_moved, List.any_cons,
      List.any_nil, Token.isKeyword_moved, Token.isDelimiter_moved, Token.isOperator_moved]
  ends x spent := by
    simp [startsExpression, isAtom, Token.isPlainWord, Token.isKeyword, Token.isDelimiter,
      Token.isOperator, spent]

theorem tests_startsArgument : Tests startsArgument where
  plain := Token.startsArgument_plain
  moved m x := by
    simp only [startsArgument, Token.isAtom_moved, Token.isPlainWord_moved, List.any_cons,
      List.any_nil, Token.isKeyword_moved, Token.isDelimiter_moved]
  ends x spent := by
    simp [startsArgument, isAtom, Token.isPlainWord, Token.isKeyword, Token.isDelimiter, spent]

/-- A token is one mark only. -/
theorem not_isDelimiter_of_isDelimiter {t : Token} {d d' : String} (h : t.isDelimiter d)
    (hd : d ≠ d') : t.isDelimiter d' = false := by
  simp only [Token.isDelimiter, Bool.and_eq_true, decide_eq_true_eq] at h
  simp [Token.isDelimiter, h, hd]

theorem not_isOperator_of_isDelimiter {t : Token} {d : String} (h : t.isDelimiter d) (o : String) :
    t.isOperator o = false := by
  simp only [Token.isDelimiter, Bool.and_eq_true, decide_eq_true_eq] at h
  simp [Token.isOperator, h]

section

variable {α β ι : Type} {s : Stream} {F : List Filler → Prop}

/-! ## Lists -/

section

variable {item : Parser α} {item' : ι → Parser α} {c d : List Filler}
  (hitem : Finishable item item' d (Closing (some ")")))
include hitem

theorem viable_commaSeparated (hs : s.Ends) :
    Viable (commaSeparated item) (fun i => commaSeparated (item' i)) (Closing (some ")")) s := by
  refine (hitem.viable hs).post fun first => .post ((finds_isDelimiter ",").finishable_many
    (fun _ h => not_isDelimiter_of_isDelimiter h (by decide)) fun {s x} hs hx real _ => ?_)
    fun rest => .pure _
  refine .taken hs (fun _ _ => rfl) hx real ?_
  exact (hitem.viable (hs.pop hx real)).post fun a => .pure _

/-- Items in parentheses; none are enough where the text ends before them. `rest` goes on with the
closing parenthesis. -/
theorem finishable_listed {rest : List α → Parser β} {rest' : ι → List α → Parser β}
    (stalls : Stalls item) (hrest : ∀ as, Finishable (rest as) (fun i => rest' i as) c F)
    (closes : ∀ fs, F fs → Closing (some ")") (c ++ fs)) :
    Finishable
      (do if ← atDelimiter ")" then Pure.pure [] >>= rest else commaSeparated item >>= rest)
      (fun i => do
        if ← atDelimiter ")" then Pure.pure [] >>= rest' i
        else commaSeparated (item' i) >>= rest' i) c F := by
  refine .inside (fun i fs t follows ht => ?_) (fun _ ended => ?_) fun {s x} hs hx real => ?_
  · refine Gives.yes (gives_atDelimiter ht) (closes fs follows) (Gives.bind (Gives.pure ?_))
    exact (hrest []).fresh i follows ht
  · exact (finds_isDelimiter ")").stalls stalls.bind.bind _ ended
  · refine .looked ((finds_isDelimiter ")").sees hs hx real) ?_
    split_ifs
    · exact .closed (.pure hs []) hrest
    · exact .bind (viable_commaSeparated hitem hs) hrest closes

end

/-! ## Types -/

theorem finishable_typeWith {type : Parser Ty} {type' : ι → Parser Ty} (stalls : Stalls type)
    (h : ∀ {F}, Finishable type type' [Filler.word] F) :
    Finishable (typeWith type) (fun i => typeWith (type' i)) [Filler.word] F := by
  have parens : "(" ∈ Mark.delimiters ∧ ")" ∈ Mark.delimiters := by decide
  have arrow : "->" ∈ Lexer.operators := by decide
  refine .inside (fun i fs t _ ht => ?_) (fun _ => ?_) fun {s x} hs hx real => ?_
  · exact (gives_named (by decide) rfl ht).mono fun _ _ h => h.2
  · refine stalls_peek (fun x spent => ?_) _
    rw [if_pos (by simp [spent])]
    exact stalls_unexpected
  · by_cases word : x.content = .word
    · refine .seen hs (fun _ line => by rw [Token.moved_newLine (by simp [word])]) hx real ?_
      simp only [if_neg (not_not.mpr word)]
      refine .taken hs (fun _ _ => rfl) hx real ?_
      have later := hs.pop hx real
      split_ifs
      · exact .closed ((finishable_delimiter parens.1).viable later) fun _ =>
          finishable_listed h stalls (fun params =>
            .closed (finishable_delimiter parens.2) fun _ =>
            .closed (finishable_operator arrow) fun _ =>
            .closed h fun result => .pure _) fun _ _ => rfl
      · split
        · exact .pure later _
        · exact .throw nofun
    · refine .peeked hs hx real ?_
      rw [if_pos word]
      exact .unexpected hx real

theorem stalls_typeUpTo (depth : Nat) : Stalls (typeUpTo depth) := by
  cases depth with
  | zero => exact fun _ _ _ => nofun
  | succ depth =>
    refine stalls_peek fun x spent => ?_
    rw [if_pos (by simp [spent])]
    exact stalls_unexpected

theorem finishable_typeUpTo (j : Nat) : Finishable (typeUpTo j)
    (fun k : {k // j < k} => typeUpTo k) [Filler.word] F := by
  induction j generalizing F with
  | zero =>
    refine ⟨fun ⟨k, hk⟩ fs t _ ht => ?_, fun _ _ => .inr fun _ => error_ne_ok,
      fun _ => .throw nofun⟩
    obtain ⟨k, rfl⟩ : ∃ l, k = l + 1 := ⟨k - 1, by omega⟩
    exact (gives_named (by decide) rfl ht).mono fun _ _ h => h.2
  | succ j ih =>
    rw [upTo_succ (fun _ => rfl) j]
    exact finishable_typeWith (stalls_typeUpTo j) (ih.reindex below)

theorem finishable_type : Finishable type (fun _ : ι => type) [Filler.word] F where
  fresh i fs t _ ht := Gives.bind (Gives.get
    ((gives_named (by decide) rfl ht).mono fun _ _ h => h.2))
  stalls {s} _ ended := .inr (stalls_typeUpTo _ s ended)
  viable hs := .get ((finishable_typeUpTo _).viable hs) fun _ _ _ _ resumed =>
    ⟨⟨_, Nat.succ_lt_succ resumed.length_lt⟩, rfl⟩

theorem finishable_declaredType : Finishable declaredType (fun _ : ι => declaredType) []
    fun fs => (nextToken (chunks fs)).isOperator ":" = false := by
  refine (finds_isOperator ":").finishable_ite (fun {s x} hs hx real _ => ?_) (.pure _) fun _ h => h
  refine .taken hs (fun _ _ => rfl) hx real ?_
  exact .closed (finishable_type.viable (hs.pop hx real)) fun t => .pure _

/-! ## Entries -/

variable {closing : Option String} {expression : Parser Node} {expression' : ι → Parser Node}

theorem finishable_skipSemicolons : Finishable skipSemicolons (fun _ : ι => skipSemicolons) []
    fun fs => (nextToken (chunks fs)).isDelimiter ";" = false := by
  have semicolon := finds_isDelimiter ";"
  refine .post (semicolon.finishable_many (fun _ h => h) fun {s x} hs hx real semi => ?_)
    fun _ => .pure ()
  refine .taken hs (fun _ line => ?_) hx real (.pure (hs.pop hx real) _)
  rw [semicolon.moved_newLine semi]

/-- What the end of entries comes before is not looked at. -/
theorem sees_atClosing (hs : s.Ends) {x : Token} (hx : s.Next x) (real : x.content ≠ .endOfInput) :
    Sees (atClosing closing) (fun _ : ι => atClosing closing) (closes closing x) s := by
  cases closing with
  | some mark => exact (finds_isDelimiter mark).sees hs hx real
  | none =>
    refine ⟨run_peek_bind hx, fun _ line _ _ resumed => ?_⟩
    rw [atClosing, run_peek_bind (resumed.peek hs hx real)]
    simp only [Token.content_moved]
    rfl

section

variable (hc : closing ∈ [none, some ")", some "\x7d"])
include hc

theorem ending_of_closing {fs : List Filler} (h : Closing closing fs) : Ending fs := by
  rw [Ending, ends, (stops_of_closes hc h).1, Bool.true_or]

theorem finishable_endEntry : Finishable (endEntry closing) (fun _ : ι => endEntry closing) []
    (Closing closing) := by
  refine (finds_isDelimiter ";").finishable_ite (fun {s x} hs hx real _ => ?_) ?_
    fun _ h => (stops_of_closes hc h).2
  · exact .taken hs (fun _ _ => rfl) hx real (.pure (hs.pop hx real) ())
  · refine .optional (a := ()) (fun s r _ hr => ?_) (fun i fs t follows ht => ?_)
      fun {s x} hs hx real => ?_
    · obtain rfl := endUnseparated_wp.of_ok hr
      rfl
    · exact Gives.yes (gives_atClosing ht) follows (Gives.pure ⟨rfl, rfl⟩)
    · refine .looked (sees_atClosing hs hx real) ?_
      split_ifs
      · exact .pure hs ()
      · refine .gets ?_ fun _ _ _ t resumed => ?_
        · split_ifs
          · exact .pure hs ()
          · exact .unexpected hx real
        · rw [resumed.previous]
          cases s.previous with
          | none => rfl
          | some p => rw [Option.map_some, Option.any_some, Token.isDelimiter_moved]; rfl

end

/-- What is known of the readers of expressions: they are finished with a value before what ends
expressions. The others say the same of a text that is read as a whole. -/
structure Finishes (expression : Parser Node) (expression' : ι → Parser Node) : Prop where
  finishable : Finishable expression expression' [value] Ending
  stalls : Stalls expression
  mirrors : ∀ i line, Mirrors (.newLine line) expression (expression' i)
  runs : ∀ {o s₀ t₀}, Runs o s₀ t₀ expression

theorem Finishes.reindex {κ : Type} (he : Finishes expression expression') (φ : κ → ι) :
    Finishes expression (fun k => expression' (φ k)) where
  finishable := he.finishable.reindex φ
  stalls := he.stalls
  mirrors k := he.mirrors (φ k)
  runs := he.runs

section

variable (he : Finishes expression expression')
include he

section

variable (hc : closing ∈ [none, some ")", some "\x7d"])
include hc

theorem finishable_entryHere : Finishable (entryHere expression closing)
    (fun i => entryHere (expression' i) closing) [] (Closing closing) := by
  refine .optional (a := none) (fun s r ended hr => (run_entryHere_over he.stalls ended hr).2)
    (fun i fs t follows ht => ?_) fun {s x} hs hx real => ?_
  · exact Gives.yes (gives_atClosing ht) follows (Gives.pure ⟨rfl, rfl⟩)
  · refine .looked (sees_atClosing hs hx real) ?_
    split_ifs
    · exact .pure hs none
    · have expressions := (he.finishable.viable hs).mono fun fs => ending_of_closing hc
      exact expressions.post fun n => (finishable_endEntry hc).post fun _ => .pure _

theorem finishable_entry : Finishable (entry expression closing)
    (fun i => entry (expression' i) closing) [] (Closing closing) :=
  .bind finishable_skipSemicolons (fun _ => finishable_entryHere he hc)
    fun _ h => (stops_of_closes hc h).2

theorem finishable_entries : Finishable (entries expression closing)
    (fun i => entries (expression' i) closing) [] (Closing closing) := by
  refine finishable_many (fun hs _ _ => (finishable_entry he hc).viable hs)
    (fun s r ended hr => (run_entry_over he.stalls ended hr).2) fun i fs t follows ht => ?_
  refine Gives.bind ((gives_skipSemicolons ht (stops_of_closes hc follows).2).mono ?_)
  rintro _ _ rfl
  exact Gives.yes (gives_atClosing ht) follows (Gives.pure ⟨rfl, rfl⟩)

end

/-! ## Primary expressions -/

/-- The parts of a string are complete, and no other tokens are read for them. -/
theorem viable_stringParts (hs : s.Ends) (ps : List StringPart) :
    Viable (ps.mapM (stringPart expression)) (fun il : ι × List Char =>
      (ps.map (·.moved (.newLine il.2))).mapM (stringPart (expression' il.1))) F s := by
  have agrees : Agrees false (ps.mapM (stringPart expression)) s s fun _ u _ => u = s :=
    stringParts_agrees he.runs fun _ => rfl
  refine ⟨fun hp => ?_, fun hp line _ t resumed _ il => ?_, fun hp => ?_⟩
  · obtain ⟨-, -, rfl⟩ := agrees.ok hp
    exact ⟨hs, id⟩
  · obtain ⟨xs, v, hv, rfl, rfl, rfl⟩ :=
      stringParts_follows (s := s) (t := t) (he.mirrors il.1 il.2) he.stalls ps _ _ hp
    refine ⟨_, _, hv, ?_, resumed⟩
    exact Node.relabelParts_same _
  · exact absurd rfl (complete_of_error agrees hp _)

theorem viable_string (hs : s.Ends) {span : Span} {ps : List StringPart} :
    Viable (string expression span ps) (fun il : ι × List Char => string (expression' il.1) span
      (ps.map (·.moved (.newLine il.2)))) F s := by
  have texts (il : ι × List Char) : (ps.map (·.moved (.newLine il.2))).map StringPart.text? =
      ps.map StringPart.text? := by
    rw [List.map_map]
    exact List.map_congr_left fun p _ => p.text?_moved _
  simp only [string_eq, texts]
  split_ifs
  · exact .pure hs _
  · exact (viable_stringParts he hs ps).post fun xs => .pure _

theorem viable_substitution (hs : s.Ends) :
    Viable (substitution expression) (fun i => substitution (expression' i)) F s := by
  have marks : "$(" ∈ Mark.delimiters ∧ ")" ∈ Mark.delimiters := by decide
  exact .closed ((finishable_delimiter marks.1).viable hs) fun start =>
    .bind (finishable_entries he (by decide)) (fun body =>
      .closed (finishable_delimiter marks.2) fun _ => finishable_made start _) fun _ _ => rfl

theorem viable_parenthesized (hs : s.Ends) :
    Viable (parenthesized expression) (fun i => parenthesized (expression' i)) F s := by
  have marks : "(" ∈ Mark.delimiters ∧ ")" ∈ Mark.delimiters := by decide
  have close {start : Token} {s : Stream} {x : Token} (hs : s.Ends) (hx : s.Next x)
      (real : x.content ≠ .endOfInput) : Viable
        (do let _ ← advance; return Node.literal (← spanFrom start) .unit)
        (fun _ : ι => do let _ ← advance; return Node.literal (← spanFrom start) .unit) F s :=
    .taken hs (fun _ _ => rfl) hx real ((finishable_made start _).viable (hs.pop hx real))
  exact .closed ((finishable_delimiter marks.1).viable hs) fun start =>
    (finds_isDelimiter ")").finishable_ite (fun hs hx real _ => close hs hx real)
      (.bind he.finishable (fun n => .closed (finishable_delimiter marks.2) fun _ => .pure n)
        fun _ _ => rfl) fun _ _ => rfl

theorem finishable_block :
    Finishable (block expression) (fun i => block (expression' i)) Filler.block F := by
  have marks : "\x7b" ∈ Mark.delimiters ∧ "\x7d" ∈ Mark.delimiters := by decide
  exact .cast (.closed (finishable_delimiter marks.1) fun start =>
    .bind (finishable_entries he (by decide)) (fun body =>
      .closed (finishable_delimiter marks.2) fun _ => finishable_made start _) fun _ _ => rfl) rfl

theorem viable_blockNode (hs : s.Ends) :
    Viable (blockNode expression) (fun i => blockNode (expression' i)) F s :=
  ((finishable_block he).viable hs).post fun (_, _) => .pure _

theorem finishable_elseBranch (start : Token) (condition thenBranch : Node) :
    Finishable (elseBranch expression start condition thenBranch)
      (fun i => elseBranch (expression' i) start condition thenBranch) [] Ending := by
  refine (finds_isKeyword "else").finishable_ite (fun {s x} hs hx real _ => ?_) ?_ fun fs h => ?_
  · refine .taken hs (fun _ _ => rfl) hx real ?_
    exact (he.finishable.viable (hs.pop hx real)).post fun n =>
      .post (.pure (some n)) fun _ => finishable_made start _
  · exact .post (.pure none) fun _ => finishable_made start _
  · exact not_isElse_of_ends h

theorem viable_conditional (hs : s.Ends) :
    Viable (conditional expression) (fun i => conditional (expression' i)) Ending s := by
  have words : Lexer.isWord "if" ∧ Lexer.isWord "then" := by decide
  refine .closed ((finishable_keyword (by decide) words.1).viable hs) fun start =>
    .bind (c := [value]) (d := [⟨.word "then", words.2⟩, value]) he.finishable (fun condition => ?_)
      fun _ _ => rfl
  refine .inside (fun i fs t follows ht => ?_) (fun _ ended => ?_) fun {s x} hs hx real => ?_
  · refine Gives.yesFirst (gives_atKeyword ht) (gives_atDelimiter ht) rfl (Gives.bind ?_)
    refine (gives_advance ht).mono fun _ u ⟨_, hu, _⟩ => Gives.bind ?_
    refine (he.finishable.fresh i follows hu).mono fun n v hv => ?_
    exact (finishable_elseBranch he start condition n).fresh i follows hv
  · exact (finds_isKeyword "then").stalls ((finds_isDelimiter "\x7b").stalls
      (stalls_unexpected.bind)) _ ended
  · refine .looked ((finds_isKeyword "then").sees hs hx real)
      (.looked ((finds_isDelimiter "\x7b").sees hs hx real) ?_)
    split_ifs
    · refine .taken hs (fun _ _ => rfl) hx real ?_
      exact (he.finishable.viable (hs.pop hx real)).post (finishable_elseBranch he start condition)
    · exact (viable_blockNode he hs).post (finishable_elseBranch he start condition)
    · exact (Viable.unexpected hx real).post (finishable_elseBranch he start condition)

omit he in
theorem finishable_parameter : Finishable parameter (fun _ : ι => parameter) [Filler.parameter]
    fun fs => (nextToken (chunks fs)).isOperator ":" = false := by
  refine .inside (fun i fs t follows ht => ?_) (fun _ => stalls_peek (fun x spent => ?_) _)
    fun {s x} hs hx real => ?_
  · refine Gives.bind (gives_first ht fun x content => ?_)
    simp only [show x.content = .variable "x" from content]
    refine Gives.bind ((gives_advance ht).mono fun start u ⟨_, hu, _⟩ => ?_)
    exact Finishable.fresh (.post finishable_declaredType fun declared => finishable_made start _)
      i follows hu
  · simp only [spent]
    exact stalls_unexpected
  · obtain ⟨content, lexeme, place⟩ := x
    cases content with
    | «variable» name =>
      refine .seen hs (fun _ _ => rfl) hx real (.taken hs (fun _ _ => rfl) hx real ?_)
      exact (finishable_declaredType.viable (hs.pop hx real)).post fun declared =>
        finishable_made _ _
    | _ => exact .peeked hs hx real (.unexpected hx real)

omit he in
theorem stalls_parameter : Stalls parameter := by
  refine stalls_peek fun x spent => ?_
  simp only [spent]
  exact stalls_unexpected

theorem finishable_functionBody (start : Token) (name : Option String) (params : List Param)
    (returns : Option Ty) : Finishable (functionBody expression start name params returns)
      (fun i => functionBody (expression' i) start name params returns) Filler.block F := by
  let made (block : Option Span × List Node) : Parser Node := do
    return .function (← spanFrom start) name params returns block.1 block.2
  have body : Finishable (block expression >>= made) (fun i => block (expression' i) >>= made)
      Filler.block F :=
    (finishable_block he).post fun _ => finishable_made start _
  refine .inside (fun i fs t follows ht => ?_) (fun _ ended => ?_) fun {s x} hs hx real => ?_
  · exact Gives.yes (gives_atDelimiter ht) rfl (body.fresh i follows ht)
  · exact (finds_isDelimiter "\x7b").stalls stalls_unexpected _ ended
  · refine .looked ((finds_isDelimiter "\x7b").sees hs hx real) ?_
    split_ifs
    · exact body.viable hs
    · exact .unexpected hx real

theorem finishable_functionFrom (start : Token) (name : Option String) :
    Finishable (functionFrom expression start name)
      (fun i => functionFrom (expression' i) start name)
      (Filler.opening :: Filler.closing :: Filler.block) F := by
  have body (params : List Param) (returns : Option Ty) :=
    finishable_functionBody (F := F) he start name params returns
  have parameters := (finishable_parameter (ι := ι)).mono fun fs (h : Closing (some ")") fs) =>
    not_isOperator_of_isDelimiter h ":"
  refine .cast (.closed (finishable_delimiter Filler.opening.2) fun _ =>
    finishable_listed parameters stalls_parameter (fun params =>
      .closed (finishable_delimiter Filler.closing.2) fun _ =>
      (finds_isOperator "->").finishable_ite (fun {s x} hs hx real _ => ?_)
        (.closed (.pure none) fun _ => body params _) fun _ _ => rfl) fun _ _ => rfl) rfl
  refine .taken hs (fun _ _ => rfl) hx real ?_
  exact .closed (finishable_type.viable (hs.pop hx real)) fun returns =>
    .closed (.pure (some returns)) fun _ => body params _

theorem viable_function (hs : s.Ends) :
    Viable (function expression) (fun i => function (expression' i)) F s := by
  have word : Lexer.isWord "fn" := by decide
  refine .closed ((finishable_keyword (by decide) word).viable hs) fun start =>
    finds_isPlainWord.finishable_peek (fun {s x} hs hx real plain => ?_)
      (.closed (.pure none) fun _ => finishable_functionFrom he start _) fun _ _ => rfl
  refine .taken hs (fun _ line => by rw [finds_isPlainWord.moved_newLine plain]) hx real ?_
  exact .closed (.pure (hs.pop hx real) _) fun _ => finishable_functionFrom he start _

theorem viable_return (hs : s.Ends) :
    Viable (return_ expression) (fun i => return_ (expression' i)) Ending s := by
  have word : Lexer.isWord "return" := by decide
  refine .closed ((finishable_keyword (by decide) word).viable hs) fun start =>
    tests_startsExpression.finishable_peek (fun {s x} hs hx real _ => ?_)
      (.post (.pure none) fun _ => finishable_made start _) fun _ h => ?_
  · exact (he.finishable.viable hs).post fun n =>
      .post (.pure (some n)) fun _ => finishable_made start _
  · exact not_startsExpression_of_ends h

/-- Reads a definition from behind its name on. -/
def defineFrom (expression : Parser Node) (start : Token) (name : String) : Parser Node := do
  let declared ← declaredType
  let _ ← operator "="
  let value ← expression
  return .define (← spanFrom start) name declared value

theorem finishable_defineFrom (start : Token) (name : String) :
    Finishable (defineFrom expression start name) (fun i => defineFrom (expression' i) start name)
      [equals, value] Ending :=
  .bind finishable_declaredType (fun _ => .closed (finishable_operator equals.2) fun _ =>
    .post he.finishable fun _ => finishable_made start _) fun _ _ => rfl

theorem viable_define (hs : s.Ends) :
    Viable (define expression) (fun i => define (expression' i)) Ending s := by
  have word : Lexer.isWord "let" := by decide
  refine .closed (c := [Filler.parameter, equals, value])
    ((finishable_keyword (by decide) word).viable hs) fun start =>
    .inside (fun i fs t follows ht => ?_) (fun _ => stalls_peek (fun x spent => ?_) _)
      fun {s x} hs hx real => ?_
  · refine Gives.bind (gives_first ht fun x content => ?_)
    simp only [show x.content = .variable "x" from content]
    refine Gives.bind ((gives_advance ht).mono fun _ u ⟨_, hu, _⟩ => ?_)
    exact (finishable_defineFrom he start "x").fresh i follows hu
  · simp only [spent]
    exact stalls_unexpected
  · obtain ⟨content, lexeme, place⟩ := x
    cases content with
    | «variable» name =>
      refine .seen hs (fun _ _ => rfl) hx real (.taken hs (fun _ _ => rfl) hx real ?_)
      exact (finishable_defineFrom he start name).viable (hs.pop hx real)
    | _ => exact .peeked hs hx real (.unexpected hx real)

/-- What can be an argument ends by itself. -/
theorem viable_primary (hs : s.Ends) {x : Token} (hx : s.Next x) (real : x.content ≠ .endOfInput)
    (hF : startsArgument x ∨ ∀ fs, F fs → Ending fs) :
    Viable (primary expression) (fun i => primary (expression' i)) F s := by
  have later := hs.pop hx real
  obtain ⟨content, lexeme, place⟩ := x
  cases content with
  | integer n =>
    exact .seen hs (fun _ _ => rfl) hx real (.taken hs (fun _ _ => rfl) hx real (.pure later _))
  | float x =>
    exact .seen hs (fun _ _ => rfl) hx real (.taken hs (fun _ _ => rfl) hx real (.pure later _))
  | string parts =>
    exact .peeked hs hx real (.taken hs (fun _ _ => rfl) hx real (viable_string he later))
  | «variable» name =>
    exact .seen hs (fun _ _ => rfl) hx real (.taken hs (fun _ _ => rfl) hx real (.pure later _))
  | defaulted name default =>
    exact .seen hs (fun _ _ => rfl) hx real (.taken hs (fun _ _ => rfl) hx real (.pure later _))
  | delimiter =>
    refine .seen hs (fun _ _ => rfl) hx real ?_
    dsimp only
    split_ifs
    · exact viable_parenthesized he hs
    · exact viable_substitution he hs
    · exact viable_blockNode he hs
    · exact .unexpected hx real
  | word =>
    have follows (no : ¬ startsArgument ⟨.word, lexeme, place⟩) := hF.resolve_left no
    refine .seen hs (fun _ _ => rfl) hx real ?_
    dsimp only
    split_ifs with _ «if» _ «return» «let»
    · exact .taken hs (fun _ _ => rfl) hx real (.pure later _)
    · subst «if»
      exact (viable_conditional he hs).mono (follows nofun)
    · exact viable_function he hs
    · subst «return»
      exact (viable_return he hs).mono (follows nofun)
    · subst «let»
      exact (viable_define he hs).mono (follows nofun)
    · exact .unexpected hx real
  | operator => exact .seen hs (fun _ _ => rfl) hx real (.unexpected hx real)
  | endOfInput => exact absurd rfl real

end

end

end Parser

end Sigil
