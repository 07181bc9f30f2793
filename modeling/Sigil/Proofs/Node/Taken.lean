import Sigil.Proofs.Node.Excerpt
import Sigil.Proofs.Node.FollowedExpressions
import Sigil.Proofs.Node.Infix

/-!
# Tokens that a reader takes

A reader takes some tokens if it reads just these where they come next, whatever
comes behind them, as long as that is something it stops at (`Parser.Takes`).
The tokens are those of any text, so that what is shown of them holds where the
text stands in a longer one. What stands in parentheses is taken if an
expression takes what is between them (`Parser.takes_parenthesized`), and then a
command is taken that is written with parentheses about all of its arguments
(`Parser.takes_called`) or about each (`Parser.takes_applied`).
-/

namespace Sigil

/-- The tree of a number or a reference. -/
def Token.operand? (t : Token) : Option Node :=
  match t.content with
  | .integer n => some (.literal none (.int n))
  | .float x => some (.literal none (.float x))
  | .variable name => some (.reference none name none)
  | .defaulted name default => some (.reference none name (some default))
  | _ => none

namespace Parser

variable {α β γ : Type} {s : Stream} {x : Token} {rest : List Token}

/-- Where these tokens come next, and then one that the reader stops at, it reads just these. The
result is known by its key. -/
def Takes (parser : Parser α) (key : α → γ) (c : γ) (ts : List Token) (stop : Token → Bool) : Prop :=
  ∀ s mark rest, stop mark → s.ahead = ts ++ mark :: rest →
    Gives parser s fun a t => key a = c ∧ t.ahead = mark :: rest

/-- The same of an expression, which may end before a parenthesis or a comma. -/
abbrev TakesTree (expression : Parser Node) (n : Node) (ts : List Token) : Prop :=
  Takes expression Node.erase n.erase ts Token.endsExpression

/-! ## The next token -/

theorem Gives.looked {test : Parser Bool} {looks : Token → Bool} (h : Looks test looks)
    (hx : s.Next x) : Gives test s fun b t => b = looks x ∧ t = s := by
  refine ⟨looks x, s, ?_, rfl, rfl⟩
  rw [h, hx]
  rfl

theorem gives_advance_ahead (ahead : s.ahead = x :: rest) (real : x.content ≠ .endOfInput) :
    Gives advance s fun t u => t = x ∧ u.ahead = rest := by
  refine ⟨x, s.pop x, ?_, rfl, ?_⟩
  · rw [run_advance, Stream.next_of_ahead ahead]
    rfl
  · rw [Stream.pop, if_neg real]
    simp [ahead]

theorem gives_delimiter_ahead {d : String} (ahead : s.ahead = x :: rest) (hx : x.isDelimiter d) :
    Gives (delimiter d) s fun t u => t = x ∧ u.ahead = rest :=
  Gives.yes (.looked (looks_atDelimiter d) (Stream.next_of_ahead ahead)) hx
    (gives_advance_ahead ahead fun spent => Token.isDelimiter_content hx spent)

/-! ## Parentheses -/

section

variable {expression : Parser Node} {opening closing : Token} {n : Node} {ts : List Token}

theorem takes_parenthesized {stop : Token → Bool} (ho : opening.isDelimiter "(")
    (hc : closing.isDelimiter ")") (hx : x.isDelimiter ")" = false)
    (h : TakesTree expression n (x :: ts)) :
    Takes (parenthesized expression) Node.erase n.erase (opening :: (x :: ts ++ [closing])) stop := by
  intro s mark rest _ ahead
  rw [List.cons_append, List.append_assoc] at ahead
  refine Gives.bind ((gives_delimiter_ahead ahead ho).mono fun start t opened => ?_)
  obtain ⟨-, inside⟩ := opened
  refine Gives.no (.looked (looks_atDelimiter ")") (Stream.next_of_ahead inside)) hx (Gives.bind ?_)
  have ends : closing.endsExpression := by rw [Token.endsExpression, hc, Bool.true_or]
  refine (h t closing (mark :: rest) ends inside).mono fun m u read => ?_
  refine Gives.bind ((gives_delimiter_ahead read.2 hc).mono fun _ v closed => ?_)
  exact Gives.pure ⟨read.1, closed.2⟩

end

/-! ## Loops -/

/-- The rounds of a loop over a step: the tokens that each takes, and what it gives. -/
inductive Laps (step : Parser (Option α)) (key : α → γ) (stop : Token → Bool) :
    List γ → List Token → Prop
  | nil : Laps step key stop [] []
  | cons {c : γ} {cs : List γ} {x : Token} {ts us : List Token} (starts : stop x)
    (h : Takes step (Option.map key) (some c) (x :: ts) stop) (rest : Laps step key stop cs us) :
    Laps step key stop (c :: cs) (x :: ts ++ us)

theorem takes_many {step : Parser (Option α)} {key : α → γ} {cs : List γ} {ts : List Token}
    {stop last : Token → Bool} (h : Laps step key stop cs ts) (hlast : ∀ t, last t → stop t)
    (done : Takes step (Option.map key) none [] last) : Takes (many step) (List.map key) cs ts last := by
  intro s mark rest hm ahead
  refine gives_many (k := key) (Q := fun t => t.ahead = mark :: rest)
    (P := fun cs t => ∃ us, Laps step key stop cs us ∧ t.ahead = us ++ mark :: rest)
    (fun t ht => ?_) (fun c cs t ht => ?_) ⟨ts, h, ahead⟩
  · obtain ⟨us, laps, ahead⟩ := ht
    cases laps
    refine (done t mark rest hm ahead).mono fun r u hr => ?_
    exact ⟨Option.map_eq_none_iff.mp hr.1, hr.2⟩
  · obtain ⟨us, laps, ahead⟩ := ht
    cases laps with
    | @cons _ _ x ts us starts h laps =>
      obtain ⟨y, ys, next, hy⟩ : ∃ y ys, us ++ mark :: rest = y :: ys ∧ stop y := by
        cases laps with
        | nil => exact ⟨mark, rest, rfl, hlast mark hm⟩
        | cons starts => exact ⟨_, _, rfl, starts⟩
      rw [List.append_assoc, next] at ahead
      refine (h t y ys hy ahead).mono fun r u hr => ?_
      obtain ⟨a, rfl, ha⟩ := Option.map_eq_some_iff.mp hr.1
      refine ⟨a, rfl, ha, ?_, us, laps, hr.2.trans next.symm⟩
      simp only [ahead, hr.2, List.length_append, List.length_cons]
      omega

/-! ## Arguments -/

section

variable {expression : Parser Node} {ts : List Token}

/-- An expression behind a comma. -/
theorem takes_nextItem {comma : Token} {n : Node} (hd : comma.isDelimiter ",")
    (h : TakesTree expression n ts) : Takes (nextItem expression) (Option.map Node.erase)
      (some n.erase) (comma :: ts) Token.endsExpression := by
  intro s mark rest hm ahead
  have next := Stream.next_of_ahead ahead
  refine Gives.yes (.looked (looks_atDelimiter ",") next) hd (Gives.bind ?_)
  refine (gives_advance_ahead ahead fun spent => Token.isDelimiter_content hd spent).mono ?_
  intro _ t taken
  refine Gives.bind ((h t mark rest hm taken.2).mono fun m u read => Gives.pure ?_)
  exact ⟨congrArg some read.1, read.2⟩

/-- Arguments in parentheses, with commas between them. -/
theorem takes_callArguments {opening x closing : Token} {us : List Token} {n : Node}
    {cs : List Node} {stop : Token → Bool} (ho : opening.isDelimiter "(") (hc : closing.isDelimiter ")")
    (hx : x.isDelimiter ")" = false) (h : TakesTree expression n (x :: ts))
    (more : Laps (nextItem expression) Node.erase Token.endsExpression cs us) :
    Takes (callArguments expression) (List.map Node.erase) (n.erase :: cs)
      (opening :: (x :: ts ++ us ++ [closing])) stop := by
  intro s mark rest _ ahead
  simp only [List.cons_append, List.append_assoc, List.nil_append] at ahead
  refine Gives.bind ((gives_delimiter_ahead ahead ho).mono fun start t opened => ?_)
  obtain ⟨-, inside⟩ := opened
  refine Gives.no (.looked (looks_atDelimiter ")") (Stream.next_of_ahead inside)) hx (Gives.bind ?_)
  have ends : closing.endsExpression := by rw [Token.endsExpression, hc, Bool.true_or]
  obtain ⟨y, ys, next, hy⟩ : ∃ y ys, us ++ closing :: mark :: rest = y :: ys ∧ y.endsExpression := by
    cases more with
    | nil => exact ⟨closing, mark :: rest, rfl, ends⟩
    | cons starts => exact ⟨_, _, rfl, starts⟩
  refine Gives.bind ((h t y ys hy (inside.trans (by rw [next]; rfl))).mono fun m u first => ?_)
  have last : Takes (nextItem expression) (Option.map Node.erase) none [] (·.isDelimiter ")") := by
    intro t mark rest hm ahead
    have other : mark.isDelimiter "," = false := by
      simp only [Token.isDelimiter, Bool.and_eq_true, decide_eq_true_eq] at hm
      simp [Token.isDelimiter, hm]
    exact Gives.no (.looked (looks_atDelimiter ",") (Stream.next_of_ahead ahead)) other
      (Gives.pure ⟨rfl, ahead⟩)
  refine Gives.bind ((takes_many more (fun t ht => ?_) last u closing (mark :: rest) hc
    (first.2.trans next.symm)).mono fun ms v others => ?_)
  · rw [Token.endsExpression, ht, Bool.true_or]
  refine Gives.pure ?_
  refine Gives.bind ((gives_delimiter_ahead others.2 hc).mono fun _ w closed => Gives.pure ?_)
  exact ⟨by rw [List.map_cons, first.1, others.1], closed.2⟩

/-- Another argument, if there is one. -/
def nextArgument (expression : Parser Node) : Parser (Option Node) := do
  if startsArgument (← peek 0) then return some (← argument expression) else return none

/-- An argument in parentheses. -/
theorem takes_nextArgument {opening x closing : Token} {n : Node} {stop : Token → Bool}
    (ho : opening.isDelimiter "(") (hc : closing.isDelimiter ")") (hx : x.isDelimiter ")" = false)
    (h : TakesTree expression n (x :: ts)) : Takes (nextArgument expression)
      (Option.map Node.erase) (some n.erase) (opening :: (x :: ts ++ [closing])) stop := by
  intro s mark rest hm ahead
  have next := Stream.next_of_ahead ahead
  have starts : startsArgument opening := by simp [startsArgument, ho]
  have word : ¬ opening.isPlainWord := by
    rw [Token.not_isPlainWord_of_isEnclosing]
    · exact Bool.false_ne_true
    · simp only [Token.isDelimiter, Bool.and_eq_true, decide_eq_true_eq] at ho
      simp [Token.isEnclosing, ho]
  refine Gives.bind (gives_peek next ?_)
  rw [if_pos starts]
  refine Gives.bind (Gives.bind (gives_peek next ?_))
  rw [if_neg word, if_pos ho]
  have enclosed : Takes (parenthesized expression) Node.erase n.erase _ stop :=
    takes_parenthesized ho hc hx h
  refine (enclosed s mark rest hm ahead).mono ?_
  exact fun m t read => Gives.pure ⟨congrArg some read.1, read.2⟩

/-- Arguments with parentheses about each, up to the end of the text. -/
theorem takes_arguments {cs : List Node}
    (h : Laps (nextArgument expression) Node.erase (fun _ => true) cs ts) :
    Takes (arguments expression) (List.map Node.erase) cs ts (·.content = .endOfInput) := by
  refine takes_many h (fun _ _ => rfl) fun s mark rest hm ahead => ?_
  refine Gives.bind (gives_peek (Stream.next_of_ahead ahead) ?_)
  rw [if_neg]
  · exact Gives.pure ⟨rfl, ahead⟩
  · have ends : startsArgument mark = false := by
      have spent : mark.content = .endOfInput := of_decide_eq_true hm
      simp [startsArgument, isAtom, Token.isPlainWord, Token.isKeyword, Token.isDelimiter, spent]
    exact Bool.eq_false_iff.mp ends

/-! ## Commands -/

/-- A command, of which the arguments are known. -/
theorem takes_command {name opening x : Token} {ns : List Node} {stop : Token → Bool}
    (plain : name.isPlainWord) (ho : opening.isDelimiter "(")
    (h : Takes (if adjacent name opening then callArguments expression else arguments expression)
      (List.map Node.erase) (ns.map Node.erase) (opening :: x :: ts) stop) :
    Takes (application expression) Node.erase (Node.command none [] name.lexeme ns).erase
      (name :: opening :: x :: ts) stop := by
  intro s mark rest hm ahead
  have next := Stream.next_of_ahead ahead
  have other : opening.isOperator "=" = false := by
    simp only [Token.isDelimiter, Bool.and_eq_true, decide_eq_true_eq] at ho
    simp [Token.isOperator, ho]
  have named : name.content ≠ .endOfInput := fun spent => by
    simp [Token.isPlainWord, spent] at plain
  have bare : (prefixes expression).run s = .ok ([], s) := by
    have eq : s.peek 1 = .ok opening := Stream.peek_of_ahead (by rw [ahead]; rfl)
    have value : s.peek 2 = .ok x := Stream.peek_of_ahead (by rw [ahead]; rfl)
    have bound : binds name opening x = false := by simp [binds, other]
    refine run_iterate_none ?_
    rw [StateT.run_bind, StateT.run_bind, run_atBinding next eq value, bound]
    rfl
  rw [application_eq]
  refine Gives.bind (gives_peek next ?_)
  rw [if_pos plain]
  refine Gives.bind ⟨[], s, bare, ?_⟩
  refine Gives.bind (gives_peek next ?_)
  rw [if_pos (by simp)]
  refine Gives.bind ((gives_advance_ahead ahead named).mono fun t u taken => ?_)
  obtain ⟨rfl, left⟩ := taken
  refine Gives.bind (gives_peek (Stream.next_of_ahead left) ?_)
  rw [ho, Bool.true_and]
  have made (as : List Node) (v : Stream)
      (read : as.map Node.erase = ns.map Node.erase ∧ v.ahead = mark :: rest) :
      Gives (do return Node.command (← spanFrom t) [] t.lexeme as) v fun (m : Node) v =>
        m.erase = (Node.command none [] t.lexeme ns).erase ∧ v.ahead = mark :: rest := by
    refine Gives.bind (gives_spanFrom fun _ => Gives.pure ⟨?_, read.2⟩)
    simp only [Node.erase, Node.eraseAll_eq_map, read.1, Node.eraseBindings]
  split_ifs at h ⊢
  · exact Gives.bind ((h u mark rest hm left).mono made)
  · exact Gives.bind ((h u mark rest hm left).mono made)

end

/-! ## Operands -/

section

variable {expression : Parser Node} {n : Node} {ts : List Token}

/-- A number or a reference. -/
theorem takes_operand {t : Token} {stop : Token → Bool} (h : t.operand? = some n) :
    Takes (application expression) Node.erase n.erase [t] stop := by
  intro s mark rest _ ahead
  have next := Stream.next_of_ahead ahead
  obtain ⟨content, lexeme, span⟩ := t
  have plain : ¬ (Token.mk content lexeme span).isPlainWord := by
    cases content <;> first | exact Bool.false_ne_true | cases h
  have real : (Token.mk content lexeme span).content ≠ .endOfInput := fun spent => by
    cases spent
    cases h
  refine Gives.bind (gives_peek next ?_)
  rw [if_neg plain]
  refine Gives.bind (gives_peek next ?_)
  cases content with
  | integer | float | «variable» | defaulted =>
    cases h
    exact Gives.bind ((gives_advance_ahead ahead real).mono fun _ _ taken => Gives.pure ⟨rfl, taken.2⟩)
  | _ => cases h

/-- An expression in parentheses. -/
theorem takes_enclosed {opening x closing : Token} {stop : Token → Bool}
    (ho : opening.isDelimiter "(") (hc : closing.isDelimiter ")") (hx : x.isDelimiter ")" = false)
    (h : TakesTree expression n (x :: ts)) : Takes (application expression) Node.erase n.erase
      (opening :: (x :: ts ++ [closing])) stop := by
  intro s mark rest hm ahead
  have next := Stream.next_of_ahead ahead
  have enclosed : Takes (parenthesized expression) Node.erase n.erase _ stop :=
    takes_parenthesized ho hc hx h
  have read := enclosed s mark rest hm ahead
  obtain ⟨content, lexeme, span⟩ := opening
  obtain ⟨rfl, rfl⟩ : content = .delimiter ∧ lexeme = "(" := by simpa [Token.isDelimiter] using ho
  exact Gives.bind (gives_peek next (Gives.bind (gives_peek next read)))

theorem not_isSign_of_startsArgument (starts : startsArgument x) : isSign x = false := by
  simp [isSign, not_isOperator_of_startsArgument starts]

/-- What is read before calls and signs, where there are none. -/
theorem takes_signed {stop : Token → Bool} (hx : isSign x = false)
    (hstop : ∀ t, stop t → t.isDelimiter "(" = false)
    (h : Takes (application expression) Node.erase n.erase (x :: ts) stop) :
    Takes (signed expression) Node.erase n.erase (x :: ts) stop := by
  intro s mark rest hm ahead
  have next := Stream.next_of_ahead ahead
  refine Gives.bind ⟨[], s, run_signs next hx, Gives.bind ?_⟩
  refine Gives.mono (Q := fun m t => m.erase = n.erase ∧ t.ahead = mark :: rest) ?_
    fun m t read => Gives.pure read
  refine Gives.bind (gives_peek next (Gives.bind ?_))
  refine (h s mark rest hm ahead).mono fun m t read => gives_iterate (Rounds.done ?_)
  exact Gives.no (.looked (looks_atDelimiter "(") (Stream.next_of_ahead read.2)) (hstop mark hm)
    (Gives.pure ⟨rfl, read⟩)

end

/-! ## Whole scripts -/

section

open Chain

variable {expression : Parser Node} {n : Node} {ts : List Token} {stop : Token → Bool}

theorem Takes.gets {parser : Parser Node} (h : Takes parser Node.erase n.erase (x :: ts) stop)
    {mark : Token} (hm : stop mark) (ahead : s.ahead = x :: ts ++ mark :: rest) :
    ∃ t, Gets parser s n t ∧ t.ahead = mark :: rest := by
  obtain ⟨m, t, run, same, left⟩ := h s mark rest hm ahead
  exact ⟨t, ⟨⟨x, Stream.next_of_ahead ahead⟩, m, run, same⟩, left⟩

/-- An operator with its operand, before other links. -/
theorem links_cons {parser : Parser Node} {op : BinaryOperator} {o y : Token} {ys last : List Token}
    {links : List Link} (operator : o.content = .operator) (lexeme : o.lexeme = op.symbol)
    (known : op ∈ BinaryOperator.all) (h : Takes parser Node.erase n.erase (x :: ts) stop)
    (hy : stop y) (ahead : s.ahead = o :: (x :: ts ++ y :: ys))
    (more : ∀ u : Stream, u.ahead = y :: ys → ∃ t, Links parser u links t ∧ t.ahead = last) :
    ∃ t, Links parser s ((op, n) :: links) t ∧ t.ahead = last := by
  have left : (s.pop o).ahead = x :: ts ++ y :: ys := by
    rw [Stream.pop, if_neg (by simp [operator])]
    simp [ahead]
  obtain ⟨u, gets, behind⟩ := h.gets hy left
  obtain ⟨t, links, ended⟩ := more u behind
  have shorter : u.ahead.length < s.ahead.length := by
    simp only [ahead, behind, List.length_append, List.length_cons]
    omega
  exact ⟨t, ⟨o, u, ⟨Stream.next_of_ahead ahead, operator, lexeme, known⟩, gets, shorter, links⟩,
    ended⟩

/-- An expression that is neither a definition nor an assignment. -/
theorem run_expressionWith (starts : startsArgument x) (hx : s.Next x)
    (target : ∀ name, x.content = .variable name →
      ∃ y, s.peek 1 = .ok y ∧ y.isOperator "=" = false) :
    (expressionWith expression).run s = (operation (signed expression)).run s := by
  have letless : ¬ x.isKeyword "let" := fun keyword => by
    obtain ⟨content, lexeme, span⟩ := x
    obtain ⟨⟨rfl, rfl⟩, -⟩ : (content = .word ∧ lexeme = "let") ∧ "let" ∈ Token.keywords := by
      simpa [Token.isKeyword] using keyword
    revert starts
    exact Bool.false_ne_true
  rw [expressionWith, run_peek_bind hx, if_neg letless]
  split
  · next name content =>
    obtain ⟨y, hy, other⟩ := target name content
    rw [StateT.run_bind, run_peek, hy]
    show (if y.isOperator "=" then _ else _ : Parser Node).run s = _
    rw [other]
    rfl
  · rfl

/-- A script of operands with operators between them. -/
theorem parseProgram_operation {text : List Char} {first : Node} {links : List Link} {u t : Stream}
    {e : Token} (starts : startsArgument x)
    (hx : (Stream.ofLexed (tokenize text) false 0).Next x)
    (target : ∀ name, x.content = .variable name → ∃ y,
      (Stream.ofLexed (tokenize text) false 0).peek 1 = .ok y ∧ y.isOperator "=" = false)
    (h : Gets (signed (expressionUpTo text.length)) (.ofLexed (tokenize text) false 0) first u)
    (after : Links (signed (expressionUpTo text.length)) u links t) (last : t.Next e)
    (spent : e.content = .endOfInput) :
    if comparable (links.map Prod.fst) then ∃ span m, parseProgram text = .ok (.program span [m]) ∧
      m.erase = (tree first links).erase
    else ∃ found, parseProgram text = .error (.parse ⟨.betweenComparisons, found⟩) := by
  have whole : (expressionUpTo (text.length + 1)).run (.ofLexed (tokenize text) false 0) = _ :=
    run_expressionWith starts hx target
  have read := run_operation h after
  split_ifs at read ⊢
  · obtain ⟨-, m, run, same⟩ := read
    obtain ⟨span, parsed⟩ := parseProgram_of_over (whole.trans run) last spent
    exact ⟨span, m, parsed, same⟩
  · obtain ⟨found, fails⟩ := read
    have semi : ¬ x.isDelimiter ";" := fun semi => by
      have stop : stops x := by simp [stops, semi]
      rw [not_startsArgument_of_stops stop] at starts
      cases starts
    have real : x.content ≠ .endOfInput := fun ends => by
      have stop : stops x := by simp [stops, ends]
      rw [not_startsArgument_of_stops stop] at starts
      cases starts
    refine ⟨found, ?_⟩
    rw [parseProgram, run_program, show Stream.peek _ _ = _ from hx, ok_bind, run_entries,
      run_iterateUpTo_succ, run_collect, run_entry_here hx semi real, whole, fails]
    rfl

/-- The entry of a script is the same as a tree that differs from it in labels alone. -/
theorem same_of_parseProgram {text : List Char} {span : Option Span} {m n : Node}
    (parsed : parseProgram text = .ok (.program span [m])) (h : m.erase = n.erase) : m.same n :=
  Node.same_of_erase_eq m h
    (Node.areWritten_iff.mp (isScript_of_parseProgram parsed) m List.mem_cons_self)

/-- A script of one operand. -/
theorem parseProgram_of_takes {text : List Char} {p : Position} (starts : startsArgument x)
    (cut : tokenize text = ⟨x :: ts ++ [.atEnd p], none⟩) (target : x.content = .word ∨ x.content = .delimiter)
    (h : Takes (application (expressionUpTo text.length)) Node.erase n.erase (x :: ts)
      (·.content = .endOfInput)) :
    ∃ span m, parseProgram text = .ok (.program span [m]) ∧ m.erase = n.erase := by
  have ahead : (Stream.ofLexed (tokenize text) false 0).ahead = x :: ts ++ .atEnd p :: [] := by
    rw [cut]
    rfl
  have signed := takes_signed (not_isSign_of_startsArgument starts) (fun t spent => ?_) h
  · obtain ⟨u, gets, left⟩ := signed.gets rfl ahead
    have last : u.Next (.atEnd p) := Stream.next_of_ahead left
    have ended : Links (Parser.signed (expressionUpTo text.length)) u [] u :=
      ⟨rfl, _, last, Token.not_isOneOf_of_end rfl _⟩
    have word (name : String) (content : x.content = .variable name) : ∃ y,
        (Stream.ofLexed (tokenize text) false 0).peek 1 = .ok y ∧ y.isOperator "=" = false := by
      rcases target with other | other <;> cases other.symm.trans content
    have whole := parseProgram_operation starts (Stream.next_of_ahead ahead) word gets ended last rfl
    rw [tree_nil] at whole
    exact whole
  · simp [Token.isDelimiter, of_decide_eq_true spent]

/-- A script of one command, of which the arguments are in parentheses. -/
theorem parseProgram_of_command {text : List Char} {p : Position} {name opening : Token}
    {word : String} {ns : List Node} (plain : name.isPlainWord) (ho : opening.isDelimiter "(")
    (cut : tokenize text = ⟨name :: opening :: x :: ts ++ [.atEnd p], none⟩)
    (h : Takes (if adjacent name opening then callArguments (expressionUpTo text.length)
      else arguments (expressionUpTo text.length)) (List.map Node.erase) (ns.map Node.erase)
      (opening :: x :: ts) (·.content = .endOfInput)) (called : name.lexeme = word) :
    ∃ span m, parseProgram text = .ok (.program span [m]) ∧
      m.erase = (Node.command none [] word ns).erase := by
  subst called
  have word : name.content = .word := by
    simp only [Token.isPlainWord, Bool.and_eq_true, decide_eq_true_eq] at plain
    exact plain.1
  have starts : startsArgument name := by simp [startsArgument, plain]
  exact parseProgram_of_takes starts cut (.inl word) (takes_command plain ho h)

end

end Parser

end Sigil
